import Hyperslab.Proofs.CopiesAndViews
import Hyperslab.Proofs.Pointwise

/-!
# Walks of several operands in words

A walk of several operands moves the index of each of them by strides of its own. So the numbers
that it meets are those of the walks of the operands one by one, and it comes to its end just if
each of these would. What a walk gathers or writes on its way is then what it does over exact
integers.

An axis along which a view is repeated is walked without moving, so a view that can be walked can be
walked wherever it is repeated.
-/
namespace Hyperslab

open List Word

/-! ## One operand beside others -/

namespace Odometer

/-- The first operand and the others meet numbers of their own. -/
theorem allFit_advanceNumbers_cons {s : Shape} {ts : Strides} {strides : List Strides}
    {axes : Nat} {p : Position} {o : Int} {offsets : List Int} :
    AllFit (advanceNumbers s (ts :: strides) axes p (o :: offsets)) ↔
      AllFit (advanceNumbers s [ts] axes p [o]) ∧
        AllFit (advanceNumbers s strides axes p offsets) := by
  induction axes generalizing p o offsets with
  | zero => simp [advanceNumbers]
  | succ j ih =>
    simp only [advanceNumbers, shift, zipWith_cons_cons, zipWith_nil_left]
    split
    · simp
    · simp only [map_cons, cons_append, allFit_cons, allFit_append, ih]
      tauto

theorem advanceNumbers_nil (s : Shape) (axes : Nat) (p : Position) :
    advanceNumbers s [] axes p [] = [] := by
  induction axes generalizing p with
  | zero => rfl
  | succ j ih => simp [advanceNumbers, shift, ih]

/-- A step of all operands meets words just if the step of each of them does. -/
theorem allFit_advanceNumbers_iff {s : Shape} {p : Position} {operands : List Operand} :
    AllFit (advanceNumbers s (operands.map Operand.strides) s.length p
        (indicesAt (operands.map Operand.start) (operands.map Operand.strides) p)) ↔
      ∀ a ∈ operands, AllFit (stepNumbers a.start s a.strides p) := by
  induction operands with
  | nil => simp [indicesAt, advanceNumbers_nil]
  | cons a operands ih =>
    have hcons : indicesAt ((a :: operands).map Operand.start)
        ((a :: operands).map Operand.strides) p = (a.start + a.strides.offset p) ::
          indicesAt (operands.map Operand.start) (operands.map Operand.strides) p := rfl
    rw [hcons, map_cons, allFit_advanceNumbers_cons, ih, forall_mem_cons]
    rfl

/-- A walk meets words just if the steps of each operand do. -/
theorem allFit_met_iff {s : Shape} {operands : List Operand} :
    AllFit ((start s operands).met s.size) ↔
      ∀ a ∈ operands, ∀ p, s.contains p → AllFit (stepNumbers a.start s a.strides p) := by
  rw [met_start, allFit_flatMap]
  simp only [allFit_advanceNumbers_iff, Shape.mem_positions]
  exact ⟨fun h a ha p hp => h p hp a ha, fun h p hp a ha => h a ha p hp⟩

/-- A walk of several views of one shape meets words just if the walk of each view does. -/
theorem allFit_met_start_iff {s : Shape} {gs : List Geometry}
    (hgs : ∀ g ∈ gs, g.shape = s ∧ g.strides.length = s.length) :
    AllFit ((start s (gs.map Geometry.operand)).met s.size) ↔ ∀ g ∈ gs, AllFit g.walkNumbers := by
  rw [allFit_met_iff, forall_mem_map]
  refine forall₂_congr fun g hg => ?_
  obtain ⟨rfl, hlength⟩ := hgs g hg
  exact Geometry.allFit_steps_iff hlength

/-! ## What a walk does on its way -/

/-- A walk that finds every index in its place stops just where it meets a number that is no
word. -/
theorem reachInWords_eq {test : Nat → Bool} {n : Nat} {o : Odometer}
    (htest : ∀ v ∈ o.visits n, test (v.index 0)) :
    (AllFit (o.met n) → o.reachInWords test n = ⟨(o.visits n).map (·.index 0), none, none⟩) ∧
    (¬ AllFit (o.met n) → (o.reachInWords test n).stop = some .overflow) := by
  induction n generalizing o with
  | zero => exact ⟨fun _ => rfl, fun h => absurd allFit_nil h⟩
  | succ n ih =>
    have hall : o.nextNumbers.all fits ↔ AllFit o.nextNumbers := all_eq_true
    rw [met, allFit_append, reachInWords, visits]
    by_cases hfit : AllFit o.nextNumbers
    · rw [if_pos (hall.mpr hfit)]
      cases hnext : o.next? with
      | none => exact ⟨fun _ => rfl, fun h => absurd ⟨hfit, allFit_nil⟩ h⟩
      | some v =>
        rw [visits, hnext] at htest
        obtain ⟨hv, hrest⟩ := forall_mem_cons.mp htest
        obtain ⟨hreach, hstop⟩ := ih hrest
        simp only [hv, if_true]
        exact ⟨fun h => by rw [hreach h.2]; rfl, fun h => hstop fun h' => h ⟨hfit, h'⟩⟩
    · rw [if_neg (mt hall.mp hfit)]
      exact ⟨fun h => absurd h.1 hfit, fun _ => rfl⟩

end Odometer

namespace Geometry.Inside

variable {g : Geometry} {length : Nat}

/-- A walk of items that are all in a buffer reaches all of them just if its extreme numbers are
words. -/
theorem reachInWords_eq (h : g.Inside length) (hsize : g.shape.sizeChecked.isSome) :
    (AllFit g.walkNumbers → g.reachInWords length = g.reach length) ∧
    (¬ AllFit g.walkNumbers → (g.reachInWords length).stop = some .overflow) := by
  have hfault : g.walk.fault? = none := by
    simp [Odometer.fault?, walk, Odometer.start, Option.isSome_iff_ne_none.mp hsize,
      h.length_strides]
  have hwalk : g.walk = Odometer.start g.shape ([g].map Geometry.operand) := rfl
  have hmet : AllFit (g.walk.met g.shape.size) ↔ AllFit g.walkNumbers := by
    rw [hwalk, Odometer.allFit_met_start_iff (by simpa using h.length_strides),
      forall_mem_singleton]
  have hindices : (g.walk.visits g.shape.size).map (·.index 0) = g.indices := by
    have hmap := congrArg (map Prod.snd) g.map_walk
    rw [map_map, map_map] at hmap
    rw [indices_eq]
    exact hmap
  have hwords : g.reachInWords length = g.walk.reachInWords (fun i => i + g.itemSize ≤ length)
      g.shape.size := by
    simp only [Geometry.reachInWords, hfault]
    rfl
  have htest (v : Odometer) (hv : v ∈ g.walk.visits g.shape.size) :
      (fun i => decide (i + g.itemSize ≤ length)) (v.index 0) :=
    decide_eq_true (h.walk_inside hv)
  rw [hwords, h.reach_eq, ← hindices, ← hmet]
  exact Odometer.reachInWords_eq htest

end Geometry.Inside

/-! ## Writes that come to their end -/

namespace Dataset

variable {d data e : Block} {r : Region} {s : Shape} {w : Written Buffer}

theorem stop_afterWrite (f : Elements → Elements) (stop : Option Fault) (d : Block) :
    (d.afterWrite f stop).stop = stop := by
  cases stop <;> rfl

theorem spread_of_inWords (h : data.spreadInWords s = .ok e) : data.spread s = .ok e := by
  rw [spreadInWords] at h
  split at h
  · simp only [bind_eq_ok] at h
    obtain ⟨-, -, -, -, h⟩ := h
    exact h
  · simp only [bind_eq_ok] at h
    obtain ⟨m, -, n, -, h⟩ := h
    split at h <;> simp only [bind_eq_ok] at h
    · obtain ⟨-, -, h⟩ := h
      exact h
    · obtain ⟨-, -, h⟩ := h
      exact h

theorem incoming_of_inWords {items : List (List Scalar)}
    (h : d.incomingInWords r data = .ok items) : d.incoming r data = .ok items := by
  simp only [incomingInWords, incoming, bind_eq_ok] at h ⊢
  obtain ⟨u, hregion, h⟩ := h
  refine ⟨u, hregion, ?_⟩
  split at h
  · cases h
  · rename_i hsize
    simp only [bind_eq_ok] at h
    obtain ⟨source, hspread, -, -, u, hread, h⟩ := h
    rw [if_neg hsize, spread_of_inWords hspread, ok_bind, hread]
    exact h

/-- A write that comes to its end in words is the write over exact integers, and the region can be
read in words. -/
theorem Sound.writeSlice_of_inWords (hd : d.Sound) (hr : r.Valid)
    (h : d.writeSliceInWords r data = .ok w) (hstop : w.stop = none) :
    d.writeSlice r data = .ok w ∧ d.LoadsInWords r := by
  simp only [writeSliceInWords, bind_eq_ok, pure_eq_ok] at h
  obtain ⟨items, hitems, g, hg, rfl⟩ := h
  have hincoming := incoming_of_inWords hitems
  have hsource : r.source = d.shape := by
    simp only [incoming, bind_eq_ok, Frame.checkRegion_eq_ok] at hincoming
    obtain ⟨-, hsource, -⟩ := hincoming
    exact hsource
  rw [Frame.Sound.regionInWords_eq hd hr hsource] at hg
  simp only [bind_eq_ok, pure_eq_ok, ensure_eq_ok] at hg
  obtain ⟨-, ⟨hhas, hsize, hstrides⟩, rfl⟩ := hg
  obtain ⟨hreach, hstops⟩ := (hd.inside.slice hr hsource).reachInWords_eq hsize
  have hwalk : AllFit (d.geometry.slice r).walkNumbers := by
    by_contra hnot
    rw [hstops hnot] at hstop
    cases hstop
  refine ⟨?_, hhas, hsize, hstrides, hwalk⟩
  rw [writeSlice, hincoming, hreach hwalk]
  rfl

theorem Sound.setSlice_of_inWords (hd : d.Sound) (hr : r.Valid)
    (h : d.setSliceInWords r data = .ok e) : d.setSlice r data = .ok e := by
  simp only [setSliceInWords, setSlice, bind_eq_ok] at h ⊢
  obtain ⟨w, hw, hfinish⟩ := h
  have hstop : w.stop = none := by
    simp only [Written.finish, bind_eq_ok, check_eq_ok] at hfinish
    obtain ⟨-, hstop, -⟩ := hfinish
    exact hstop
  exact ⟨w, (hd.writeSlice_of_inWords hr hw hstop).1, hfinish⟩

theorem incomingInWords_follows (h : Follows (data.spreadInWords r.shape) (data.spread r.shape)) :
    Follows (d.incomingInWords r data) (d.incoming r data) := by
  refine Follows.bind (.inl rfl) fun _ _ => ?_
  split
  · exact .inl rfl
  · refine h.bind fun source _ => ?_
    rw [Frame.checkWalk_eq]
    exact follows_ensure ..

theorem spreadInWords_follows_of_shape (h : data.shape = s) :
    Follows (data.spreadInWords s) (data.spread s) := by
  simp only [spreadInWords, if_pos h, Shape.stridesChecked_bind, Metadata.checkCopy_eq, ensure_and]
  exact follows_ensure ..

/-- Data of the region's shape and of a fitting item size is written, if no number that is met
before the first item leaves the words. -/
theorem Sound.writeSliceInWords_of_shape (hd : d.Sound) (hr : r.Valid) (hsource : r.source = d.shape)
    (hdata : data.Sound) (hshape : data.shape = r.shape)
    (hfits : data.itemSize = d.itemSize ∨ data.itemSize = 1) :
    (∃ w, d.writeSliceInWords r data = .ok w) ∨
      d.writeSliceInWords r data = .error (.fault .overflow) := by
  have hincoming : Follows (d.incomingInWords r data) (d.incoming r data) :=
    incomingInWords_follows (spreadInWords_follows_of_shape hshape)
  rw [hdata.incoming_of_shape hsource hfits hshape] at hincoming
  rw [writeSliceInWords, Frame.Sound.regionInWords_eq hd hr hsource]
  rcases hincoming with hitems | hstops
  · rw [hitems, ok_bind, bind_assoc]
    refine (follows_ensure _ _).imp_left fun h => ⟨_, h⟩
  · exact .inr (by rw [hstops]; rfl)

end Dataset

/-! ## Views that are repeated -/

namespace Geometry

variable {g : Geometry} {s t : Shape} {ts us : Strides} {low high : Int}

theorem allFit_turns_replicate (hlow : Word.fits low) (hhigh : Word.fits high)
    (h : Word.AllFit (turns low high t us)) :
    Word.AllFit (turns low high (s ++ t) (List.replicate s.length 0 ++ us)) := by
  induction s with
  | nil => exact h
  | cons d s ih =>
    have hzero : Word.fits 0 := rfl
    simpa [turns, List.replicate_succ, hzero, hlow, hhigh] using ih

/-- Where an axis is repeated instead of walked, the turns lead no further. -/
theorem allFit_turns_alignStrides (hs : 0 < s.size) (hts : ts.length = s.length)
    (hlength : s.length = t.length) (hlow : Word.fits low) (hhigh : Word.fits high)
    (hus : Shape.alignStrides s ts t = some us) (h : Word.AllFit (turns low high s ts)) :
    Word.AllFit (turns low high t us) := by
  induction s generalizing t ts us low high with
  | nil =>
    obtain rfl : t = [] := List.eq_nil_of_length_eq_zero hlength.symm
    exact allFit_nil
  | cons d s ih =>
    obtain ⟨n, t, rfl⟩ := List.exists_cons_of_length_eq_add_one hlength.symm
    obtain ⟨x, ts, rfl⟩ := List.exists_cons_of_length_eq_add_one hts
    have hd : 0 < d := Nat.pos_of_mul_pos_right hs
    have hlast : (d : Int) * x - x = (d - 1 : Nat) * x := by
      rw [Nat.cast_sub hd]
      ring
    obtain ⟨hmin, hmax⟩ := mul_between (Nat.sub_le d 1) x
    simp only [turns, allFit_append, allFit_cons, allFit_nil, and_true, hlast] at h
    obtain ⟨⟨hturn, hleast, hgreatest⟩, hrest⟩ := h
    simp only [Shape.alignStrides, Option.bind_eq_bind, Option.bind_eq_some_iff] at hus
    obtain ⟨rest, halign, hus⟩ := hus
    have hnext {low high : Int} := @ih t ts rest low high (Nat.pos_of_mul_pos_left hs)
      (by simpa using hts) (by simpa using hlength)
    by_cases hdn : d = n
    · rw [if_pos hdn] at hus
      obtain rfl := Option.some.inj hus
      subst hdn
      simp only [turns, allFit_append, allFit_cons, allFit_nil, and_true, hlast]
      refine ⟨⟨hturn, hleast, hgreatest⟩, hnext ?_ ?_ halign hrest⟩
      · exact fits_of_between hleast hlow (by omega) (by omega)
      · exact fits_of_between hhigh hgreatest (by omega) (by omega)
    · rw [if_neg hdn] at hus
      by_cases hone : d = 1
      · rw [if_pos hone] at hus
        obtain rfl := Option.some.inj hus
        subst hone
        have hzero : Word.fits 0 := rfl
        have hsame : Word.AllFit (turns low high s ts) := by simpa using hrest
        simpa [turns, hzero, hlow, hhigh] using hnext hlow hhigh halign hsame
      · rw [if_neg hone] at hus
        cases hus

/-- **A view that can be walked in words can be walked wherever it is repeated.** -/
theorem Stretches.allFit_walkNumbers (h : g.Stretches t)
    (hlength : g.strides.length = g.shape.length) (hwalk : AllFit g.walkNumbers) :
    AllFit (g.stretch t).walkNumbers := by
  have hshape : (g.stretch t).shape = t := rfl
  have hoffset : (g.stretch t).offset = g.offset := rfl
  rw [walkNumbers, hshape]
  by_cases ht : t.size = 0
  · rw [if_pos ht]
    exact allFit_nil
  · rw [if_neg ht]
    have hpos := h.size_pos (Nat.pos_of_ne_zero ht)
    rw [walkNumbers, if_neg hpos.ne'] at hwalk
    -- The strides are those of the view behind axes that are not walked.
    obtain ⟨us, hus, hstrides⟩ : ∃ us, Shape.alignStrides g.shape g.strides
        (t.drop (t.length - g.shape.length)) = some us ∧ (g.stretch t).strides =
          replicate (t.take (t.length - g.shape.length)).length 0 ++ us := by
      have hbroadcast := h.broadcastStrides_eq hlength
      simp only [Shape.broadcastStrides, if_neg (Nat.not_lt.mpr h.1)] at hbroadcast
      split at hbroadcast
      · rename_i us hus
        refine ⟨us, hus, ?_⟩
        rw [length_take_of_le (Nat.sub_le ..)]
        exact (Except.ok.inj hbroadcast).symm
      · cases hbroadcast
    have hfit := fits_signed g.offset
    have hrank : g.shape.length = (t.drop (t.length - g.shape.length)).length := by
      have hle := h.1
      rw [length_drop]
      omega
    have hturns := allFit_turns_replicate (s := t.take (t.length - g.shape.length)) hfit hfit
      (allFit_turns_alignStrides hpos hlength hrank hfit hfit hus hwalk)
    rwa [take_append_drop, ← hstrides] at hturns

theorem allFit_walkNumbers_dense {n : Nat} (hn : 0 < n) (hlt : s.size * n < half) :
    AllFit (dense s n).walkNumbers := by
  rw [walkNumbers]
  split
  · exact allFit_nil
  · rename_i hs
    have hhigh : signed (dense s n).offset + (s.size * n : Nat) < half := by
      have hzero : signed (dense s n).offset = 0 := rfl
      omega
    exact allFit_turns_strides hn (Nat.pos_of_ne_zero hs) le_rfl le_rfl hhigh

end Geometry

namespace BroadcastWalk

variable {α : Type} {f : BroadcastWalk → Except Error (List α)}

/-- A walk that gathers in words gathers what it does over exact integers, if all numbers that it
meets are words. -/
theorem collectFromInWords_eq_ok_iff {n : Nat} {w : BroadcastWalk} {found out : Array α} :
    collectFromInWords f n w found = .ok out ↔
      Word.AllFit (w.odometer.met n) ∧ collectFrom f n w found = .ok out := by
  induction n generalizing w found with
  | zero => simp [collectFromInWords, collectFrom, Odometer.met]
  | succ n ih =>
    have hnext : w.next? = w.odometer.next?.map fun o => { w with odometer := o } := rfl
    simp only [collectFromInWords, collectFrom, Odometer.met, bind_eq_ok, Word.check_eq_ok,
      allFit_append, hnext]
    cases w.odometer.next? with
    | none => simp
    | some o =>
      simp only [Option.map_some, bind_eq_ok, ih]
      constructor
      · rintro ⟨-, hfit, part, hpart, hrest, hout⟩
        exact ⟨⟨hfit, hrest⟩, part, hpart, hout⟩
      · rintro ⟨⟨hfit, hrest⟩, part, hpart, hout⟩
        exact ⟨(), hfit, part, hpart, hrest, hout⟩

theorem collectInWords_eq_ok_iff {w : BroadcastWalk} {out : List α} :
    w.collectInWords f = .ok out ↔
      AllFit (w.odometer.met w.odometer.remaining) ∧ w.collect f = .ok out := by
  simp only [collectInWords, collect, bind_eq_ok, collectFromInWords_eq_ok_iff]
  constructor
  · rintro ⟨found, ⟨hfit, hfound⟩, hout⟩
    exact ⟨hfit, found, hfound, hout⟩
  · rintro ⟨hfit, found, hfound, hout⟩
    exact ⟨found, ⟨hfit, hfound⟩, hout⟩

end BroadcastWalk

end Hyperslab
