import Hyperslab.Proofs.Fillings
import Mathlib.Data.List.Induction

/-!
# Joining along an axis

Datasets that agree on all axes but one are written one after the other into a new dataset.
-/
namespace Hyperslab

open List Region Shape Word

/-! ## Positions along an axis -/

namespace Shape

variable {s : Shape} {a n : Nat} {q : Position}

theorem getD_lt_of_contains (hq : s.contains q) (ha : a < s.length) : q.getD a 0 < s.getD a 0 := by
  induction s generalizing a q with
  | nil => simp at ha
  | cons d s ih =>
    obtain ⟨c, q, rfl, hc, hq⟩ := exists_of_contains_cons hq
    cases a with
    | zero => simpa using hc
    | succ a => simpa using ih hq (by simpa using ha)

theorem contains_set_modify {f : Nat → Nat} (hq : s.contains q)
    (hf : f (q.getD a 0) < n) : contains (s.set a n) (q.modify a f) := by
  induction s generalizing a q with
  | nil =>
    rw [contains_nil.mp hq]
    simp
  | cons d s ih =>
    obtain ⟨c, q, rfl, hc, hq⟩ := exists_of_contains_cons hq
    cases a with
    | zero => exact contains_cons.mpr ⟨by simpa using hf, hq⟩
    | succ a => exact contains_cons.mpr ⟨hc, ih hq (by simpa using hf)⟩

theorem set_getD_self (s : Shape) (a : Nat) : s.set a (s.getD a 0) = s := by
  by_cases ha : a < s.length
  · simp [ha]
  · exact set_eq_of_length_le (Nat.not_lt.mp ha)

theorem getD_set_self (ha : a < s.length) : (s.set a n).getD a 0 = n := by
  simp [ha]

theorem modify_set (s : Shape) (a m : Nat) (f : Nat → Nat) :
    (s.set a m).modify a f = s.set a (f m) := by
  induction s generalizing a with
  | nil => simp
  | cons d s ih =>
    cases a with
    | zero => simp
    | succ a => simpa using ih a

theorem compatibleExcept_set (s : Shape) (a m n : Nat) :
    compatibleExcept (s.set a m) (s.set a n) a := by
  rw [compatibleExcept, Bool.and_eq_true, beq_iff_eq, length_set, length_set]
  refine ⟨rfl, all_eq_true.mpr fun x hx => ?_⟩
  obtain ⟨⟨b, c⟩, i⟩ := x
  obtain ⟨hb, hc⟩ := getElem?_zip_eq_some.mp (mem_zipIdx_iff_getElem?.mp hx)
  by_cases hi : i = a
  · simp [hi]
  · rw [getElem?_set_ne (Ne.symm hi)] at hb hc
    simpa [hi] using Option.some.inj (hb.symm.trans hc)

end Shape

namespace Position

variable {a : Nat} {q : Position}

theorem modify_congr {f g : Nat → Nat} (h : f (q.getD a 0) = g (q.getD a 0)) :
    q.modify a f = q.modify a g := by
  induction q generalizing a with
  | nil => simp
  | cons c q ih =>
    cases a with
    | zero => simpa using h
    | succ a => simpa using ih (by simpa using h)

theorem getD_modify (ha : a < q.length) (f : Nat → Nat) :
    (q.modify a f).getD a 0 = f (q.getD a 0) := by
  simp [ha]

theorem modify_of_eq {f : Nat → Nat} (h : f (q.getD a 0) = q.getD a 0) : q.modify a f = q := by
  rw [modify_congr (g := id) h, modify_id]

end Position

/-! ## Bands -/

namespace Region

variable {s : Shape} {a lo hi : Nat} {p q : Position}

theorem along_of_resolve {n : Nat} {slice : Slice} {span : Span}
    (hn : (s : List Nat)[a]? = some n) (h : slice.resolve n n = .ok span) :
    along s a slice = .ok ⟨s, none, (s.map Span.full).set a span, false, .none⟩ := by
  have ha : a < s.length := (List.getElem?_eq_some_iff.mp hn).1
  have hrank : ¬ (full s).rank ≤ a := by simpa [full, rank] using ha
  have hentry : entry (full s).source a = .ok n := by
    have hsource : (full s).source = s := rfl
    simp [entry, hsource, hn]
  have hstays := Slice.stays_of_resolve h
  have hlimits : (full s).limits = none := rfl
  rw [along, setAxis, if_neg hrank]
  simp only [hentry, limit, hlimits, Option.elim_none, ok_bind, h, hstays]
  rfl

/-- The positions of a shape with a coordinate from `lo` up to `hi` on one axis. -/
def band (s : Shape) (a lo hi : Nat) : Region :=
  ⟨s, none, (s.map Span.full).set a ⟨lo, hi, 1, hi - lo⟩, false, .none⟩

theorem along_between (ha : a < s.length) (hsmall : s.getD a 0 < half) (hle : lo ≤ hi)
    (hhi : hi ≤ s.getD a 0) : along s a (Slice.between lo hi) = .ok (band s a lo hi) := by
  have hn : (s : List Nat)[a]? = some (s.getD a 0) := by simp [ha]
  exact along_of_resolve hn (Slice.resolve_between hle hhi hsmall)

theorem shape_band (s : Shape) (a lo hi : Nat) : (band s a lo hi).shape = s.set a (hi - lo) := by
  have hcount : Span.count ∘ Span.full = id := rfl
  rw [shape, band, map_set, map_map, hcount, map_id]

theorem valid_band (hhi : hi ≤ s.getD a 0) : (band s a lo hi).Valid where
  within := by
    have hspan : Span.Within ⟨lo, hi, 1, hi - lo⟩ (s.getD a 0) := by
      refine ⟨Int.one_ne_zero, fun p hp => ?_⟩
      simp only [Span.coord] at hp ⊢
      omega
    have hset := forall₂_set (i := a) (valid_full s).within fun _ => hspan
    rwa [show (full s).source = s from rfl, set_getD_self] at hset
  limits := by rintro l ⟨⟩
  spare := rfl

theorem stepsWithin_band (hhi : hi ≤ s.getD a 0) : (band s a lo hi).StepsWithin s := by
  refine stepsWithin_of_unit (valid_band hhi) fun span hspan => ?_
  rcases mem_or_eq_of_mem_set hspan with hfull | rfl
  · obtain ⟨d, -, rfl⟩ := mem_map.mp hfull
    rfl
  · rfl

theorem sourcePosition_band (hsmall : ∀ d ∈ s, d ≤ modulus) (hhi : hi ≤ s.getD a 0)
    (hp : contains (s.set a (hi - lo)) p) :
    (band s a lo hi).sourcePosition p = p.modify a (· + lo) := by
  have hlength : p.length = s.length := by
    rw [length_of_contains hp, length_set]
  have hcoords : (band s a lo hi).coords p = (p.modify a (· + lo)).map Int.ofNat := by
    apply ext_getElem?
    intro i
    simp only [coords, band, getElem?_map, getElem?_modify]
    by_cases hi : a = i
    · subst hi
      rcases Nat.lt_or_ge a s.length with ha | ha
      · simp [ha, hlength, Span.coord, Int.add_comm]
      · simp [ha, hlength]
    · rcases Nat.lt_or_ge i s.length with ha | ha
      · simp [hi, ha, hlength, Span.coord, Span.full]
      · simp [ha, hlength]
  rw [(valid_band hhi).sourcePosition_eq hsmall (by rwa [shape_band]), hcoords, map_map]
  exact map_id _

theorem covers_band (hsmall : ∀ d ∈ s, d ≤ modulus) (hhi : hi ≤ s.getD a 0) (ha : a < s.length)
    (hq : s.contains q) : (band s a lo hi).Covers q ↔ lo ≤ q.getD a 0 ∧ q.getD a 0 < hi := by
  have haxis {p : Position} (hp : contains (s.set a (hi - lo)) p) :
      p.getD a 0 < hi - lo ∧ (p.modify a (· + lo)).getD a 0 = p.getD a 0 + lo := by
    have hlt := getD_lt_of_contains hp (by rwa [length_set])
    rw [getD_set_self ha] at hlt
    have hlength : a < p.length := by rwa [length_of_contains hp, length_set]
    exact ⟨hlt, Position.getD_modify hlength _⟩
  simp only [Covers, shape_band]
  constructor
  · rintro ⟨p, hp, rfl⟩
    obtain ⟨hlt, hshift⟩ := haxis hp
    rw [sourcePosition_band hsmall hhi hp]
    omega
  · rintro ⟨hlo, hlt⟩
    have hp : contains (s.set a (hi - lo)) (q.modify a (· - lo)) :=
      contains_set_modify hq (by omega)
    refine ⟨q.modify a (· - lo), hp, ?_⟩
    rw [sourcePosition_band hsmall hhi hp, modify_modify_eq]
    exact Position.modify_of_eq (Nat.sub_add_cancel hlo)

end Region

/-! ## Joining -/

namespace Dataset

variable {d out : Block} {ds : List Block} {k : Kind} {s : Shape} {a n start : Nat}

/-- A dataset of scalars of a kind, whatever is attached to it. -/
structure OfKind (d : Block) (k : Kind) : Prop where
  sound : d.Sound
  kind_eq : d.kind = k
  holds : ∀ p, d.shape.contains p = true → ∀ v ∈ d.item p, k.Holds v

theorem Plain.ofKind (h : d.Plain k) : d.OfKind k := ⟨h.sound, h.kind_eq, h.holds⟩

theorem OfKind.fitItem_eq {p : Position} (h : d.OfKind k) (hp : d.shape.contains p) :
    fitItem k n (d.item p) = d.item p ++ replicate (n - d.itemSize) k.zero := by
  have hcast : (d.item p).map k.cast = (d.item p).map id :=
    map_congr_left fun v hv => Kind.cast_of_holds (h.holds p hp v hv)
  rw [map_id] at hcast
  simp only [fitItem, hcast, length_item]

theorem OfKind.fitItem_self {p : Position} (h : d.OfKind k) (hp : d.shape.contains p) :
    fitItem k d.itemSize (d.item p) = d.item p := by simp [h.fitItem_eq hp]

def lengthAlong (d : Block) (a : Nat) : Nat := d.shape.getD a 0

/-- The length of an axis that datasets fill one after the other. -/
def totalLength (a : Nat) (ds : List Block) : Nat := (ds.map (lengthAlong · a)).sum

@[simp] theorem totalLength_nil (a : Nat) : totalLength a [] = 0 := rfl

@[simp] theorem totalLength_cons (a : Nat) (d : Block) (ds : List Block) :
    totalLength a (d :: ds) = d.lengthAlong a + totalLength a ds := rfl

/-- The item at a position where datasets lie one after the other along an axis, filled up to a
given size. -/
def joinedItem (k : Kind) (n a : Nat) : List Block → Position → List Scalar
  | [], _ => []
  | d :: ds, q =>
      if q.getD a 0 < d.lengthAlong a then fitItem k n (d.item q)
      else joinedItem k n a ds (q.modify a (· - d.lengthAlong a))

theorem joinedItem_of_lt {q : Position} (h : q.getD a 0 < d.lengthAlong a) :
    joinedItem k n a (d :: ds) q = fitItem k n (d.item q) := if_pos h

theorem joinedItem_of_le {q : Position} (h : d.lengthAlong a ≤ q.getD a 0) :
    joinedItem k n a (d :: ds) q = joinedItem k n a ds (q.modify a (· - d.lengthAlong a)) :=
  if_neg (Nat.not_lt.mpr h)

/-- Every position along the axis falls to one of the datasets. -/
theorem joinedItem_eq {q : Position} (haq : a < q.length) (hq : q.getD a 0 < totalLength a ds) :
    ∃ before d after, ds = before ++ d :: after ∧ totalLength a before ≤ q.getD a 0 ∧
      q.getD a 0 < totalLength a before + d.lengthAlong a ∧
      joinedItem k n a ds q = fitItem k n (d.item (q.modify a (· - totalLength a before))) := by
  induction ds generalizing q with
  | nil => simp at hq
  | cons d ds ih =>
    rcases Nat.lt_or_ge (q.getD a 0) (d.lengthAlong a) with hlt | hle
    · refine ⟨[], d, ds, rfl, Nat.zero_le _, by simpa using hlt, ?_⟩
      rw [joinedItem_of_lt hlt, Position.modify_of_eq (Nat.sub_zero _)]
    · rw [totalLength_cons] at hq
      have hcoord := Position.getD_modify haq (· - d.lengthAlong a)
      obtain ⟨before, b, after, rfl, hlow, hhigh, hitem⟩ :=
        ih (q := q.modify a (· - d.lengthAlong a)) (by simpa using haq) (by omega)
      refine ⟨d :: before, b, after, rfl, ?_, ?_, ?_⟩
      · rw [totalLength_cons]
        omega
      · rw [totalLength_cons]
        omega
      · have hshift : (· - totalLength a before) ∘ (· - d.lengthAlong a) =
            (· - totalLength a (d :: before)) := by
          funext c
          exact Nat.sub_sub c _ _
        rw [joinedItem_of_le hle, hitem, modify_modify_eq, hshift]

/-- A dataset that may fill a part of an axis. -/
structure PartOf (d : Block) (s : Shape) (n a : Nat) : Prop where
  sound : d.Sound
  itemSize_eq : d.itemSize = n ∨ d.itemSize = 1
  shape_eq : d.shape = s.set a (d.lengthAlong a)

/-- The datasets are written one after the other, over exact integers as well as in words, if they
and what is attached to them can be walked there. -/
theorem Fresh.placeAlong_eq (hout : out.Fresh k s n) (hroom : s.room n < half) (ha : a < s.length)
    (hds : ∀ d ∈ ds, d.PartOf s n a) (hfits : start + totalLength a ds ≤ s.getD a 0) :
    ∃ e, placeAlong a start out ds = .ok e ∧ placeAlongInWords a start out ds = (do
        ensure (∀ d ∈ ds, d.metadata.CopiesInWords ∧ AllFit d.geometry.walkNumbers)
        .ok e) ∧
      e.Fills out (fun q => joinedItem k n a ds (q.modify a (· - start)))
        fun q => start ≤ q.getD a 0 ∧ q.getD a 0 < start + totalLength a ds := by
  induction ds generalizing start out with
  | nil =>
    refine ⟨out, rfl, ?_, ?_⟩
    · rfl
    · refine (Fills.refl out _).congr (fun q _ => ?_) fun _ _ _ => rfl
      simp
  | cons d ds ih =>
    obtain ⟨hd, hrest⟩ := forall_mem_cons.mp hds
    rw [totalLength_cons] at hfits
    have hsmall := le_modulus_of_room hout.itemSize_pos hroom
    have hlength := getD_lt_half_of_room hout.itemSize_pos hroom ha
    -- The first dataset fills a band.
    have hhi : start + d.lengthAlong a ≤ s.getD a 0 := by omega
    have hr : (band s a start (start + d.lengthAlong a)).Valid := valid_band hhi
    have hshape : d.shape = (band s a start (start + d.lengthAlong a)).shape := by
      rw [shape_band, Nat.add_sub_cancel_left]
      exact hd.shape_eq
    have hband := along_between ha hlength (Nat.le_add_right start _) hhi
    obtain ⟨e, hset, hwords, hwrite⟩ := hout.setSlice_of_shape hroom hr rfl
      (stepsWithin_band hhi) hd.sound hd.itemSize_eq hshape
    have hfills : e.Fills out (fun q => joinedItem k n a (d :: ds) (q.modify a (· - start)))
        (band s a start (start + d.lengthAlong a)).Covers := by
      refine hwrite.fills hout.sound hout.metadata_eq hr hout.shape_eq.symm fun p hp => ?_
      rw [← hshape] at hp
      have hcoord : p.getD a 0 < d.lengthAlong a :=
        getD_lt_of_contains hp (by rwa [hd.shape_eq, length_set])
      have hback : (p.modify a (· + start)).modify a (· - start) = p := by
        rw [modify_modify_eq]
        exact Position.modify_of_eq (Nat.add_sub_cancel _ start)
      rw [sourcePosition_band hsmall hhi (by rwa [← shape_band, ← hshape]), hback,
        joinedItem_of_lt hcoord]
    obtain ⟨e', hset', hwords', hfills'⟩ := ih (hfills.fresh hout) hrest
      (show start + d.lengthAlong a + totalLength a ds ≤ s.getD a 0 by omega)
    refine ⟨e', ?_, ?_, ?_⟩
    · rw [placeAlong, hout.shape_eq]
      simp only [lengthAlong] at hband hset hset'
      simp only [hband, ok_bind, hset, hset']
    · rw [placeAlongInWords, hout.shape_eq]
      simp only [lengthAlong] at hband hwords hwords'
      simp only [hband, ok_bind, hwords, bind_assoc, hwords', ensure_and, forall_mem_cons]
    · have hshape' : e.shape = s := (hfills.fresh hout).shape_eq
      have hlater : e'.Fills e (fun q => joinedItem k n a (d :: ds) (q.modify a (· - start)))
          fun q => start + d.lengthAlong a ≤ q.getD a 0 ∧
            q.getD a 0 < start + d.lengthAlong a + totalLength a ds := by
        refine hfills'.congr (fun _ _ => Iff.rfl) fun q hq hc => ?_
        rw [hshape'] at hq
        have haq : a < q.length := by rwa [length_of_contains hq]
        rw [joinedItem_of_le (by rw [Position.getD_modify haq]; omega), modify_modify_eq]
        congr 2
        funext c
        exact (Nat.sub_sub c start _).symm
      refine (hlater.trans hfills).congr (fun q hq => ?_) fun _ _ _ => rfl
      rw [hout.shape_eq] at hq
      rw [covers_band hsmall hhi ha hq, totalLength_cons]
      omega

theorem joinedShape_concat (first : Block) (a : Nat) (others : List Block) (d : Block) :
    joinedShape first a (others ++ [d]) = (do
      let (s, itemSize) ← joinedShape first a others
      if ¬ compatibleExcept first.shape d.shape a then
        .error (.incompatibleShapes first.shape d.shape)
      else if modulus ≤ s.getD a 0 + d.lengthAlong a then .error (.fault .overflow)
      else .ok (s.modify a (· + d.lengthAlong a), max itemSize d.itemSize)) := by
  simp only [joinedShape, foldlM_append, foldlM_cons, foldlM_nil, bind_pure]
  rfl

/-- The joined axis has the lengths of all datasets, and their largest item size is taken. -/
theorem joinedShape_eq {first : Block} {others : List Block} (ha : a < first.rank)
    (hothers : ∀ d ∈ others, d.shape = first.shape.set a (d.lengthAlong a))
    (hsmall : totalLength a (first :: others) < modulus) :
    ∃ m, joinedShape first a others = .ok (first.shape.set a (totalLength a (first :: others)), m) ∧
      (∀ d ∈ first :: others, d.itemSize ≤ m) ∧ ∃ d ∈ first :: others, d.itemSize = m := by
  induction others using reverseRecOn with
  | nil =>
    refine ⟨first.itemSize, ?_, by simp, by simp⟩
    rw [totalLength_cons, totalLength_nil, Nat.add_zero, lengthAlong, set_getD_self]
    rfl
  | append_singleton others d ih =>
    have htotal : totalLength a (first :: (others ++ [d])) =
        totalLength a (first :: others) + d.lengthAlong a := by
      simp only [totalLength, map_cons, map_append, map_nil, sum_cons, sum_append, sum_nil]
      omega
    rw [htotal] at hsmall ⊢
    obtain ⟨m, hjoined, hle, b, hb, hm⟩ := ih
      (fun d hd => hothers d (mem_append_left _ hd)) (by omega)
    have hd := hothers d (by simp)
    have hcompatible : compatibleExcept first.shape d.shape a := by
      have hset := compatibleExcept_set first.shape a (first.lengthAlong a) (d.lengthAlong a)
      rwa [lengthAlong, set_getD_self, ← hd] at hset
    have hlength : (first.shape.set a (totalLength a (first :: others))).getD a 0 =
        totalLength a (first :: others) := getD_set_self ha
    refine ⟨max m d.itemSize, ?_, ?_, ?_⟩
    · rw [joinedShape_concat, hjoined, ok_bind]
      simp only [hcompatible, not_true_eq_false, if_false, hlength]
      rw [if_neg (Nat.not_le.mpr hsmall), modify_set]
    · simp only [mem_cons, mem_append, not_mem_nil, or_false]
      rintro x (rfl | hx | rfl)
      · exact (hle x mem_cons_self).trans (Nat.le_max_left ..)
      · exact (hle x (mem_cons_of_mem _ hx)).trans (Nat.le_max_left ..)
      · exact Nat.le_max_right ..
    · rcases Nat.le_total d.itemSize m with hmax | hmax
      · refine ⟨b, ?_, by omega⟩
        exact mem_append_left _ hb
      · exact ⟨d, by simp, by omega⟩

/-- **The dataset that joining gives.** It has the items of the datasets one after the other; in
words it is made if all of them, and what is attached to them, can be walked there. -/
theorem concatenate_eq {first : Block} {rest : List Block} {axis : Int} {m : Nat}
    (haxis : normalizeAxis axis first.rank = .ok a)
    (hds : ∀ d ∈ first :: rest, d.PartOf first.shape n a)
    (hlargest : ∃ d ∈ first :: rest, d.itemSize = n)
    (hroom : room n (first.shape.set a (totalLength a (first :: rest))) < half)
    (hreserve : reserve first.kind (first.shape.set a (totalLength a (first :: rest))) n = .ok m) :
    ∃ e : Block, e.Fresh first.kind (first.shape.set a (totalLength a (first :: rest))) n ∧
      e.name = first.name ∧
      (∀ q, e.shape.contains q → e.item q = joinedItem first.kind n a (first :: rest) q) ∧
      concatenate (first :: rest) axis = .ok e ∧
      concatenateInWords (first :: rest) axis = (do
        ensure (∀ d ∈ first :: rest, d.metadata.CopiesInWords ∧ AllFit d.geometry.walkNumbers)
        .ok e) := by
  generalize hs : first.shape.set a (totalLength a (first :: rest)) = s at *
  have ha : a < first.rank := Permutation.normalizeAxis_lt haxis
  have hn : 0 < n := by
    obtain ⟨d, hd, rfl⟩ := hlargest
    exact (hds d hd).sound.itemSize_pos
  have has : a < s.length := by
    rw [← hs, length_set]
    exact ha
  have htotal : s.getD a 0 = totalLength a (first :: rest) := by
    rw [← hs]
    exact getD_set_self ha
  have hlength := getD_lt_half_of_room hn hroom has
  have hmodulus : half ≤ modulus := by decide
  -- The item size is the largest one.
  obtain ⟨c, hjoined, hle, b, hb, hc⟩ := joinedShape_eq ha
    (fun d hd => (hds d (mem_cons_of_mem _ hd)).shape_eq) (by omega)
  have hcn : c = n := by
    obtain ⟨d, hd, hdn⟩ := hlargest
    have hupper := hle d hd
    have hsize := (hds b hb).itemSize_eq
    omega
  rw [hs, hcn] at hjoined
  have hparts : ∀ d ∈ first :: rest, d.PartOf s n a := fun d hd =>
    ⟨(hds d hd).sound, (hds d hd).itemSize_eq, by
      rw [← hs, set_set]
      exact (hds d hd).shape_eq⟩
  obtain ⟨z, hz⟩ : ∃ z, zeros first.kind n s = .ok z := by
    have hbind := zeros_bind (k := first.kind) (s := s) hn Except.ok
    rw [hreserve] at hbind
    exact ⟨_, (bind_pure _).symm.trans hbind⟩
  have hfresh := fresh_of_zeros hz
  have hwhole : 0 + totalLength a (first :: rest) = s.getD a 0 := by omega
  obtain ⟨e, hplace, hwords, hfills⟩ := hfresh.placeAlong_eq hroom has hparts hwhole.le
  refine ⟨e.withName first.name, (hfills.fresh hfresh).withName _, rfl, fun q hq => ?_, ?_, ?_⟩
  · have hes : e.shape = s := (hfills.fresh hfresh).shape_eq
    have hq : contains s q := hes ▸ hq
    have hlt := getD_lt_of_contains hq has
    have hitem := hfills.item_of q (hfresh.shape_eq.symm ▸ hq) ⟨Nat.zero_le _, hwhole ▸ hlt⟩
    rwa [Position.modify_of_eq (Nat.sub_zero _)] at hitem
  · simp only [concatenate, haxis, ok_bind, hjoined, hz, hplace]
    rfl
  · simp only [concatenateInWords, haxis, ok_bind, hjoined, hz, hwords, bind_assoc]
    rfl

end Dataset

end Hyperslab
