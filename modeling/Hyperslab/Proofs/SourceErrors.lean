import Hyperslab.Proofs.Attached
import Hyperslab.Proofs.ErrorsFollow
import Hyperslab.Proofs.Growth
import Hyperslab.Proofs.Transpositions

/-!
# Errors of a source of items

Writing a dataset into a region, taking, repeating or rolling items: the result is made of the items
of a source, and errors that are attached to the source have no part in it. They matter in one case.
A source that is reshaped on the way takes its errors along, and when they cannot go along the
operation fails, even though they would have been dropped.
-/
namespace Hyperslab

open List Region Shape Word

/-! ## Slices that run forward -/

namespace Slice

variable {length limit n a b : Nat} {span : Span}

theorem forward_of_between (h : (between a b).resolve length limit = .ok span) :
    span.step = 1 ∧ 0 ≤ span.start := by
  obtain ⟨-, -, rfl⟩ := resolve_eq_ok h
  have hhalf : (0 : Int) ≤ half - 1 := by decide
  exact ⟨rfl, clamp_ge _ (le_min (Int.natCast_nonneg _) hhalf)⟩

theorem count_of_between (hab : a ≤ b) (hbn : b ≤ n) (hn : n < half)
    (h : (between a b).resolve n n = .ok span) : span.count = b - a := by
  cases h.symm.trans (resolve_between hab hbn hn)
  rfl

theorem count_of_between_of_neg (hlength : signed length < 0) (hb : signed b < 0)
    (h : (between a b).resolve length limit = .ok span) : span.count = 0 := by
  obtain ⟨-, -, rfl⟩ := resolve_eq_ok h
  have hhalf : (0 : Int) ≤ half - 1 := by decide
  have hstart := clamp_ge (wrap (signed length) (signed a))
    (le_min (Int.natCast_nonneg limit) hhalf)
  change steps (clamp 0 (min (limit : Int) (half - 1))
    (wrap (signed length) (signed b)) - clamp 0 (min (limit : Int) (half - 1))
      (wrap (signed length) (signed a))) 1 = 0
  have hstop : wrap (signed length) (signed b) < 0 := by
    rw [wrap]
    omega
  rw [clamp, steps, if_neg (by omega)]

/-- The two parts of an axis that is turned have less positions than half of all words: where an
axis is so long that its length is negative as a signed word, both of them are empty. -/
theorem count_of_turned {k : Nat} {head tail : Span} (hn : n < modulus) (hkn : k ≤ n)
    (hk : half ≤ n → n + k < modulus) (hhead : (between (n - k) n).resolve n n = .ok head)
    (htail : (between 0 (n - k)).resolve n n = .ok tail) : head.count + tail.count < half := by
  by_cases hsmall : n < half
  · rw [count_of_between (Nat.sub_le n k) le_rfl hsmall hhead,
      count_of_between (Nat.zero_le _) (Nat.sub_le n k) hsmall htail]
    omega
  · have hmodulus : modulus = 2 * half := by decide
    have hlen := signed_of_le (Nat.not_lt.mp hsmall) hn
    have hnegative : signed n < 0 := by omega
    -- The end of the axis, counted back from the end again, still is a signed word.
    have hfits : -(half : Int) ≤ signed n + signed n := by
      have hstops := (checks_of_resolve hhead).1
      simp only [stops, between, range, hnegative, decide_true, Bool.true_and, Option.toList_some,
        cons_append, nil_append, any_cons, Bool.or_eq_false_iff,
        Bool.not_eq_false', fits, Bool.and_eq_true,
        decide_eq_true_eq] at hstops
      exact hstops.2.2.1.1
    have hpart : signed (n - k) < 0 := by
      rw [signed_of_le (by omega) (by omega)]
      omega
    rw [count_of_between_of_neg hnegative hnegative hhead,
      count_of_between_of_neg hnegative hpart htail]
    decide

end Slice

/-- All of a shape but for one axis, which runs forward: the region and its shape. -/
theorem Region.forward_along {s : Shape} {axis : Nat} {slice : Slice} {r : Region}
    (hslice : ∀ n span, slice.resolve n n = .ok span → span.step = 1 ∧ 0 ≤ span.start)
    (h : along s axis slice = .ok r) : r.Valid ∧ r.Forward ∧ r.source = s ∧ ∃ n span,
      (s : List Nat)[axis]? = some n ∧ slice.resolve n n = .ok span ∧
        r.shape = s.set axis span.count := by
  have hvalid := (valid_full s).setAxis h
  obtain ⟨n, span, hn, hspan, rfl⟩ := along_eq_ok h
  refine ⟨hvalid, ?_, rfl, n, span, hn, hspan, ?_⟩
  · intro other hother
    rcases mem_or_eq_of_mem_set hother with hother | rfl
    · exact forward_full s other hother
    · exact hslice n other hspan
  · rw [shape, map_set, map_map]
    exact congrArg (set · axis span.count) (map_id s)

namespace Dataset

/-! ## Writing a region -/

section setSlice

variable {out data : Block} {r : Region} {x : Block} {map : Regrouping}

/-- What is written depends on the source under the shape of the region, and not on what is
attached to it there. -/
theorem setSlice_congr {data' : Block} (hitem : data'.itemSize = data.itemSize)
    (h : (data'.spread r.shape).map bare = (data.spread r.shape).map bare) :
    out.setSlice r data' = out.setSlice r data := by
  have hincoming : out.incoming r data' = out.incoming r data := by
    simp only [incoming, hitem]
    generalize data'.spread r.shape = y at h
    generalize data.spread r.shape = z at h
    cases y with
    | error e =>
      cases z with
      | error e' =>
        cases h
        rfl
      | ok c => cases h
    | ok b =>
      cases z with
      | error e' => cases h
      | ok c =>
        have hbare : b.bare = c.bare := Except.ok.inj h
        have hread : b.checkRead = c.checkRead := by
          change b.bare.checkRead = c.bare.checkRead
          rw [hbare]
        have hitems : b.itemList = c.itemList := by
          change b.bare.itemList = c.bare.itemList
          rw [hbare]
        simp only [bind, Except.bind, hread, hitems]
  simp only [setSlice, writeSlice, hincoming, hitem]

/-- A source of the shape of the region is written whatever is attached to it. -/
theorem setSlice_bare (h : data.shape = r.shape) :
    out.setSlice r data = out.setSlice r data.bare := by
  refine setSlice_congr rfl ?_
  have h' : data.bare.shape = r.shape := h
  rw [spread, if_pos h, spread, if_pos h']
  rfl

theorem exists_spread_of_setSlice (h : out.setSlice r data = .ok x) :
    ∃ b, data.spread r.shape = .ok b := by
  simp only [setSlice, writeSlice, incoming, bind_eq_ok] at h
  obtain ⟨w, ⟨items, ⟨_, -, hincoming⟩, -⟩, -⟩ := h
  split at hincoming
  · cases hincoming
  · simp only [bind_eq_ok] at hincoming
    obtain ⟨b, hb, -⟩ := hincoming
    exact ⟨b, hb⟩

/-- A source that has to be reshaped is written if what is attached follows, and the write fails
with it if it does not. -/
theorem setSlice_of_reshape (hshape : data.shape ≠ r.shape) (hsize : data.size = r.shape.size)
    (hx : out.setSlice r data.bare = .ok x) : ∃ map, Regrouping.of data.shape r.shape = .ok map ∧
      out.setSlice r data = (data.metadata.onReshape map).map fun _ => x := by
  have hspread : data.spread r.shape = data.reshape r.shape := (if_neg hshape).trans (if_pos hsize)
  have hspread' : data.bare.spread r.shape = data.bare.reshape r.shape :=
    (if_neg hshape).trans (if_pos hsize)
  obtain ⟨b, hb⟩ := exists_spread_of_setSlice hx
  rw [hspread'] at hb
  obtain ⟨-, map, hmap, -⟩ := reshape_bare hb
  refine ⟨map, hmap, ?_⟩
  have hreshape := reshape_of_bare hb hmap
  cases hm : data.metadata.onReshape map with
  | ok m =>
    rw [hm] at hreshape
    have hsame : out.setSlice r data = out.setSlice r data.bare := by
      refine setSlice_congr rfl ?_
      rw [hspread, hspread', hreshape, hb]
      rfl
    exact hsame.trans hx
  | error e =>
    simp only [setSlice, writeSlice, incoming, bind_eq_ok] at hx
    obtain ⟨w, ⟨items, ⟨_, hcheck, hincoming⟩, -⟩, -⟩ := hx
    split at hincoming
    · cases hincoming
    · next hitem =>
      have hitem : ¬ (data.itemSize ≠ out.itemSize ∧ data.itemSize ≠ 1) := hitem
      simp only [setSlice, writeSlice, incoming, hcheck, if_neg hitem, hspread, hreshape, hm, bind,
        Except.bind, Except.map]

end setSlice

/-! ## A source with errors -/

/-- Errors of shape `s` that fit are all that is attached. -/
def WithErrors (d : Block) (s : Shape) : Prop :=
  s.Fits d.shape ∧ ∃ e : Field, d.metadata = .ofErrors e ∧ e.shape = s

theorem withErrors_of_setErrors {d d' : Block} {errors : Field} (hd : d.metadata = .empty)
    (h : d.setErrors errors = .ok d') : d'.bare = d ∧ d'.WithErrors (errors.shape.pad d.rank) ∧
      ∃ n, (errors.shape.pad d.rank).sizeChecked = some n := by
  simp only [setErrors, Metadata.setErrors, bind_eq_ok, pure_eq_ok] at h
  obtain ⟨⟨⟩, hcheck, m, ⟨-, -, e, he, rfl⟩, rfl⟩ := h
  obtain ⟨-, hfits⟩ := checkErrors_eq_ok hcheck
  have hshape := Field.shape_reshape he
  refine ⟨?_, ⟨hfits, e, ?_, hshape⟩, ?_⟩
  · rw [bare, ← hd]
  · rw [hd]
    rfl
  · simp only [Field.reshape, bind_eq_ok] at he
    obtain ⟨map, hmap, -⟩ := he
    obtain ⟨n, -, hn, -⟩ := Regrouping.sizeChecked_of_eq_ok hmap
    exact ⟨n, hn⟩

namespace WithErrors

variable {d b : Block} {s t : Shape} {r : Region} {map : Regrouping}

theorem view (h : d.WithErrors s) : d.view.WithErrors s := by
  obtain ⟨hfits, e, he, hshape⟩ := h
  refine ⟨hfits, e.dense, ?_, hshape⟩
  change d.metadata.copy = _
  rw [he]
  rfl

theorem sliceView (h : d.WithErrors s) (hr : r.Valid) (hforward : r.Forward)
    (hsource : r.source = d.shape) : ∃ b, d.sliceView r = .ok b ∧
      d.bare.sliceView r = .ok b.bare ∧ b.shape = r.shape := by
  obtain ⟨hfits, e, he, rfl⟩ := h
  obtain ⟨g, hg⟩ := Field.exists_followSlice_view (f := e.dense) hr hforward (hsource ▸ hfits)
  have hm : d.metadata.onSlice r true = .ok (.ofErrors g) := by
    rw [he, Metadata.onSlice_errors, hg]
    rfl
  obtain ⟨frame, hframe⟩ := d.toFrame.exists_slice hsource
  obtain ⟨-, hgeometry, -, -⟩ := Frame.slice_eq_ok hframe
  have hframe' : d.bare.toFrame.slice r = .ok frame := hframe
  refine ⟨d.through frame (.ofErrors g), ?_, ?_, congrArg Geometry.shape hgeometry⟩
  · rw [Dataset.sliceView, hframe, hm]
    rfl
  · rw [Dataset.sliceView, hframe']
    rfl

/-- The errors go along to another shape, or it is because of them that they do not. -/
theorem onReshape {n : Nat} (h : d.WithErrors s) (hn : s.sizeChecked = some n)
    (hmap : Regrouping.of d.shape t = .ok map) :
    (map.Takes s → ∃ m, d.metadata.onReshape map = .ok m) ∧
      (¬ map.Takes s → ∃ a fault, d.metadata.onReshape map =
        .error (.unsupportedReshape a t fault)) := by
  obtain ⟨hfits, e, he, rfl⟩ := h
  obtain ⟨-, hsource, htarget, -⟩ := Regrouping.of_eq_ok hmap
  rw [he, Metadata.onReshape_errors]
  constructor
  · intro htakes
    obtain ⟨g, hg⟩ := Field.exists_followReshape (f := e.dense) hmap hfits hn htakes
    exact ⟨_, by rw [hg]; rfl⟩
  · intro htakes
    obtain ⟨a, fault, herror⟩ := Field.followReshape_eq_error (f := e.dense)
      (hsource ▸ hfits.length_eq) htakes
    exact ⟨a, fault, by rw [herror, htarget]; rfl⟩

theorem reshape (h : d.WithErrors s) (hb : d.reshape t = .ok b) : ∃ s', b.WithErrors s' := by
  obtain ⟨hfits, e, he, rfl⟩ := h
  obtain ⟨hbare, map, hmap, hm⟩ := reshape_bare hb
  rw [he, Metadata.onReshape_errors] at hm
  cases hg : e.dense.followReshape map with
  | error err =>
    rw [hg] at hm
    cases hm
  | ok g =>
    rw [hg] at hm
    refine ⟨g.shape, ?_, g, (Except.ok.inj hm).symm, rfl⟩
    rw [shape_reshape hb]
    exact Field.fits_of_followReshape (f := e.dense) hmap hfits hg

/-! ## Gathering -/

theorem gather (h : d.WithErrors s) (indices : List Nat) (axis : Nat) :
    d.gather indices axis = d.bare.gather indices axis := by
  have hstep (t : Shape) (ht : t = d.shape.set axis indices.length) (out : Block) (j i : Nat) :
      (do
        let part ← d.sliceView (← Region.along d.shape axis (Slice.index (Word.signed j)))
        out.setSlice (← Region.along t axis (Slice.index i)) part) =
      (do
        let part ← d.bare.sliceView (← Region.along d.shape axis (Slice.index (Word.signed j)))
        out.setSlice (← Region.along t axis (Slice.index i)) part) := by
    cases hregion : Region.along d.shape axis (Slice.index (Word.signed j)) with
    | error e => rfl
    | ok region =>
      obtain ⟨hvalid, hforward, hsource, n, span, -, hspan, hrshape⟩ :=
        Region.forward_along (fun _ _ => Slice.forward_of_index) hregion
      obtain ⟨part, hpart, hbare, hpartshape⟩ := h.sliceView hvalid hforward hsource
      cases htarget : Region.along t axis (Slice.index i) with
      | error e =>
        simp only [hpart, hbare, bind, Except.bind]
      | ok target =>
        obtain ⟨-, -, -, n', span', -, hspan', htshape⟩ :=
          Region.forward_along (fun _ _ => Slice.forward_of_index) htarget
        have hsame : part.shape = target.shape := by
          rw [hpartshape, hrshape, htshape, ht, Slice.count_of_index hspan,
            Slice.count_of_index hspan', List.set_set]
        simp only [hpart, hbare, bind, Except.bind]
        exact setSlice_bare hsame
  have hshape : d.bare.shape = d.shape := rfl
  simp only [Dataset.gather, hstep _ rfl]
  rfl

end WithErrors

/-- The items of a source repeated along an axis. -/
def repeatedAlong (src : Block) (counts : List Nat) (axis : Int) : Except Error Block := do
  let ax ← Shape.normalizeAxis axis src.rank
  let n := src.shape.getD ax 0
  if counts.length ≠ 1 ∧ counts.length ≠ n then .error (.incompatibleShapes [counts.length] [n])
  else
    let counts := if counts.length = 1 then List.replicate n (counts.headD 0) else counts
    let _ ← Word.listLength (counts.foldr (· + ·) 0)
    src.gather (counts.zipIdx.flatMap fun (count, j) => List.replicate count j) ax

theorem repeated_some (d : Block) (counts : List Nat) (axis : Int) :
    d.repeated counts (some axis) = d.view.repeatedAlong counts axis := rfl

theorem repeated_none (d : Block) (counts : List Nat) :
    d.repeated counts none = d.flatten >>= fun src => src.repeatedAlong counts 0 := rfl

theorem WithErrors.repeatedAlong {src : Block} {s : Shape} (h : src.WithErrors s)
    (counts : List Nat) (axis : Int) :
    src.repeatedAlong counts axis = src.bare.repeatedAlong counts axis := by
  simp only [Dataset.repeatedAlong, h.gather]
  rfl

/-! ## Joining -/

/-- Datasets that fill an axis one after the other are written whatever is attached to them. -/
theorem placeAlong_bare {axis start : Nat} {out : Block} {ds : List Block}
    (hshape : ∀ d ∈ ds, d.shape = out.shape.set axis (d.shape.getD axis 0))
    (hfills : start + (ds.map fun d => d.shape.getD axis 0).sum ≤ out.shape.getD axis 0)
    (hsmall : out.shape.getD axis 0 < Word.half) :
    placeAlong axis start out ds = placeAlong axis start out (ds.map bare) := by
  induction ds generalizing start out with
  | nil => rfl
  | cons d ds ih =>
    rw [List.map_cons, List.sum_cons] at hfills
    rw [List.map_cons]
    have hstop : d.bare.shape.getD axis 0 = d.shape.getD axis 0 := rfl
    simp only [placeAlong, hstop]
    cases hr : Region.along out.shape axis (Slice.between start (start + d.shape.getD axis 0)) with
    | error e => rfl
    | ok r =>
      obtain ⟨-, -, -, n, span, hn, hspan, hrshape⟩ :=
        Region.forward_along (fun _ _ => Slice.forward_of_between) hr
      have hlength : out.shape.getD axis 0 = n := by
        rw [List.getD_eq_getElem?_getD, hn]
        rfl
      have hcount : span.count = d.shape.getD axis 0 := by
        rw [Slice.count_of_between (by omega) (by omega) (by omega) hspan]
        omega
      have hsame : d.shape = r.shape := by
        rw [hrshape, hcount]
        exact hshape d List.mem_cons_self
      have hset : out.setSlice r d = out.setSlice r d.bare := setSlice_bare hsame
      simp only [bind, Except.bind, ← hset]
      cases hout : out.setSlice r d with
      | error e => rfl
      | ok out' =>
        have hout' : out'.shape = out.shape := congrArg Frame.shape (toFrame_setSlice hout)
        refine ih ?_ ?_ ?_
        · rw [hout']
          exact fun d hd => hshape d (List.mem_cons_of_mem _ hd)
        · rw [hout']
          omega
        · rw [hout']
          exact hsmall

theorem concatenate_bare {head tail : Block} {t : Shape} {axis m n : Nat} (haxis : axis < t.length)
    (hhead : head.shape = t.set axis m) (htail : tail.shape = t.set axis n)
    (hsmall : m + n < half) :
    concatenate [head, tail] axis = concatenate [head.bare, tail.bare] axis := by
  have hlength {c : Nat} : (t.set axis c).getD axis 0 = c := by
    simp [haxis]
  have hjoined : joinedShape head.bare axis [tail.bare] = joinedShape head axis [tail] := rfl
  have hrank : head.bare.rank = head.rank := rfl
  have hnormal : normalizeAxis axis head.rank = .ok axis := by
    have hlt : axis < head.rank := by
      rw [Frame.rank, hhead, length_set]
      exact haxis
    have hnot : ¬ ((axis : Int) < 0 ∨ (head.rank : Int) ≤ axis) := by omega
    have hnonneg : ¬ (axis : Int) < 0 := by omega
    simp only [normalizeAxis, if_neg hnonneg, if_neg hnot, Int.toNat_natCast]
  simp only [concatenate, hrank, hnormal, bind, Except.bind, hjoined]
  cases hs : joinedShape head axis [tail] with
  | error e => rfl
  | ok joined =>
    obtain ⟨s, itemSize⟩ := joined
    have hsum : s = t.set axis (m + n) := by
      simp only [joinedShape, foldlM_cons, foldlM_nil, bind_eq_ok, pure_eq_ok] at hs
      obtain ⟨pair, hs, rfl⟩ := hs
      split at hs
      · cases hs
      split at hs
      · cases hs
      rw [Except.ok.injEq, Prod.mk.injEq, hhead, htail] at hs
      rw [← hs.1]
      apply ext_getElem?
      intro i
      by_cases hi : axis = i
      · subst hi
        simp [haxis]
      · simp [hi]
    have hkind : head.bare.kind = head.kind := rfl
    simp only [hkind]
    cases hz : zeros head.kind itemSize s with
    | error e => rfl
    | ok z =>
      have hzshape : z.shape = t.set axis (m + n) := by
        rw [← hsum]
        exact congrArg Frame.shape (zeros_eq_ok hz).1
      have hplace : placeAlong axis 0 z [head, tail] =
          placeAlong axis 0 z [head.bare, tail.bare] := by
        refine placeAlong_bare ?_ ?_ ?_
        · simp only [mem_cons, not_mem_nil, or_false, forall_eq_or_imp, forall_eq, hzshape, set_set]
          rw [hhead, htail, hlength, hlength]
          exact ⟨rfl, rfl⟩
        · simp only [map_cons, map_nil, sum_cons, sum_nil, hzshape, hhead, htail, hlength]
          omega
        · rw [hzshape, hlength]
          exact hsmall
      simp only [hplace]
      rfl

/-! ## Rolling -/

/-- The items of a source moved cyclically along an axis, under the shape and name of `d`. -/
def turned (d src : Block) (shift : Int) (axis : Nat) : Except Error Block := do
  let n := src.shape.getD axis 0
  if n = 0 then return d.copy
  else
    let k := (shift % Word.signed n).toNat
    let head ← src.sliceView (← Region.along src.shape axis (Slice.between (n - k) n))
    let tail ← src.sliceView (← Region.along src.shape axis (Slice.between 0 (n - k)))
    let out ← (← concatenate [head, tail] axis).setShape d.shape
    return out.withName d.name

theorem roll_some (d : Block) (shift axis : Int) : d.roll shift (some axis) =
    (do d.turned d.view shift (← normalizeAxis axis d.rank)) := by
  simp only [roll, turned, pure_bind]

theorem WithErrors.turned {d src : Block} {s : Shape} {axis : Nat} (h : src.WithErrors s)
    (hlengths : ∀ n ∈ src.shape, n < modulus) (shift : Int) :
    (d.turned src shift axis).map bare = (d.bare.turned src.bare shift axis).map bare := by
  have hshape : src.bare.shape = src.shape := rfl
  simp only [Dataset.turned, hshape]
  by_cases hzero : src.shape.getD axis 0 = 0
  · rw [if_pos hzero, if_pos hzero]
    rfl
  rw [if_neg hzero, if_neg hzero]
  generalize hk : (shift % signed (src.shape.getD axis 0)).toNat = k
  generalize hlength : src.shape.getD axis 0 = n at hzero hk ⊢
  cases hfirst : Region.along src.shape axis (Slice.between (n - k) n) with
  | error e => rfl
  | ok first =>
    obtain ⟨hvalid, hforward, hsource, m, front, hm, hfront, hfrontshape⟩ :=
      forward_along (fun _ _ => Slice.forward_of_between) hfirst
    obtain ⟨head, hhead, hheadbare, hheadshape⟩ := h.sliceView hvalid hforward hsource
    cases hsecond : Region.along src.shape axis (Slice.between 0 (n - k)) with
    | error e => simp only [hhead, hheadbare, bind, Except.bind]
    | ok second =>
      obtain ⟨hvalid, hforward, hsource, m', back, hm', hback, hbackshape⟩ :=
        forward_along (fun _ _ => Slice.forward_of_between) hsecond
      obtain ⟨tail, htail, htailbare, htailshape⟩ := h.sliceView hvalid hforward hsource
      obtain ⟨rfl, rfl⟩ : n = m ∧ n = m' := by
        rw [getD_eq_getElem?_getD] at hlength
        rw [hm] at hlength hm'
        exact ⟨hlength.symm, hlength.symm.trans (Option.some.inj hm')⟩
      have hn : n < modulus := hlengths n (mem_of_getElem? hm)
      have hhalf : modulus = 2 * half := by decide
      have hnear : k ≤ n ∧ (half ≤ n → n + k < modulus) := by
        by_cases hsmall : n < half
        · rw [signed_of_lt hsmall] at hk
          have := Int.emod_lt_of_pos shift (b := (n : Int)) (by omega)
          omega
        · rw [signed_of_le (Nat.not_lt.mp hsmall) hn] at hk
          have := Int.emod_lt_of_neg shift (b := (n : Int) - modulus) (by omega)
          omega
      have hsum := Slice.count_of_turned hn hnear.1 hnear.2 hfront hback
      have haxis : axis < src.shape.length := (List.getElem?_eq_some_iff.mp hm).1
      have hjoin := concatenate_bare haxis (hheadshape.trans hfrontshape)
        (htailshape.trans hbackshape) hsum
      simp only [hhead, hheadbare, htail, htailbare, bind, Except.bind, hjoin]
      rfl

/-! ## Uses of a source -/

/-- An operation that makes its result of the items of a source. -/
inductive SourceUse where
  | setSlice (target : Block) (r : Region)
  | take (indices : List Nat) (axis : Option Int)
  | repeated (counts : List Nat) (axis : Option Int)
  | roll (shift : Int) (axis : Option Int)

/-- What an operation comes to with the errors of its source, beside what it comes to without them:
the same values where it goes through, and it does unless the source is reshaped and the errors do
not follow. -/
structure Beside (d : Block) (reshaped : Option Shape) (x y : Except Error Block) : Prop where
  values : ∀ b, x = .ok b → ∃ c, y = .ok c ∧ b.bare = c.bare
  goes : reshaped = none → ∀ c, y = .ok c → ∃ b, x = .ok b
  follows : ∀ t, reshaped = some t → ∀ c, y = .ok c → ∃ map b,
    Regrouping.of d.shape t = .ok map ∧ x = (d.metadata.onReshape map).map fun _ => b

namespace Beside

variable {d : Block} {x y : Except Error Block} {s : Shape}

theorem of_error (reshaped : Option Shape) (e e' : Error) :
    Beside d reshaped (.error e) (.error e') := by
  refine ⟨?_, ?_, ?_⟩
  · rintro b ⟨⟩
  · rintro - c ⟨⟩
  · rintro t - c ⟨⟩

theorem values_of_map_eq (h : x.map bare = y.map bare) :
    ∀ b, x = .ok b → ∃ c, y = .ok c ∧ b.bare = c.bare := by
  rintro b rfl
  cases y with
  | error e => cases h
  | ok c => exact ⟨c, rfl, Except.ok.inj h⟩

theorem of_map_eq (h : x.map bare = y.map bare) : Beside d none x y := by
  refine ⟨values_of_map_eq h, fun _ c hc => ?_, ?_⟩
  · obtain ⟨b, hb, -⟩ := values_of_map_eq h.symm c hc
    exact ⟨b, hb⟩
  · rintro t ⟨⟩

theorem lt_of_flatten {b : Block} (h : d.flatten = .ok b) : ∀ n ∈ b.shape, n < modulus := by
  obtain ⟨-, map, hmap, -⟩ := reshape_bare h
  obtain ⟨m, -, hm, -⟩ := Regrouping.sizeChecked_of_eq_ok hmap
  have hlt : 1 * d.size < modulus := by
    by_contra hlt
    rw [sizeChecked, foldlM_cons, if_neg hlt] at hm
    cases hm
  rw [shape_reshape h]
  simpa using hlt

theorem of_flatten {f g : Block → Except Error Block} (h : d.WithErrors s)
    (hfg : ∀ src t, src.WithErrors t → (∀ n ∈ src.shape, n < modulus) →
      (f src).map bare = (g src.bare).map bare) :
    Beside d (some [d.size]) (d.flatten >>= f) (d.bare.flatten >>= g) := by
  refine ⟨?_, ?_, ?_⟩
  · intro b hb
    simp only [bind_eq_ok] at hb
    obtain ⟨src, hsrc, hb⟩ := hb
    obtain ⟨t, ht⟩ := h.reshape hsrc
    obtain ⟨c, hc, hbare⟩ := values_of_map_eq (hfg src t ht (lt_of_flatten hsrc)) b hb
    have hsrc' : d.bare.flatten = .ok src.bare := (reshape_bare hsrc).1
    exact ⟨c, by rw [hsrc']; exact hc, hbare⟩
  · rintro ⟨⟩
  · rintro _ ⟨⟩ c hc
    rw [bind_eq_ok] at hc
    obtain ⟨src, hsrc, hc⟩ := hc
    obtain ⟨hbare, map, hmap, -⟩ := reshape_bare hsrc
    have hsame : src.bare = src := Except.ok.inj (hbare.symm.trans hsrc)
    have hreshape : d.flatten = _ := reshape_of_bare hsrc hmap
    cases hm : d.metadata.onReshape map with
    | error e =>
      refine ⟨map, c, hmap, ?_⟩
      rw [hreshape, hm]
      rfl
    | ok m =>
      rw [hm] at hreshape
      obtain ⟨t, ht⟩ := h.reshape hreshape
      have hboth := hfg _ t ht (lt_of_flatten hreshape)
      obtain ⟨b, hb, -⟩ := values_of_map_eq hboth.symm c (by rw [← hc, ← hsame]; rfl)
      refine ⟨map, b, hmap, ?_⟩
      rw [hreshape, hm]
      exact hb

theorem of_setSlice {target : Block} {r : Region} : Beside d
    (if d.shape ≠ r.shape ∧ d.size = r.shape.size then some r.shape else none)
    (target.setSlice r d) (target.setSlice r d.bare) := by
  by_cases hreshaped : d.shape ≠ r.shape ∧ d.size = r.shape.size
  · rw [if_pos hreshaped]
    refine ⟨?_, ?_, ?_⟩
    · intro b hb
      have hspread : d.spread r.shape = d.reshape r.shape :=
        (if_neg hreshaped.1).trans (if_pos hreshaped.2)
      have hspread' : d.bare.spread r.shape = d.bare.reshape r.shape :=
        (if_neg hreshaped.1).trans (if_pos hreshaped.2)
      obtain ⟨src, hsrc⟩ := exists_spread_of_setSlice hb
      rw [hspread] at hsrc
      have hsame : target.setSlice r d = target.setSlice r d.bare := by
        refine setSlice_congr rfl ?_
        rw [hspread, hspread', hsrc, (reshape_bare hsrc).1]
        rfl
      exact ⟨b, hsame ▸ hb, rfl⟩
    · rintro ⟨⟩
    · rintro _ ⟨⟩ c hc
      obtain ⟨map, hmap, hset⟩ := setSlice_of_reshape hreshaped.1 hreshaped.2 hc
      exact ⟨map, c, hmap, hset⟩
  · rw [if_neg hreshaped]
    have hsame : target.setSlice r d = target.setSlice r d.bare := by
      by_cases hshape : d.shape = r.shape
      · exact setSlice_bare hshape
      · have hsize : ¬ d.size = r.shape.size := fun hsize => hreshaped ⟨hshape, hsize⟩
        refine setSlice_congr rfl ?_
        have hspread : d.spread r.shape = d.broadcastView r.shape :=
          (if_neg hshape).trans (if_neg hsize)
        have hspread' : d.bare.spread r.shape = d.bare.broadcastView r.shape :=
          (if_neg hshape).trans (if_neg hsize)
        rw [hspread, hspread']
        rfl
    exact of_map_eq (by rw [hsame])

end Beside

namespace SourceUse

variable {d : Block} {s : Shape}

/-- The result for a source. -/
def run (d : Block) : SourceUse → Except Error Block
  | setSlice target r => target.setSlice r d
  | take indices axis => d.take indices axis
  | repeated counts axis => d.repeated counts axis
  | roll shift axis => d.roll shift axis

/-- The shape that the source is reshaped to on the way: that of a region of another shape that has
as many items, or a single axis where none is named. -/
def reshapedTo (d : Block) : SourceUse → Option Shape
  | setSlice _ r => if d.shape ≠ r.shape ∧ d.size = r.shape.size then some r.shape else none
  | take _ axis => if axis.isNone then some [d.size] else none
  | repeated _ axis => if axis.isNone then some [d.size] else none
  | roll _ axis => if axis.isNone then some [d.size] else none

/-- Every operation, with the errors of its source and without them. -/
theorem beside (h : d.WithErrors s) (hlengths : ∀ n ∈ d.shape, n < Word.modulus)
    (use : SourceUse) : Beside d (use.reshapedTo d) (use.run d) (use.run d.bare) := by
  cases use with
  | setSlice target r => exact .of_setSlice
  | take indices axis =>
    by_cases hempty : indices.isEmpty
    · have hrefused (d : Block) : d.take indices axis = .error (.invalidSlice .noIndices) :=
        if_pos hempty
      simp only [run, hrefused]
      exact .of_error ..
    · cases axis with
      | some axis =>
        refine .of_map_eq (congrArg (Except.map bare) ?_)
        simp only [run, Dataset.take, h.gather]
        rfl
      | none =>
        have htake (d : Block) : d.take indices none =
            d.flatten >>= fun src => src.gather indices 0 := if_neg hempty
        simp only [run, htake]
        exact .of_flatten h fun src t ht _ => by rw [ht.gather]
  | repeated counts axis =>
    cases axis with
    | some axis =>
      refine .of_map_eq (congrArg (Except.map bare) ?_)
      simp only [run, repeated_some, h.view.repeatedAlong]
      rfl
    | none =>
      simp only [run, repeated_none]
      exact .of_flatten h fun src t ht _ => by rw [ht.repeatedAlong]
  | roll shift axis =>
    cases axis with
    | some axis =>
      refine .of_map_eq ?_
      have hrank : d.bare.rank = d.rank := rfl
      simp only [run, roll_some, hrank]
      cases hax : normalizeAxis axis d.rank with
      | error e => rfl
      | ok a =>
        exact h.view.turned hlengths shift
    | none =>
      exact .of_flatten h fun src t ht hsrc => ht.turned hsrc shift

/-- Errors that go along to another shape get strides that are words: there are no more of them than
before, or the dataset is empty and the shape takes up few words. -/
theorem stridesFit_of_reshapeShape {host t : Shape} {map : Regrouping} {errors : Field}
    (hfits : (errors.shape.pad host.length).Fits host) (herrors : errors.Sound)
    (hmap : Regrouping.of host t = .ok map)
    (hs : map.reshapeShape (errors.shape.pad host.length) = .ok s)
    (hempty : host.size = 0 → t.room errors.itemSize < Word.half) :
    s.stridesFit errors.itemSize := by
  have hcarried := Regrouping.carried_reshapeShape hmap hfits hs
  refine stridesFit_of_room herrors.inside.itemSize_pos ?_
  rcases Nat.eq_zero_or_pos s.size with hzero | hpos
  · have hhost : host.size = 0 := hcarried.size_eq ▸ hcarried.out_fits.size_eq_zero hzero
    exact (hcarried.out_fits.room_le _).trans_lt (hempty hhost)
  · have hsize : s.size = errors.shape.size := by rw [← hcarried.field_eq, size_pad]
    rw [room_of_pos hpos, hsize]
    exact herrors.inside.size_lt

/-- **Errors of a source matter only where they cannot follow a reshape.** Writing a dataset into a
region, or taking, repeating or rolling its items, goes through with errors if and only if it does
without, and with the same elements, unless it reshapes the dataset and the errors do not go along.
A dataset without items is asked not to become one whose empty axes count for many words, so that
the strides of errors that go along are words. -/
theorem values_apart_from_errors {d' : Block} {errors : Field} (hd : d.metadata = .empty)
    (hlengths : ∀ n ∈ d.shape, n < Word.modulus) (herrors : errors.Sound)
    (he : d.setErrors errors = .ok d') (use : SourceUse)
    (hempty : d.size = 0 → ∀ t, use.reshapedTo d = some t → t.room errors.itemSize < Word.half) :
    let blocked := ∃ t, use.reshapedTo d = some t ∧ ∀ map, Regrouping.of d.shape t = .ok map →
      ¬ map.Takes (errors.shape.pad d.rank)
    ((∃ b, use.run d' = .ok b) ↔ (∃ c, use.run d = .ok c) ∧ ¬ blocked) ∧
      (∀ b c, use.run d' = .ok b → use.run d = .ok c → b.bare = c.bare) ∧
      ((∃ c, use.run d = .ok c) → blocked → ∃ s t fault, use.reshapedTo d = some t ∧
        use.run d' = .error (.unsupportedReshape s t fault)) ∧
      ∀ t map s, use.reshapedTo d = some t → Regrouping.of d.shape t = .ok map →
        map.reshapeShape (errors.shape.pad d.rank) = .ok s → s.stridesFit errors.itemSize := by
  intro blocked
  obtain ⟨rfl, hwith, n, hn⟩ := withErrors_of_setErrors hd he
  have hbeside := beside hwith hlengths use
  have hblocks {t : Shape} {map : Regrouping} (hmap : Regrouping.of d'.shape t = .ok map) :=
    hwith.onReshape hn hmap
  refine ⟨⟨?_, ?_⟩, ?_, ?_, ?_⟩
  · rintro ⟨b, hb⟩
    obtain ⟨c, hc, -⟩ := hbeside.values b hb
    refine ⟨⟨c, hc⟩, ?_⟩
    rintro ⟨t, ht, hblocked⟩
    obtain ⟨map, b', hmap, hx⟩ := hbeside.follows t ht c hc
    obtain ⟨s, fault, herror⟩ := (hblocks hmap).2 (hblocked map hmap)
    rw [hb, herror] at hx
    cases hx
  · rintro ⟨⟨c, hc⟩, hfree⟩
    cases ht : use.reshapedTo d' with
    | none => exact hbeside.goes ht c hc
    | some t =>
      obtain ⟨map, b, hmap, hx⟩ := hbeside.follows t ht c hc
      have htakes : map.Takes (errors.shape.pad d'.bare.rank) := by
        by_contra hnot
        refine hfree ⟨t, ht, fun map' hmap' => ?_⟩
        rwa [← Except.ok.inj (hmap.symm.trans hmap')]
      obtain ⟨m, hm⟩ := (hblocks hmap).1 htakes
      refine ⟨b, ?_⟩
      rw [hx, hm]
      rfl
  · intro b c hb hc
    obtain ⟨c', hc', hbare⟩ := hbeside.values b hb
    rwa [← Except.ok.inj (hc.symm.trans hc')] at hbare
  · rintro ⟨c, hc⟩ ⟨t, ht, hblocked⟩
    obtain ⟨map, b, hmap, hx⟩ := hbeside.follows t ht c hc
    obtain ⟨s, fault, herror⟩ := (hblocks hmap).2 (hblocked map hmap)
    refine ⟨s, t, fault, ht, ?_⟩
    rw [hx, herror]
    rfl
  · intro t map s ht hmap hs
    exact stridesFit_of_reshapeShape hwith.1 herrors hmap hs fun hzero => hempty hzero t ht

/-- Two rows of three numbers. -/
def table : Block := ofList (.int true .w32) [2, 3] 1 ([1, 2, 3, 4, 5, 6].map Scalar.int)

def columnErrors : Field := .ofList (.int true .w32) "" [3] 1 ([7, 8, 9].map Scalar.int)

/-- The columns of the table, the last one first, with their errors or without. -/
theorem values_apart_from_errors_columns : ∃ d' b c, table.setErrors columnErrors = .ok d' ∧
    run table (.roll 1 (some 1)) = .ok c ∧ run d' (.roll 1 (some 1)) = .ok b ∧
    b.bare = c.bare ∧ c.toList = [3, 1, 2, 6, 4, 5].map Scalar.int := by
  obtain ⟨d', he⟩ : ∃ d', table.setErrors columnErrors = .ok d' := ⟨_, rfl⟩
  obtain ⟨c, hc, hlist⟩ : ∃ c, run table (.roll 1 (some 1)) = .ok c ∧
      c.toList = [3, 1, 2, 6, 4, 5].map Scalar.int := ⟨_, rfl, rfl⟩
  have hlengths : ∀ n ∈ [2, 3], n < Word.modulus := by decide
  have herrors : columnErrors.Sound := Frame.sound_packed (by decide) (by decide)
  obtain ⟨hgoes, hvalues, -⟩ :=
    values_apart_from_errors rfl hlengths herrors he (.roll 1 (some 1)) fun hzero => nomatch hzero
  obtain ⟨b, hb⟩ := hgoes.mpr ⟨⟨c, hc⟩, by rintro ⟨t, ⟨⟩, -⟩⟩
  exact ⟨d', b, c, he, hc, hb, hvalues b c hb hc, hlist⟩

def zeroes : Block := ofList (.int true .w32) [6] 1 (List.replicate 6 (.int 0))

/-- The table can be written into a list of six numbers, and its fifth item taken; with an error for
each column neither can be done. -/
theorem errors_block_flat_table : ∃ d', table.setErrors columnErrors = .ok d' ∧
    (∃ c, run table (.setSlice zeroes (Region.full [6])) = .ok c) ∧
    (∃ c, run table (.take [4] none) = .ok c) ∧
    run d' (.setSlice zeroes (Region.full [6])) =
      .error (.unsupportedReshape [1, 3] [6] .broadcastAxes) ∧
    run d' (.take [4] none) = .error (.unsupportedReshape [1, 3] [6] .broadcastAxes) := by
  with_unfolding_all exact ⟨_, rfl, ⟨_, rfl⟩, ⟨_, rfl⟩, rfl, rfl⟩

end SourceUse

end Dataset

end Hyperslab
