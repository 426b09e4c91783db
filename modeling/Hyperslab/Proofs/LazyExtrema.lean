import Hyperslab.Proofs.Growth
import Hyperslab.Proofs.LazyReads
import Hyperslab.Proofs.NumberOrder
import Hyperslab.Proofs.SubregionWalks

/-!
# Extremes of sub-regions

The largest and the smallest numbers along some axes are found sub-region by sub-region: each is
read on its own, and what is found in it is put where it belongs in a dataset of zeros. As the
sub-regions of a dataset with items are a partition of it, one for each position of the other axes,
no zero is left. What is found is an element of the sub-region that no other number of it beats, or
not-a-number if the sub-region has no number.

A dataset without items has no sub-region to read, even if there are positions on the other axes.
The zeros that the result was made of then stay.
-/
namespace Hyperslab

open Dataset List Region Shape Word

/-! ## Extremes of doubles -/

namespace Number

/-- Doubles that are numbers are in the order of their ranks. -/
theorem lt_iff_rank_lt {x y : Float} (hx : x.isNaN = false) (hy : y.isNaN = false) :
    x < y ↔ rank x < rank y :=
  decide_eq_true_iff.trans ((encodes_toBits x).lt_iff (encodes_toBits y) hx hy)

/-- Of two numbers, `better` keeps the first one unless it is worse. What is worse has a lower place
`f`. -/
structure Prefers (better : Float → Float → Float) (worse : Float → Float → Prop)
    (f : Float → Int) : Prop where
  worse_iff : ∀ {x y}, x.isNaN = false → y.isNaN = false → (worse x y ↔ f x < f y)
  better_eq : ∀ {x y}, x.isNaN = false → y.isNaN = false → better x y = if f x < f y then y else x

theorem prefers_maximum : Prefers maximum (· < ·) rank where
  worse_iff := lt_iff_rank_lt
  better_eq hx hy := by
    simp only [maximum, hx, hy, Bool.false_eq_true, if_false, lt_iff_rank_lt hx hy]

theorem prefers_minimum : Prefers minimum (fun x y => y < x) fun x => -rank x where
  worse_iff hx hy := by rw [lt_iff_rank_lt hy hx, neg_lt_neg_iff]
  better_eq hx hy := by
    simp only [minimum, hx, hy, Bool.false_eq_true, if_false, lt_iff_rank_lt hy hx, neg_lt_neg_iff]

/-- Of a set of doubles, `x` is a number that none is better than, or not-a-number if the set has no
number. -/
structure Extreme (worse : Float → Float → Prop) (S : Float → Prop) (x : Float) : Prop where
  nan : (∀ y, S y → y.isNaN = true) → x = Number.nan
  best : ∀ y, S y → y.isNaN = false → S x ∧ x.isNaN = false ∧ ¬ worse x y

namespace Prefers

variable {better : Float → Float → Float} {worse : Float → Float → Prop} {f : Float → Int}

/-- What is kept of some numbers is one of them, and none has a higher place. -/
theorem foldl_better (h : Prefers better worse f) {x : Float} {l : List Float}
    (hl : ∀ y ∈ x :: l, y.isNaN = false) :
    l.foldl better x ∈ x :: l ∧ ∀ y ∈ x :: l, f y ≤ f (l.foldl better x) := by
  induction l generalizing x with
  | nil => simp
  | cons z l ih =>
    simp only [forall_mem_cons] at hl
    obtain ⟨hx, hz, hl⟩ := hl
    have hbetter := h.better_eq hx hz
    rw [foldl_cons]
    by_cases hxz : f x < f z
    · rw [if_pos hxz] at hbetter
      obtain ⟨hmem, hle⟩ := ih (forall_mem_cons.mpr ⟨hz, hl⟩)
      rw [hbetter]
      refine ⟨mem_cons_of_mem _ hmem, forall_mem_cons.mpr ⟨?_, hle⟩⟩
      exact hxz.le.trans (hle z mem_cons_self)
    · rw [if_neg hxz] at hbetter
      obtain ⟨hmem, hle⟩ := ih (forall_mem_cons.mpr ⟨hx, hl⟩)
      simp only [forall_mem_cons] at hle ⊢
      rw [hbetter]
      refine ⟨?_, hle.1, (not_lt.mp hxz).trans hle.1, hle.2⟩
      rcases mem_cons.mp hmem with hmem | hmem
      · exact mem_cons.mpr (.inl hmem)
      · exact mem_cons_of_mem _ (mem_cons_of_mem _ hmem)

/-- **What is kept of the numbers of a list is an extreme of the list.** -/
theorem extreme_reduce (h : Prefers better worse f) (l : List Float) :
    Extreme worse (· ∈ l) ((reduce better (l.filter fun x => !x.isNaN)).getD nan) := by
  have hmem {y : Float} : y ∈ (l.filter fun x => !x.isNaN) ↔ y ∈ l ∧ y.isNaN = false := by simp
  constructor
  · intro hall
    have hnone : (l.filter fun x => !x.isNaN) = [] := by simpa using hall
    rw [hnone]
    rfl
  · intro y hy hnumber
    have hy' := hmem.mpr ⟨hy, hnumber⟩
    cases hnumbers : l.filter fun x => !x.isNaN with
    | nil =>
      rw [hnumbers] at hy'
      cases hy'
    | cons x rest =>
      have hall : ∀ y ∈ x :: rest, y.isNaN = false := by
        rw [← hnumbers]
        exact fun y hy => (hmem.mp hy).2
      obtain ⟨hkept, hle⟩ := h.foldl_better hall
      rw [hnumbers] at hy'
      have hplace := hle y hy'
      rw [← hnumbers] at hkept
      obtain ⟨hkept, hkeptNumber⟩ := hmem.mp hkept
      refine ⟨hkept, hkeptNumber, fun hworse => ?_⟩
      exact absurd ((h.worse_iff hkeptNumber hnumber).mp hworse) (not_lt.mpr hplace)

end Prefers

end Number

/-! ## What a part selects of a shape -/

namespace Region

open PositionWalk (free lengths spanned)

variable {s : Shape} {held : List Bool} {p x : Position}

theorem Valid.selects_iff {r : Region} (hr : r.Valid) (hsmall : ∀ d ∈ r.source, d ≤ modulus) :
    r.Selects x ↔ ∃ q, r.shape.contains q ∧ r.sourcePosition q = x := by
  refine exists_congr fun q => and_congr_right fun hq => ?_
  rw [← hr.cast_sourcePosition hsmall hq]
  exact (map_injective_iff.mpr fun _ _ => Int.ofNat.inj).eq_iff

theorem coords_full (hp : s.contains p) : (full s).coords p = p.map Int.ofNat := by
  simp only [coords, full]
  induction s generalizing p with
  | nil =>
    rw [contains_nil.mp hp]
    rfl
  | cons d s ih =>
    obtain ⟨i, q, rfl, -, hq⟩ := exists_of_contains_cons hp
    simp only [map_cons, zipWith_cons_cons, ih hq]
    simp [Span.coord, Span.full]

/-- The parts of a shape select the positions with the same coordinates on the other axes. -/
theorem selects_part_full_iff (hlength : held.length = s.length)
    (hp : (lengths held s).contains p) :
    ((full s).part held p).Selects x ↔ s.contains x ∧ free held x = free held p := by
  rw [selects_part_iff (by rwa [shape_full]) (by rwa [shape_full]), shape_full]
  constructor
  · rintro ⟨y, hy, hfree, hcoords⟩
    rw [coords_full hy] at hcoords
    obtain rfl := map_injective_iff.mpr (fun _ _ => Int.ofNat.inj) hcoords
    exact ⟨hy, hfree⟩
  · rintro ⟨hx, hfree⟩
    exact ⟨x, hx, hfree, coords_full hx⟩

theorem part_full (hlength : held.length = s.length) (hp : (lengths held s).contains p) :
    ((full s).part held p).Valid ∧ ((full s).part held p).shape = spanned held s := by
  rw [← shape_full s] at hlength hp
  have hshape := (valid_full s).shape_part hlength hp
  rw [shape_full] at hshape
  exact ⟨((valid_full s).partOf hlength hp).valid, hshape⟩

end Region

/-! ## Elements of parts -/

namespace Dataset

open PositionWalk (free lengths spanned)
open SubregionWalk (holding visited)

variable {d part e : Block} {held : List Bool} {p q : Position} {x : Float}

theorem mem_floats : x ∈ d.floats ↔ ∃ p, d.shape.contains p ∧ ∃ v ∈ d.item p, v.toFloat = x := by
  have helements : d.toList = (d.shape.positions.map d.item).flatten := Frame.elements_eq ..
  simp only [floats, helements, mem_map, mem_flatten, exists_exists_and_eq_and, mem_positions]
  constructor
  · rintro ⟨v, ⟨p, hp, hv⟩, hx⟩
    exact ⟨p, hp, v, hv, hx⟩
  · rintro ⟨p, hp, v, hv, hx⟩
    exact ⟨v, ⟨p, hp, hv⟩, hx⟩

/-- The double is an element of the sub-region at a position of the axes that are not held. -/
def HasAt (d : Block) (held : List Bool) (q : Position) (x : Float) : Prop :=
  ∃ p, d.shape.contains p = true ∧ free held p = q ∧ ∃ v ∈ d.item p, v.toFloat = x

/-- A part that is read has the elements of the sub-region at its position. -/
theorem Sound.mem_floats_part (hd : d.Sound) (hpos : 0 < d.size) (hlength : held.length = d.rank)
    (hp : (lengths held d.shape).contains p)
    (hshape : part.shape = ((Region.full d.shape).part held p).shape)
    (hitem : ∀ q, part.shape.contains q →
      part.item q = d.item (((Region.full d.shape).part held p).sourcePosition q)) :
    x ∈ part.floats ↔ d.HasAt held (free held p) x := by
  have hvalid := (part_full hlength hp).1
  have hsmall : ∀ n ∈ d.shape, n ≤ Word.modulus := fun n hn => hd.inside.small hpos hn
  have hselects (y : Position) : (∃ q, part.shape.contains q ∧
      ((Region.full d.shape).part held p).sourcePosition q = y) ↔
        d.shape.contains y ∧ free held y = free held p := by
    rw [hshape, ← hvalid.selects_iff hsmall, selects_part_full_iff hlength hp]
  rw [mem_floats]
  constructor
  · rintro ⟨q, hq, v, hv, hx⟩
    obtain ⟨hy, hfree⟩ := (hselects _).mp ⟨q, hq, rfl⟩
    exact ⟨_, hy, hfree, v, hitem q hq ▸ hv, hx⟩
  · rintro ⟨y, hy, hfree, v, hv, hx⟩
    obtain ⟨q, hq, rfl⟩ := (hselects y).mpr ⟨hy, hfree⟩
    exact ⟨q, hq, v, (hitem q hq).symm ▸ hv, hx⟩

/-! ## Values that are put in place -/

/-- **Values that are put at different positions are there, and all other items stay.** -/
theorem Sound.foldlM_set {α : Type} {xs : List α} {place : α → Position} {value : α → Scalar}
    {step : Block → α → Except Error Block}
    (hstep : ∀ out, ∀ x ∈ xs, step out x = out.set (place x) (value x)) (hd : d.Sound)
    (hsep : d.geometry.Separate) (hsize : d.itemSize = 1) (hmeta : d.metadata = .empty)
    (hplace : ∀ x ∈ xs, d.shape.contains (place x)) (hnodup : (xs.map place).Nodup) :
    ∃ e, xs.foldlM step d = .ok e ∧ e.toFrame = d.toFrame ∧ e.Sound ∧ e.metadata = .empty ∧
      (∀ x ∈ xs, e.item (place x) = [value x]) ∧
      ∀ q, d.shape.contains q → q ∉ xs.map place → e.item q = d.item q := by
  induction xs generalizing d with
  | nil => exact ⟨d, rfl, rfl, hd, hmeta, by simp, fun _ _ _ => rfl⟩
  | cons x xs ih =>
    simp only [forall_mem_cons] at hplace
    rw [map_cons, nodup_cons] at hnodup
    have hset := hd.set_eq_ok hplace.1 (value x)
    set next := d.modifyElements (·.putFrom (d.geometry.indexOf (place x)) [value x]) with hnext
    have hsound : next.Sound := by
      change d.toFrame.Sound (d.buffer.elements.putFrom _ _).size
      rw [Elements.size_putFrom]
      exact hd
    have hmeta' : next.metadata = .empty := by
      change d.metadata.onDirty = .empty
      rw [hmeta, Metadata.onDirty_empty]
    have hitem (q : Position) (hq : d.shape.contains q) :
        next.item q = if place x = q then [value x] else d.item q :=
      Frame.item_putFrom hd hsep hplace.1 hq (by simp [hsize])
    obtain ⟨e, he, hframe, hesound, hemeta, hvalues, hothers⟩ :=
      ih (fun out y hy => hstep out y (mem_cons_of_mem _ hy)) hsound hsep hsize
        hmeta' hplace.2 hnodup.2
    -- The later values are put elsewhere, so the first one is still there at the end.
    refine ⟨e, ?_, hframe, hesound, hemeta, ?_, fun q hq hnot => ?_⟩
    · rw [foldlM_cons, hstep d x mem_cons_self, hset, ok_bind, he]
    · refine forall_mem_cons.mpr ⟨?_, hvalues⟩
      rw [hothers _ hplace.1 hnodup.1, hitem _ hplace.1, if_pos rfl]
    · rw [map_cons, mem_cons, not_or] at hnot
      rw [hothers q hq hnot.2, hitem q hq, if_neg (Ne.symm hnot.1)]

theorem item_zeros {k : Kind} {n : Nat} {s : Shape} (h : zeros k n s = .ok e) (q : Position) :
    e.item q = replicate n k.zero := by
  simp only [zeros, fullOf, bind_eq_ok, pure_eq_ok] at h
  obtain ⟨-, -, m, -, rfl⟩ := h
  refine eq_replicate_iff.mpr ⟨length_item .., fun v hv => ?_⟩
  obtain ⟨j, -, rfl⟩ := mem_map.mp hv
  change (Array.replicate m k.zero).getD _ k.zero = k.zero
  rw [Array.getD_eq_getD_getElem?, Array.getElem?_replicate]
  split <;> rfl

/-! ## Extremes of all sub-regions -/

/-- The extremes of the sub-regions of a dataset: doubles over the axes that are not held. -/
structure ExtremesOf (e d : Block) (held : List Bool) (worse : Float → Float → Prop) : Prop where
  sound : e.Sound
  metadata_eq : e.metadata = .empty
  kind_eq : e.kind = .double
  shape_eq : e.shape = free held d.shape
  itemSize_eq : e.itemSize = 1
  item_eq : ∀ q, Shape.contains (free held d.shape) q = true →
    ∃ x, e.item q = [.double x] ∧ Number.Extreme worse (d.HasAt held q) x

/-- There is room for the extremes, and for the sub-regions one at a time. -/
structure RoomFor (d : Block) (held : List Bool) : Prop where
  result : ∃ n, reserve .double (free held d.shape) 1 = .ok n
  part : ∃ n, reserve d.kind (spanned held d.shape) d.itemSize = .ok n

/-- The parts of a dataset with items are not empty, and there is room for them. -/
theorem RoomFor.parts (hroom : d.RoomFor held) (hpos : 0 < d.size) (hlength : held.length = d.rank)
    (hp : (lengths held d.shape).contains p) :
    ((Region.full d.shape).part held p).Valid ∧ 0 < ((Region.full d.shape).part held p).size ∧
      ∃ n, reserve d.kind ((Region.full d.shape).part held p).shape d.itemSize = .ok n := by
  obtain ⟨hvalid, hshape⟩ := part_full hlength hp
  rw [Region.size, hshape]
  exact ⟨hvalid, PositionWalk.size_spanned_pos held hpos, hroom.part⟩

/-- What `pick` finds in a dataset is an extreme of its elements. -/
def Finds (pick : Block → Option Float) (worse : Float → Float → Prop) : Prop :=
  ∀ b : Block, Number.Extreme worse (· ∈ b.floats) ((pick b).getD Number.nan)

theorem finds_max : Finds max? (· < ·) := fun b => Number.prefers_maximum.extreme_reduce b.floats

theorem finds_min : Finds min? fun x y => y < x :=
  fun b => Number.prefers_minimum.extreme_reduce b.floats

theorem exists_zeros {s : Shape} {n m : Nat} (hn : 0 < n) (h : reserve .double s n = .ok m) :
    ∃ z, zeros .double n s = .ok z := by
  simp only [zeros, fullOf, h, bind_eq_ok, checkItemSize_eq_ok]
  exact ⟨_, (), hn, m, rfl, rfl⟩

/-- A part that there is room for is read, and what is found in it is an extreme of the sub-region.
-/
theorem Sound.exists_found {pick : Block → Option Float} {worse : Float → Float → Prop}
    (hd : d.Sound) (hmeta : d.metadata = .empty) (hpos : 0 < d.size)
    (hlength : held.length = d.rank) (hroom : d.RoomFor held) (hpick : Finds pick worse)
    (hp : (lengths held d.shape).contains p) :
    ∃ x, (∃ part, d.slice ((Region.full d.shape).part held p) = .ok part ∧
      (pick part).getD Number.nan = x) ∧ Number.Extreme worse (d.HasAt held (free held p)) x := by
  obtain ⟨hvalid, -, hpartRoom⟩ := hroom.parts hpos hlength hp
  obtain ⟨part, hpart, -, -, hpartShape, -, hitem⟩ := hd.exists_slice hvalid rfl hmeta hpartRoom
  refine ⟨_, ⟨part, hpart, rfl⟩, ?_⟩
  have hsame : (fun x => x ∈ part.floats) = d.HasAt held (free held p) := by
    funext x
    exact propext (hd.mem_floats_part hpos hlength hp hpartShape (hpartShape ▸ hitem))
  exact hsame ▸ hpick part

/-- The sub-regions of a dataset with items are the parts of its shape. -/
theorem Sound.toList_holding (hd : d.Sound) (hpos : 0 < d.size) (hlength : held.length = d.rank) :
    (holding (Region.full d.shape) held).toList = (visited (Region.full d.shape) held).map fun o =>
        ((Region.full d.shape).part held o.pos, (holding (Region.full d.shape) held).moved o) := by
  refine SubregionWalk.toList_holding (by rwa [shape_full]) (valid_full d.shape) (.inr ?_)
  rw [shape_full]
  intro n hn
  exact ((le_size_of_mem hpos hn).trans
    (Nat.le_mul_of_pos_right _ hd.itemSize_pos)).trans_lt hd.inside.size_lt

/-- **The extremes of all sub-regions, put where they belong, leave no zero.** -/
theorem Sound.exists_extremes {pick : Block → Option Float} {worse : Float → Float → Prop}
    {z : Block} (hd : d.Sound) (hmeta : d.metadata = .empty) (hpos : 0 < d.size)
    (hlength : held.length = d.rank) (hroom : d.RoomFor held) (hpick : Finds pick worse)
    (hz : zeros .double 1 (free held d.shape) = .ok z) :
    ∃ e, (holding (Region.full d.shape) held).toList.foldlM (fun out x => do
        out.set x.2.usedPos (.double ((pick (← d.slice x.1)).getD Number.nan))) z = .ok e ∧
      e.ExtremesOf d held worse := by
  rw [hd.toList_holding hpos hlength, List.foldlM_map]
  have hsize : 0 < (Region.full d.shape).size := by rwa [Region.size, shape_full]
  -- The places of the values are all positions of the result, each of them once.
  have hrank : held.length = (Region.full d.shape).shape.length := by rwa [shape_full]
  have hplaces := SubregionWalk.map_free_toList hrank hsize
  rw [shape_full] at hplaces
  generalize hos : visited (Region.full d.shape) held = os at hplaces ⊢
  have hcontains : ∀ o ∈ os, (lengths held d.shape).contains o.pos := by
    subst hos
    intro o ho
    have hp := (SubregionWalk.contains_of_mem_toList ho).2
    rwa [shape_full] at hp
  choose! x hx hextreme using fun o ho =>
    hd.exists_found hmeta hpos hlength hroom hpick (hcontains o ho)
  obtain ⟨hframe, hsound, hzmeta, hsep, -⟩ := zeros_eq_ok hz
  have hzshape : z.shape = free held d.shape := congrArg Frame.shape hframe
  have hstep : ∀ (out : Block), ∀ o ∈ os, (do
      out.set (free held o.pos) (.double
        ((pick (← d.slice ((Region.full d.shape).part held o.pos))).getD Number.nan))) =
      out.set (free held o.pos) (.double (x o)) := by
    intro out o ho
    obtain ⟨part, hpart, hfound⟩ := hx o ho
    rw [hpart, ok_bind, hfound]
  obtain ⟨e, he, heframe, hesound, hemeta, hvalues, -⟩ := Sound.foldlM_set hstep hsound hsep
    (congrArg Frame.itemSize hframe) hzmeta
    (by
      intro o ho
      rw [hzshape, ← mem_positions, ← hplaces]
      exact List.mem_map_of_mem ho)
    (by
      rw [hplaces]
      exact nodup_positions _)
  have hframe := heframe.trans hframe
  refine ⟨e, he, hesound, hemeta, congrArg Frame.kind hframe, congrArg Frame.shape hframe,
    congrArg Frame.itemSize hframe, fun q hq => ?_⟩
  rw [← mem_positions, ← hplaces] at hq
  obtain ⟨o, ho, rfl⟩ := List.mem_map.mp hq
  exact ⟨x o, hvalues o ho, hextreme o ho⟩

end Dataset

namespace Source

variable {σ : Type} {src : Source σ} {state : σ} {pick : Block → Option Float} {n : Nat}
  {w : SubregionWalk} {out : Block}

/-- **Every sub-region that is visited is read, and what is found in it is put in its place.** -/
theorem extremumFrom_run (reads : Region → Except Error Block)
    (h : ∀ x ∈ w.visits n, (src.read x.1).run state = (reads x.1, state)) :
    (src.extremumFrom pick n w out).run state = ((w.visits n).foldlM (fun out x => do
      out.set x.2.usedPos (.double ((pick (← reads x.1)).getD Number.nan))) out, state) := by
  induction n generalizing w out with
  | zero => rfl
  | succ n ih =>
    rw [SubregionWalk.visits] at h ⊢
    rw [extremumFrom]
    cases hnext : w.next? with
    | none => rfl
    | some x =>
      simp only [hnext, forall_mem_cons] at h
      simp only [run_bind, h.1, foldlM_cons]
      cases reads x.1 with
      | error e => rfl
      | ok part =>
        rw [andThen_ok, run_bind, ok_bind]
        cases out.set x.2.usedPos (.double ((pick part).getD Number.nan)) with
        | error e => rfl
        | ok next => exact ih h.2

/-- Where no step of a loop is refused, the loop that checks first is stopped just if a check fails.
-/
theorem foldlM_ensure {α β : Type} {P : α → Prop} [DecidablePred P]
    {step : β → α → Except Error β} {xs : List α} {b c : β} (h : xs.foldlM step b = .ok c) :
    xs.foldlM (fun b x => do ensure (P x); step b x) b = do
      ensure (∀ x ∈ xs, P x)
      return c := by
  induction xs generalizing b with
  | nil =>
    exact h
  | cons x xs ih =>
    rw [foldlM_cons, bind_eq_ok] at h
    obtain ⟨next, hnext, h⟩ := h
    rw [foldlM_cons, ensure_congr forall_mem_cons]
    by_cases hx : P x
    · rw [ensure_of hx, ok_bind, hnext, ok_bind, ih h, ensure_congr (and_iff_right hx)]
    · rw [ensure_of_not hx, ensure_of_not fun h => hx h.1]
      rfl

variable {d : Block} {R : Region → Prop} [DecidablePred R] {worse : Float → Float → Prop}

/-- What is found in the sub-regions along any axes: their extremes, if there are items and room,
and if every sub-region can be read. Without items, zeros are found. -/
structure FindsAlong (find : List Int → Task σ Block) (d : Block) (state : σ)
    (R : Region → Prop) (worse : Float → Float → Prop) : Prop where
  found : ∀ axes held, axes ≠ [] → SubregionWalk.Spans axes d.rank held → 0 < d.size →
    d.RoomFor held → (∀ p, (PositionWalk.lengths held d.shape).contains p = true →
      R ((Region.full d.shape).part held p)) →
    ∃ e, (find axes).run state = (.ok e, state) ∧ e.ExtremesOf d held worse
  stopped : ∀ axes held p, axes ≠ [] → SubregionWalk.Spans axes d.rank held → 0 < d.size →
    d.RoomFor held → (PositionWalk.lengths held d.shape).contains p = true →
      ¬ R ((Region.full d.shape).part held p) →
    (find axes).run state = (.error (.fault .overflow), state)
  empty : ∀ axes held, axes ≠ [] → SubregionWalk.Spans axes d.rank held → d.size = 0 →
    d.shape.sizeChecked.isSome = true →
    (∃ n, reserve .double (PositionWalk.free held d.shape) 1 = .ok n) →
    ∃ e, (find axes).run state = (.ok e, state) ∧ e.kind = .double ∧
      e.shape = PositionWalk.free held d.shape ∧ ∀ q, e.item q = [.double 0]

section

open PositionWalk (free lengths)
open SubregionWalk (Spans holding)

variable {axes : List Int} {held : List Bool} {z : Block}

/-- The sub-regions of the whole shape are visited, and a dataset of zeros is filled. -/
theorem extremum_run (hshape : src.shape = d.shape) (haxes : axes ≠ [])
    (hspans : Spans axes d.rank held) (hsize : d.shape.sizeChecked.isSome)
    (hz : zeros .double 1 (free held d.shape) = .ok z) :
    (src.extremum axes pick).run state = (src.extremumFrom pick
      (holding (full d.shape) held).positions.odometer.remaining
      (holding (full d.shape) held) z).run state := by
  have hrank : (full d.shape).rank = d.rank := rank_full d.shape
  have hstart : SubregionWalk.start (full d.shape) axes = .ok (holding (full d.shape) held) := by
    rw [SubregionWalk.start_eq_ok_iff, hrank, shape_full]
    exact ⟨held, hspans, hsize, rfl⟩
  have hused : (holding (full d.shape) held).usedShape = free held d.shape :=
    congrArg (free _) (shape_full d.shape)
  rw [extremum, if_neg (by simpa using haxes), hshape, run_bind, run_lift, hstart, andThen_ok,
    run_bind, run_lift, hused, hz, andThen_ok]

/-- The sub-regions of a dataset are the parts of its shape. -/
theorem forall_mem_toList_iff {Q : Region → Prop} (hd : d.Sound) (hpos : 0 < d.size)
    (hlength : held.length = d.rank) :
    (∀ x ∈ (holding (full d.shape) held).toList, Q x.1) ↔
      ∀ p, (lengths held d.shape).contains p → Q ((full d.shape).part held p) := by
  have hsize : 0 < (full d.shape).size := by rwa [Region.size, shape_full]
  rw [hd.toList_holding hpos hlength, forall_mem_map]
  constructor
  · intro h p hp
    rw [← shape_full d.shape] at hp
    obtain ⟨o, ho, rfl⟩ := SubregionWalk.exists_visit_of_contains hsize hp
    exact h o ho
  · intro h o ho
    have hp := (SubregionWalk.contains_of_mem_toList ho).2
    rw [shape_full] at hp
    exact h o.pos hp

/-- **A source that shows a dataset with items finds the extremes of its sub-regions**, unless one
of them cannot be read. -/
theorem ShowsWhere.exists_extremum (h : src.ShowsWhere d state R) (hd : d.Sound)
    (hmeta : d.metadata = .empty) (hpick : Finds pick worse) (haxes : axes ≠ [])
    (hspans : Spans axes d.rank held) (hpos : 0 < d.size) (hroom : d.RoomFor held) :
    ∃ e, e.ExtremesOf d held worse ∧ (src.extremum axes pick).run state = ((do
      ensure (∀ x ∈ (holding (full d.shape) held).toList, R x.1)
      return e), state) := by
  obtain ⟨n, hn⟩ := hroom.result
  obtain ⟨z, hz⟩ := exists_zeros Nat.one_pos hn
  have hlength := hspans.length_eq
  have hsize : d.shape.sizeChecked.isSome := by
    have hmodulus : half ≤ modulus := by decide
    have hlt : d.shape.size < modulus := (Nat.le_mul_of_pos_right _ hd.itemSize_pos).trans_lt
      (hd.inside.size_lt.trans_le hmodulus)
    rw [sizeChecked_of_pos hpos hlt]
    rfl
  have hreads : ∀ x ∈ (holding (full d.shape) held).toList,
      (src.read x.1).run state = ((do ensure (R x.1); d.slice x.1), state) := by
    rw [forall_mem_toList_iff (Q := fun r => (src.read r).run state =
      ((do ensure (R r); d.slice r), state)) hd hpos hlength]
    intro p hp
    obtain ⟨hvalid, hsize, hpartRoom⟩ := hroom.parts hpos hlength hp
    exact h.read_eq _ hvalid rfl hsize hpartRoom
  obtain ⟨e, he, hextremes⟩ := hd.exists_extremes hmeta hpos hlength hroom hpick hz
  refine ⟨e, hextremes, ?_⟩
  have hloop := foldlM_ensure (P := fun x : Region × SubregionWalk => R x.1) he
  rw [extremum_run h.shape_eq haxes hspans hsize hz,
    extremumFrom_run (fun r => do ensure (R r); d.slice r) hreads]
  simp only [bind_assoc]
  exact Prod.ext hloop rfl

theorem extremum_of_empty (hshape : src.shape = d.shape) (haxes : axes ≠ [])
    (hspans : Spans axes d.rank held) (hsize : d.shape.sizeChecked.isSome) (hempty : d.size = 0)
    (hroom : ∃ n, reserve .double (free held d.shape) 1 = .ok n) :
    ∃ e, (src.extremum axes pick).run state = (.ok e, state) ∧ e.kind = .double ∧
      e.shape = free held d.shape ∧ ∀ q, e.item q = [.double 0] := by
  obtain ⟨n, hn⟩ := hroom
  obtain ⟨z, hz⟩ := exists_zeros Nat.one_pos hn
  have hframe := (zeros_eq_ok hz).1
  have hnone : (holding (full d.shape) held).positions.odometer.remaining = 0 := by
    have hzero : (full d.shape).size = 0 := by rwa [Region.size, shape_full]
    rw [holding, if_pos hzero]
    exact hzero
  refine ⟨z, ?_, congrArg Frame.kind hframe, congrArg Frame.shape hframe, item_zeros hz⟩
  rw [extremum_run hshape haxes hspans hsize hz, hnone]
  rfl

theorem ShowsWhere.findsAlong (h : src.ShowsWhere d state R) (hd : d.Sound)
    (hmeta : d.metadata = .empty) (hpick : Finds pick worse) :
    FindsAlong (src.extremum · pick) d state R worse where
  found axes held haxes hspans hpos hroom hread := by
    obtain ⟨e, hextremes, hrun⟩ := h.exists_extremum hd hmeta hpick haxes hspans hpos hroom
    rw [ensure_of ((forall_mem_toList_iff hd hpos hspans.length_eq).mpr hread)] at hrun
    exact ⟨e, hrun, hextremes⟩
  stopped axes held p haxes hspans hpos hroom hp hread := by
    obtain ⟨e, -, hrun⟩ := h.exists_extremum hd hmeta hpick haxes hspans hpos hroom
    have hsome := mt (forall_mem_toList_iff hd hpos hspans.length_eq).mp fun hall =>
      hread (hall p hp)
    rw [ensure_of_not hsome] at hrun
    exact hrun
  empty axes held haxes hspans hempty hsize hroom :=
    extremum_of_empty h.shape_eq haxes hspans hsize hempty hroom

/-- The largest and the smallest numbers of the sub-regions are found. -/
structure FindsExtremes (src : Source σ) (d : Block) (state : σ) (R : Region → Prop) : Prop where
  max : FindsAlong src.maxAxes d state R fun x y => x < y
  min : FindsAlong src.minAxes d state R fun x y => y < x

theorem ShowsWhere.findsExtremes (h : src.ShowsWhere d state R) (hd : d.Sound)
    (hmeta : d.metadata = .empty) : src.FindsExtremes d state R :=
  ⟨h.findsAlong hd hmeta finds_max, h.findsAlong hd hmeta finds_min⟩

end

end Source

/-! ## Reading parts in words -/

theorem Region.steps_part_full {s : Shape} {held : List Bool} {p : Position} {u : Int}
    (hu : u ∈ ((full s).part held p).steps) : u = 1 := by
  have hsteps : ((full s).part held p).steps = ((full s).part held p).spans.map Span.step := by
    simp [steps, part, Spare.none]
  rw [hsteps] at hu
  obtain ⟨span, hspan, rfl⟩ := mem_map.mp hu
  obtain ⟨i, hi, rfl⟩ := getElem_of_mem hspan
  simp only [part, full, Span.inners, getElem_zipWith, getElem_map, Span.inner]
  split <;> rfl

/-- The parts of a dataset are read in words, if its buffer takes up no more than half of the words
and the strides of its unit axes do not lead out of them. -/
theorem Dataset.Sound.readsInWords_part {d : Block} {held : List Bool} {p : Position} (hd : d.Sound)
    (hpos : 0 < d.size) (hlength : held.length = d.rank)
    (hp : (PositionWalk.lengths held d.shape).contains p) (hroom : 2 * d.buffer.size ≤ Word.half)
    (hunit : ∀ x ∈ List.zip d.shape d.strides, x.1 = 1 → |x.2| + d.buffer.size ≤ Word.half) :
    d.ReadsInWords ((Region.full d.shape).part held p) := by
  obtain ⟨hvalid, hshape⟩ := part_full hlength hp
  have hsize : 0 < ((Region.full d.shape).part held p).size := by
    rw [Region.size, hshape]
    exact PositionWalk.size_spanned_pos held hpos
  rw [Frame.Sound.readsInWords_iff_of_pos hd hvalid rfl hsize]
  refine (hd.inside.slice hvalid rfl).allFit_walkNumbers hroom fun x hx _ => ?_
  -- A part has the strides of the dataset: only those of unit axes may lead out of the buffer.
  obtain ⟨i, hi⟩ := List.mem_iff_getElem?.mp hx
  obtain ⟨-, hx⟩ := List.getElem?_zip_eq_some.mp hi
  obtain ⟨t, u, ht, hu, htu⟩ := List.getElem?_zipWith_eq_some.mp hx
  rw [steps_part_full (List.mem_of_getElem? hu), mul_one] at htu
  have hlt : i < d.shape.length := hd.inside.length_strides ▸ (List.getElem?_eq_some_iff.mp ht).1
  have hn : (d.shape : List Nat)[i]? = some d.shape[i] := List.getElem?_eq_getElem hlt
  have hlength : 0 < d.shape[i] := pos_of_mem hpos (List.getElem_mem hlt)
  rw [← htu]
  by_cases hone : d.shape[i] = 1
  · exact hunit (d.shape[i], t) (List.mem_of_getElem? (List.getElem?_zip_eq_some.mpr ⟨hn, ht⟩)) hone
  · have := hd.inside.abs_stride_lt hpos hn ht (by omega)
    omega

/-! ## Extremes -/

namespace Source

/-- **The extremes of the sub-regions** along any axes: at each position over the other axes, an
element of the sub-region that is a number and that no number there beats, or not-a-number if it has
none. This holds for data with items, in memory or behind lazy views; without items zeros are found.
In words the program is stopped just if a sub-region cannot be read. -/
theorem extremes_of_subregions {d : Block} (hd : d.Sound) (hmeta : d.metadata = .empty)
    (depot : Depot) :
    d.source.FindsExtremes d depot (fun _ => True) ∧
    (∃ l depot', (Lazy.ofBlock d).run depot = (.ok l, depot') ∧
      ∀ (steps : List ViewStep) (l' : Lazy Depot) (v : Block),
        steps.foldlM ViewStep.onLazy l = .ok l' → steps.foldlM ViewStep.onBlock d = .ok v →
        l'.source.FindsExtremes v depot' fun _ => True) ∧
    d.sourceInWords.FindsExtremes d depot (fun r => d.ReadsInWords r) ∧
    (∃ l depot', (Lazy.ofBlockInWords d).run depot = (.ok l, depot') ∧
      ∀ (steps : List ViewStep) (l' : Lazy Depot) (v : Block),
        steps.foldlM ViewStep.onLazyInWords l = .ok l' → steps.foldlM ViewStep.onBlock d = .ok v →
        l'.sourceInWords.FindsExtremes v depot' (l'.ReadsInWords d)) ∧
    (0 < d.size → 2 * d.buffer.size ≤ Word.half →
      (∀ x ∈ List.zip d.shape d.strides, x.1 = 1 → |x.2| + d.buffer.size ≤ Word.half) →
      ∀ axes held p, SubregionWalk.Spans axes d.rank held →
        (PositionWalk.lengths held d.shape).contains p = true →
          d.ReadsInWords ((Region.full d.shape).part held p)) := by
  obtain ⟨l, depot', hl, hviews⟩ := Lazy.exists_showsWhere hd hmeta depot
  obtain ⟨m, depot'', hm, hviewsInWords⟩ := Lazy.exists_showsWhere_inWords hd hmeta depot
  refine ⟨(showsWhere_source d depot).findsExtremes hd hmeta,
    ⟨l, depot', hl, fun steps l' v hl' hv => ?_⟩,
    (showsWhere_sourceInWords hd hmeta depot).findsExtremes hd hmeta,
    ⟨m, depot'', hm, fun steps m' v hm' hv => ?_⟩,
    fun hpos hroom hunit axes held p hspans hp =>
      hd.readsInWords_part hpos hspans.length_eq hp hroom hunit⟩
  · obtain ⟨hsound, hvmeta, hshows⟩ := hviews steps l' v hl' hv
    exact hshows.findsExtremes hsound hvmeta
  · obtain ⟨hsound, hvmeta, hshows⟩ := hviewsInWords steps m' v hm' hv
    exact hshows.findsExtremes hsound hvmeta

/-- Two rows, of which only the first one has a number. -/
def oneNumber : Block := Dataset.ofList .double [2, 2] 1
  [.double Number.nan, .double 1, .double Number.nan, .double Number.nan]

theorem extremes_of_subregions_transposed :
    ∃ (l l' : Lazy Depot) (depot : Depot) (v e : Block),
      (Lazy.ofBlock oneNumber).run .empty = (.ok l, depot) ∧
      [ViewStep.transpose []].foldlM ViewStep.onLazy l = .ok l' ∧
      [ViewStep.transpose []].foldlM ViewStep.onBlock oneNumber = .ok v ∧
      (l'.source.maxAxes [0]).run depot = (.ok e, depot) ∧
      e.ExtremesOf v [true, false] (fun x y => x < y) ∧
      e.item [1] = [.double Number.nan] := by
  obtain ⟨l, depot, l', hl, hl'⟩ : ∃ (l : Lazy Depot) (depot : Depot) (l' : Lazy Depot),
      (Lazy.ofBlock oneNumber).run .empty = (.ok l, depot) ∧
        [ViewStep.transpose []].foldlM ViewStep.onLazy l = .ok l' := ⟨_, _, _, rfl, rfl⟩
  obtain ⟨v, hv, hshape, hspans, hsize, hroom, hnan⟩ : ∃ v : Block,
      [ViewStep.transpose []].foldlM ViewStep.onBlock oneNumber = .ok v ∧ v.shape = [2, 2] ∧
        SubregionWalk.Spans [0] v.rank [true, false] ∧ 0 < v.size ∧ v.RoomFor [true, false] ∧
        ∀ p ∈ Shape.positions [2, 2], PositionWalk.free [true, false] p = [1] →
          ∀ x ∈ v.item p, x.toFloat.isNaN = true :=
    ⟨_, rfl, rfl, ⟨[0], by decide, by decide, rfl⟩, by decide, ⟨⟨2, rfl⟩, 2, rfl⟩,
      by decide +kernel⟩
  obtain ⟨-, ⟨k, depot', hk, hlazy⟩, -⟩ :=
    extremes_of_subregions (by decide +kernel : oneNumber.Sound) rfl .empty
  obtain ⟨hsame, rfl⟩ := Prod.mk.inj (hl.symm.trans hk)
  obtain rfl := Except.ok.inj hsame
  obtain ⟨e, he, hextremes⟩ := (hlazy _ l' v hl' hv).max.found [0] _ (by decide) hspans hsize
    hroom fun _ _ => trivial
  refine ⟨l, l', depot, v, e, hl, hl', hv, he, hextremes, ?_⟩
  obtain ⟨x, hx, hextreme⟩ := hextremes.item_eq [1] (by rw [hshape]; decide)
  rw [hx, hextreme.nan]
  rintro y ⟨p, hp, hfree, z, hz, rfl⟩
  rw [hshape, ← Shape.mem_positions] at hp
  exact hnan p hp hfree z hz

/-- A sub-region without an element counts as zero, and not as one without a number. -/
theorem empty_subregion_counts_as_zero : ∃ d e : Block,
    Dataset.zeros .double 1 [3, 0] = .ok d ∧ (d.source.maxAxes [1]).run () = (.ok e, ()) ∧
      e.shape = [3] ∧ (∀ x, ¬ d.HasAt [false, true] [0] x) ∧
      ∀ x, e.item [0] = [.double x] → x ≠ Number.nan := by
  refine ⟨_, _, rfl, by with_unfolding_all rfl, rfl, ?_, ?_⟩
  · rintro x ⟨p, hp, -⟩
    exact absurd (Shape.size_pos_of_contains hp) (by decide)
  · rintro x hx rfl
    have hzero : (0 : Float) = Number.nan := Scalar.double.inj (List.cons.inj hx).1
    have hnumber : (0 : Float).isNaN = false := by decide +kernel
    rw [hzero] at hnumber
    exact absurd hnumber (by decide +kernel)

end Source

end Hyperslab
