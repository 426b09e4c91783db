import Hyperslab.Proofs.Composition
import Hyperslab.Proofs.LazyReductions
import Hyperslab.Proofs.Reshapes
import Hyperslab.Proofs.Subregions

/-!
# Walks of sub-regions

A walk of the sub-regions of a region that span chosen axes makes a slice for every axis at each
position that it visits, resolves the slices on the shape of the region and composes the result with
the region. What is refused on the way only ends the walk. If the lengths of the axes are signed
words, nothing is refused: the sub-regions are the parts of the region, each of them once, in
row-major order of their positions on the other axes.

The size of the whole region is computed before the walk, to see whether it is empty. So a region
whose size is no word is not walked at all, however few sub-regions it has.
-/
namespace Hyperslab

open List Region Shape Word

/-! ## Slices at a position -/

/-- An index is checked with the one behind it, where its slice stops. -/
theorem Slice.checked_index {i : Int} (hi : fits i) (hnext : fits (i + 1)) :
    (index i).checked = .ok (index i) := by
  have hstart : (index i).start.all fits := hi
  have hstop : (index i).stop.all fits := by
    unfold index
    split <;> simp [hnext]
  have hstep : fits (index i).step := (by decide : fits 1)
  rw [checked, hstart, hstop]
  rfl

theorem Slice.mapM_checked_eq (slices : List Slice) : slices.mapM checked = .ok slices ∨
    slices.mapM checked = .error (.fault .overflow) := by
  have hone (s : Slice) : s.checked = .ok s ∨ s.checked = .error (.fault .overflow) := by
    unfold checked
    split
    · exact .inl rfl
    · exact .inr rfl
  by_cases h : ∃ s ∈ slices, s.checked = .error (.fault .overflow)
  · exact .inr (mapM_eq_error (fun s _ => (hone s).imp_left fun h => ⟨s, h⟩) h)
  · refine .inl (mapM_eq_ok.mpr (forall₂_same.mpr fun s hs => ?_))
    exact (hone s).resolve_right fun hs' => h ⟨s, hs, hs'⟩

namespace PositionWalk

variable {held : List Bool} {s : Shape} {p : Position}

/-- The positions that are walked are positions of the shape, unless it is empty. -/
theorem contains_of_lengths (hlength : held.length = s.length) (hs : 0 < s.size)
    (hp : (lengths held s).contains p) : s.contains p := by
  obtain ⟨hrank, hlt⟩ := contains_iff_getElem.mp hp
  rw [length_lengths hlength] at hrank
  refine contains_iff_getElem.mpr ⟨hrank, fun i hi hi' => ?_⟩
  have hc := hlt i hi (by rwa [length_lengths hlength])
  have hd := pos_of_mem hs (getElem_mem hi')
  simp only [lengths, getElem_zipWith] at hc
  split at hc <;> omega

theorem lengths_le (hlength : held.length = s.length) (hs : 0 < s.size) :
    Forall₂ (· ≤ ·) (lengths held s) s := by
  refine forall₂_iff_get.mpr ⟨length_lengths hlength, fun i _ hi => ?_⟩
  have hd := pos_of_mem hs (getElem_mem hi)
  simp only [lengths, get_eq_getElem, getElem_zipWith]
  split <;> omega

@[simp] theorem slicesAt_cons (h : Bool) (held : List Bool) (i : Nat) (p : Position) :
    slicesAt (h :: held) (i :: p) =
      (if h then Slice.all else Slice.index (signed i)) :: slicesAt held p := rfl

section

variable (hlength : held.length = s.length) (hsmall : ∀ n ∈ s, n < half)
  (hp : (lengths held s).contains p)
include hlength hsmall hp

/-- The slices of a position resolve to all of the held axes, and to its index on the others. -/
theorem ofSlices_slicesAt : ofSlices s (slicesAt held p) = .ok (inner s held p) := by
  have hcount : p.length = held.length := by
    rw [length_of_contains hp, length_lengths hlength, hlength]
  refine ofSlices_of_resolve (by simp [slicesAt, hcount, hlength]) ?_
  clear hcount
  induction s generalizing held p with
  | nil => simp [Span.inners]
  | cons n s ih =>
    obtain ⟨h, held, rfl⟩ := exists_cons_of_length_eq_add_one hlength
    obtain ⟨i, p, rfl, hi, hp'⟩ := exists_of_contains_cons hp
    simp only [forall_mem_cons] at hsmall
    refine .cons ?_ (ih (by simpa using hlength) hsmall.2 hp')
    cases h with
    | true => exact Slice.resolve_all hsmall.1
    | false => exact Slice.resolve_index hi hsmall.1

theorem mapM_checked_slicesAt : (slicesAt held p).mapM Slice.checked = .ok (slicesAt held p) := by
  rw [mapM_eq_ok]
  induction s generalizing held p with
  | nil =>
    obtain rfl : held = [] := eq_nil_of_length_eq_zero hlength
    exact .nil
  | cons n s ih =>
    obtain ⟨h, held, rfl⟩ := exists_cons_of_length_eq_add_one hlength
    obtain ⟨i, p, rfl, hi, hp'⟩ := exists_of_contains_cons hp
    simp only [forall_mem_cons] at hsmall
    rw [slicesAt_cons]
    refine .cons ?_ (ih (by simpa using hlength) hsmall.2 hp')
    cases h with
    | true => rfl
    | false =>
      have hi : i < n := hi
      rw [signed_of_lt (hi.trans hsmall.1)]
      exact Slice.checked_index (fits_iff.mpr (by omega)) (fits_iff.mpr (by omega))

end

end PositionWalk

/-! ## Visits -/

namespace SubregionWalk

variable {w : SubregionWalk} {n : Nat}

/-- The walk at a visit of its odometer. -/
def moved (w : SubregionWalk) (o : Odometer) : SubregionWalk :=
  { w with positions := { w.positions with odometer := o } }

@[simp] theorem odometer_moved (w : SubregionWalk) (o : Odometer) :
    (w.moved o).positions.odometer = o := rfl

@[simp] theorem moved_moved (w : SubregionWalk) (o : Odometer) : (w.moved o).moved = w.moved := rfl

theorem visits_succ (w : SubregionWalk) (n : Nat) : w.visits (n + 1) =
    match w.positions.odometer.next? with
    | none => []
    | some o =>
      match (w.moved o).subregion with
      | .ok r => (r, w.moved o) :: (w.moved o).visits n
      | .error _ => [] := by
  rw [visits]
  cases ho : w.positions.odometer.next? with
  | none => simp [next?, PositionWalk.next?, ho]
  | some o =>
    have hnext : w.next? = (w.moved o).subregion.toOption.map fun r => (r, w.moved o) := by
      simp only [next?, PositionWalk.next?, ho]
      change ((w.moved o).subregion.toOption >>= fun r => some (r, w.moved o)) = _
      cases (w.moved o).subregion <;> rfl
    simp only [hnext]
    cases (w.moved o).subregion <;> rfl

theorem subregion_of_mem_visits {x : Region × SubregionWalk} (hx : x ∈ w.visits n) :
    x.2.subregion = .ok x.1 := by
  induction n generalizing w with
  | zero => simp [visits] at hx
  | succ n ih =>
    rw [visits_succ] at hx
    split at hx
    · simp at hx
    split at hx
    · rename_i hr
      rcases mem_cons.mp hx with rfl | hx
      · exact hr
      · exact ih hx
    · simp at hx

theorem visits_follow :
    (w.visits n).map Prod.snd <+: (w.positions.odometer.visits n).map w.moved := by
  induction n generalizing w with
  | zero => exact nil_prefix
  | succ n ih =>
    rw [visits_succ, Odometer.visits]
    cases ho : w.positions.odometer.next? with
    | none => exact nil_prefix
    | some o =>
      cases hr : (w.moved o).subregion with
      | error e => simp [hr]
      | ok r => simpa [hr] using ih (w := w.moved o)

/-- If there is a sub-region at every visit of the odometer, all of them are visited. -/
theorem visits_eq {f : Odometer → Region}
    (h : ∀ o ∈ w.positions.odometer.visits n, (w.moved o).subregion = .ok (f o)) :
    w.visits n = (w.positions.odometer.visits n).map fun o => (f o, w.moved o) := by
  induction n generalizing w with
  | zero => rfl
  | succ n ih =>
    rw [Odometer.visits] at h ⊢
    rw [visits_succ]
    cases ho : w.positions.odometer.next? with
    | none => rfl
    | some o =>
      simp only [ho, forall_mem_cons] at h
      simp only [h.1, ih (w := w.moved o) h.2]
      rfl

/-! ### In words -/

theorem visitsInWords_succ (w : SubregionWalk) (n : Nat) : w.visitsInWords (n + 1) =
    match w.positions.odometer.next? with
    | none => .ok []
    | some o =>
      match (w.moved o).subregionInWords with
      | .ok r => do return (r, w.moved o) :: (← (w.moved o).visitsInWords n)
      | .error (.fault f) => .error (.fault f)
      | .error _ => .ok [] := by
  rw [visitsInWords]
  cases ho : w.positions.odometer.next? with
  | none => simp [PositionWalk.next?, ho, pure, Except.pure]
  | some o =>
    simp only [PositionWalk.next?, ho]
    rfl

/-- In words, the sub-region is the same, or a number on the way to it is no word. -/
theorem subregionInWords_eq (w : SubregionWalk) : w.subregionInWords = w.subregion ∨
    w.subregionInWords = .error (.fault .overflow) := by
  rcases Slice.mapM_checked_eq (PositionWalk.slicesAt w.positions.held w.positions.pos) with h | h
  · rw [subregionInWords, subregion, h, ok_bind]
    cases hinner : ofSlices w.region.shape
        (PositionWalk.slicesAt w.positions.held w.positions.pos) with
    | error e => exact .inl rfl
    | ok inner =>
      rw [ok_bind, ok_bind, composeInWords_eq]
      cases w.region.compose inner with
      | error e => exact .inl rfl
      | ok r =>
        by_cases hwords : w.region.ComposesInWords inner
        · rw [ensure_of hwords]
          exact .inl rfl
        · rw [ensure_of_not hwords]
          exact .inr rfl
  · rw [subregionInWords, h]
    exact .inr rfl

/-- **A walk that is not stopped in words visits what it visits over exact integers.** -/
theorem eq_visits_of_visitsInWords {l : List (Region × SubregionWalk)}
    (h : w.visitsInWords n = .ok l) : l = w.visits n := by
  induction n generalizing w l with
  | zero => exact (Except.ok.inj h).symm
  | succ n ih =>
    rw [visitsInWords_succ] at h
    rw [visits_succ]
    cases ho : w.positions.odometer.next? with
    | none =>
      rw [ho] at h
      exact (Except.ok.inj h).symm
    | some o =>
      simp only [ho] at h ⊢
      rcases (w.moved o).subregionInWords_eq with heq | heq <;> rw [heq] at h
      · cases hr : (w.moved o).subregion with
        | ok r =>
          simp only [hr, bind_eq_ok, pure_eq_ok] at h
          obtain ⟨rest, hrest, rfl⟩ := h
          rw [ih hrest]
        | error e =>
          -- A refusal ends both walks; a fault would have stopped the one in words.
          cases e <;> simp_all
      · cases h

/-- If there is a sub-region at every visit of the odometer, the walk is stopped in words just if
one of them is. -/
theorem visitsInWords_eq {f : Odometer → Region} {P : Odometer → Prop} [DecidablePred P]
    (h : ∀ o ∈ w.positions.odometer.visits n, (w.moved o).subregionInWords = do
      ensure (P o)
      return f o) :
    w.visitsInWords n = do
      ensure (∀ o ∈ w.positions.odometer.visits n, P o)
      return (w.positions.odometer.visits n).map fun o => (f o, w.moved o) := by
  induction n generalizing w with
  | zero =>
    rfl
  | succ n ih =>
    rw [Odometer.visits] at h ⊢
    rw [visitsInWords_succ]
    cases ho : w.positions.odometer.next? with
    | none =>
      rfl
    | some o =>
      simp only [ho, forall_mem_cons] at h ⊢
      rw [h.1, ih h.2, moved_moved]
      rw [← ensure_and]
      by_cases hfirst : P o
      · simp only [ensure_of hfirst, bind_assoc]
        rfl
      · rw [ensure_of_not hfirst]
        rfl

/-! ## The walk of a region -/

open PositionWalk (lengths)

/-- The walk of the parts of a region, before its first visit. An empty region has no part. -/
def holding (r : Region) (held : List Bool) : SubregionWalk :=
  ⟨r, ⟨Region.full r.shape, held,
    Odometer.start (if r.size = 0 then r.shape else lengths held r.shape) []⟩⟩

/-- The visits of the odometer of that walk. -/
def visited (r : Region) (held : List Bool) : List Odometer :=
  (holding r held).positions.odometer.toList

/-- Which axes are named. -/
def heldBy (named : List Nat) (rank : Nat) : List Bool :=
  (List.range rank).map fun i => decide (i ∈ named)

theorem start_eq (r : Region) (axes : List Int) : start r axes = do
    let named ← normalizeAxes axes r.rank
    ensure (r.shape.sizeChecked.isSome)
    return holding r (heldBy named r.rank) := by
  have hrank : (Region.full r.shape).rank = r.rank := by
    rw [rank_full, length_shape]
  simp only [start, PositionWalk.startHolding, hrank, shape_full, bind_assoc]
  cases normalizeAxes axes r.rank with
  | error e => rfl
  | ok named =>
    rw [ok_bind, ok_bind, ← sizeWord_bind]
    have hlengths : zipWith (fun d h => if h && (Region.full r.shape).size ≠ 0 then 1 else d)
        r.shape (heldBy named r.rank) =
        if r.size = 0 then r.shape else lengths (heldBy named r.rank) r.shape := by
      have hsize : (Region.full r.shape).size = r.size := by simp [Region.size]
      have hzip : zipWith (fun d (_ : Bool) => d) r.shape (heldBy named r.rank) = r.shape := by
        rw [← map_uncurry_zip_eq_zipWith]
        exact map_fst_zip (by simp [heldBy])
      -- An empty region keeps the lengths of its axes, so that nothing is visited.
      by_cases h0 : r.size = 0
      · simpa [hsize, h0] using hzip
      · simp [hsize, h0, lengths]
    cases r.shape.sizeWord with
    | error e => rfl
    | ok n =>
      rw [holding, ← hlengths]
      rfl

variable {r : Region} {held : List Bool}

/-- Only a region that is not empty has a visit, at a position of the axes that are not held. -/
theorem contains_of_mem_toList {o : Odometer} (ho : o ∈ visited r held) :
    0 < r.size ∧ (lengths held r.shape).contains o.pos := by
  have hpos := (Odometer.mem_toList_start ho).1
  by_cases h0 : r.size = 0
  · rw [if_pos h0] at hpos
    exact absurd h0 (size_pos_of_contains hpos).ne'
  · rw [if_neg h0] at hpos
    exact ⟨Nat.pos_of_ne_zero h0, hpos⟩

/-- The odometer of a region that is not empty visits every position of the axes that are not held.
-/
theorem map_pos_toList (hpos : 0 < r.size) :
    (visited r held).map Odometer.pos = (lengths held r.shape).positions := by
  rw [visited, holding, if_neg hpos.ne']
  exact Odometer.map_pos_toList_start ..

theorem exists_visit_of_contains {p : Position} (hpos : 0 < r.size)
    (hp : (lengths held r.shape).contains p) : ∃ o ∈ visited r held, o.pos = p := by
  have hmem := mem_positions.mpr hp
  rw [← map_pos_toList hpos] at hmem
  exact mem_map.mp hmem

theorem remaining_holding (hpos : 0 < r.size) :
    (holding r held).positions.odometer.remaining = (lengths held r.shape).size := by
  rw [holding, if_neg hpos.ne']
  rfl

theorem length_toList (r : Region) (held : List Bool) :
    (visited r held).length = (holding r held).positions.odometer.remaining := by
  rw [← length_map Odometer.pos]
  exact (congrArg length (Odometer.map_pos_toList_start ..)).trans (length_positions _)

theorem fault?_holding (hlength : held.length = r.shape.length) (hr : r.Valid)
    (hsize : r.shape.sizeChecked.isSome) : (holding r held).fault? = none := by
  obtain ⟨n, hn⟩ := Option.isSome_iff_exists.mp hsize
  have hrank : ¬ r.source.length < r.rank := by
    rw [hr.length_source]
    exact lt_irrefl _
  have hchecked : sizeChecked (if r.size = 0 then r.shape else lengths held r.shape) ≠ none := by
    split
    · simp [hn]
    · rename_i h0
      obtain ⟨m, -, hm⟩ := sizeChecked_of_le (PositionWalk.lengths_le
        hlength (Nat.pos_of_ne_zero h0)) hn
      simp [hm]
  simp [fault?, holding, hrank, Odometer.fault?, Odometer.start, hchecked]

section

variable (hlength : held.length = r.shape.length) (hr : r.Valid)
include hlength hr

/-- **The sub-region at a position is the part of the region there**, if the lengths of the axes are
signed words. In words, the numbers met in composing it are words too. -/
theorem subregion_moved (hsmall : ∀ n ∈ r.shape, n < half) {o : Odometer}
    (ho : o ∈ visited r held) :
    ((holding r held).moved o).subregion = .ok (r.part held o.pos) ∧
    ((holding r held).moved o).subregionInWords = do
      ensure (r.ComposesInWords (inner r.shape held o.pos))
      return r.part held o.pos := by
  obtain ⟨hsize, hp⟩ := contains_of_mem_toList ho
  have hmodulus : half ≤ modulus := by decide
  have hpos : ((holding r held).moved o).positions.pos = o.pos :=
    sourcePosition_full (fun n hn => ((hsmall n hn).trans_le hmodulus).le)
      (PositionWalk.contains_of_lengths hlength hsize hp)
  have hslices := PositionWalk.ofSlices_slicesAt hlength hsmall hp
  have hcompose := hr.compose_inner hlength hp
  constructor
  · rw [subregion, hpos]
    change (do r.compose (← ofSlices r.shape (PositionWalk.slicesAt held o.pos))) = _
    rw [hslices, ok_bind, hcompose]
  · rw [subregionInWords, hpos]
    change (do
      let slices ← (PositionWalk.slicesAt held o.pos).mapM Slice.checked
      r.composeInWords (← ofSlices r.shape slices)) = _
    rw [PositionWalk.mapM_checked_slicesAt hlength hsmall hp, ok_bind, hslices,
      ok_bind, composeInWords_eq, hcompose, ok_bind]

theorem toList_holding (hsmall : r.size = 0 ∨ ∀ n ∈ r.shape, n < half) :
    (holding r held).toList = (visited r held).map fun o =>
      (r.part held o.pos, (holding r held).moved o) := by
  refine visits_eq fun o ho => ?_
  have hpos := (contains_of_mem_toList ho).1
  exact (subregion_moved hlength hr (hsmall.resolve_left hpos.ne') ho).1

end

end SubregionWalk

/-- The numbers met in composing the parts of a region are words. -/
def Region.PartsInWords (r : Region) (held : List Bool) : Prop :=
  0 < r.size → ∀ p ∈ (PositionWalk.lengths held r.shape).positions,
    r.ComposesInWords (inner r.shape held p)

instance (r : Region) (held : List Bool) : Decidable (r.PartsInWords held) :=
  inferInstanceAs (Decidable (_ → _))

/-- All of an axis whose length is no signed word is nothing of it. -/
theorem Slice.count_of_all {n : Nat} {span : Span} (hn : half ≤ n) (hword : n < modulus)
    (h : all.resolve n n = .ok span) : span.count = 0 := by
  obtain ⟨-, -, rfl⟩ := resolve_eq_ok h
  have hsigned := signed_of_le hn hword
  have hhalf : (0 : Int) ≤ half - 1 := by decide
  have hlim : (0 : Int) ≤ min (n : Int) (half - 1) := le_min (Int.natCast_nonneg _) hhalf
  have hstop : clamp 0 (min (n : Int) (half - 1)) (signed n) = 0 := by
    rw [clamp, if_pos (by omega)]
  have hstart : clamp 0 (min (n : Int) (half - 1)) 0 = 0 := clamp_of_mem le_rfl hlim
  change steps (clamp 0 (min (n : Int) (half - 1)) (signed n) -
    clamp 0 (min (n : Int) (half - 1)) 0) 1 = 0
  rw [hstop, hstart]
  rfl

/-- No axis has an index that is not below the greatest signed word. -/
theorem Slice.lt_of_resolve_index {i length limit : Nat} {span : Span} (hi : i < half)
    (h : (index (signed i)).resolve length limit = .ok span) : i + 1 < half := by
  obtain ⟨-, hindex⟩ := checks_of_resolve h
  obtain ⟨-, hlt⟩ := hindex (signed i) rfl
  rw [signed_of_lt hi, wrap_of_nonneg (Int.natCast_nonneg i)] at hlt
  omega

namespace SubregionWalk

open PositionWalk (lengths)

variable {r : Region} {held : List Bool}

/-- **In words, the sub-regions are the same, and the walk is stopped just if a number met in
composing one of them is no word.** -/
theorem toListInWords_holding (hlength : held.length = r.shape.length) (hr : r.Valid)
    (hsmall : r.size = 0 ∨ ∀ n ∈ r.shape, n < half) :
    (holding r held).toListInWords = do
      ensure (r.PartsInWords held)
      return (holding r held).toList := by
  have hwords : (∀ o ∈ visited r held,
      r.ComposesInWords (inner r.shape held o.pos)) ↔ r.PartsInWords held := by
    constructor
    · intro h hpos p hp
      obtain ⟨o, ho, rfl⟩ := exists_visit_of_contains hpos (mem_positions.mp hp)
      exact h o ho
    · intro h o ho
      obtain ⟨hpos, hp⟩ := contains_of_mem_toList ho
      exact h hpos _ (mem_positions.mpr hp)
  have hvisits := visitsInWords_eq (w := holding r held)
    fun o ho => by
      have hpos := (contains_of_mem_toList ho).1
      exact (subregion_moved hlength hr (hsmall.resolve_left hpos.ne') ho).2
  rw [toList_holding hlength hr hsmall, toListInWords, hvisits, ← Odometer.toList,
    ← visited, ensure_congr hwords]

/-! ## Partitions -/

/-- The visits of a walk are a partition of its region: as many parts as announced, at the positions
of the axes that are not spanned, in row-major order. -/
structure Partitions (w : SubregionWalk) (visits : List (Region × SubregionWalk)) : Prop where
  length_eq : visits.length = w.positions.odometer.remaining
  partOf : ∀ x ∈ visits, x.1.PartOf w.region w.positions.held x.2.pos
  apart : visits.Pairwise fun x y => ∀ p, ¬ (x.1.Selects p ∧ y.1.Selects p)
  cover : ∀ p, w.region.Selects p ↔ ∃ x ∈ visits, x.1.Selects p
  ordered : visits.map (fun x => x.2.usedPos) <+: w.usedShape.positions
  size_eq : 0 < w.region.size → visits.length = w.usedShape.size

section

variable (hlength : held.length = r.shape.length)
include hlength

/-- The parts that are visited have nothing in common: their positions are all different. -/
theorem pairwise_apart (hr : r.Valid) :
    (visited r held).Pairwise fun o o' =>
      ∀ p, ¬ ((r.part held o.pos).Selects p ∧ (r.part held o'.pos).Selects p) := by
  have hnodup : ((visited r held).map Odometer.pos).Nodup := by
    rw [visited, holding, Odometer.map_pos_toList_start]
    exact nodup_positions _
  refine (pairwise_map.mp hnodup).imp_of_mem fun {o o'} ho ho' hne => ?_
  rintro p ⟨hp, hp'⟩
  exact hne (hr.eq_of_selects_part hlength (contains_of_mem_toList ho).2
    (contains_of_mem_toList ho').2 hp hp')

/-- What the region selects, one of the visited parts selects. -/
theorem selects_iff_visited {p : Position} : r.Selects p ↔
    ∃ o ∈ visited r held, (r.part held o.pos).Selects p := by
  constructor
  · intro h
    obtain ⟨q, hq, hselects⟩ := (selects_iff_part hlength).mp h
    obtain ⟨y, hy, -⟩ := h
    obtain ⟨o, ho, rfl⟩ := exists_visit_of_contains (size_pos_of_contains hy) hq
    exact ⟨o, ho, hselects⟩
  · rintro ⟨o, ho, hselects⟩
    exact (selects_iff_part hlength).mpr ⟨o.pos, (contains_of_mem_toList ho).2, hselects⟩

/-- A region that is not empty has one visit for each position of the free axes, in row-major order.
-/
theorem map_free_toList (hpos : 0 < r.size) :
    (visited r held).map (fun o => PositionWalk.free held o.pos) =
      Shape.positions (PositionWalk.free held r.shape) := by
  rw [← PositionWalk.map_free_positions hlength, ← map_pos_toList hpos, map_map]
  rfl

theorem free_pos_in_order :
    (visited r held).map (fun o => PositionWalk.free held o.pos) <+:
      Shape.positions (PositionWalk.free held r.shape) := by
  by_cases h0 : r.size = 0
  · have hnone : visited r held = [] := by
      rw [eq_nil_iff_forall_not_mem]
      exact fun o ho => (contains_of_mem_toList ho).1.ne' h0
    rw [hnone]
    exact nil_prefix
  · simp only [map_free_toList hlength (Nat.pos_of_ne_zero h0), prefix_refl]

/-- **The sub-regions are a partition of the region**, if the lengths of its axes are signed words.
-/
theorem partitions_of_small (hr : r.Valid) (hsmall : r.size = 0 ∨ ∀ n ∈ r.shape, n < half) :
    (holding r held).Partitions (holding r held).toList := by
  rw [toList_holding hlength hr hsmall]
  refine ⟨?_, ?_, ?_, fun p => ?_, ?_, fun hpos => ?_⟩
  · rw [length_map, length_toList]
  · rw [forall_mem_map]
    intro o ho
    exact hr.partOf hlength (contains_of_mem_toList ho).2
  · rw [pairwise_map]
    exact pairwise_apart hlength hr
  · simp only [mem_map, exists_exists_and_eq_and]
    exact selects_iff_visited hlength
  · rw [map_map]
    exact free_pos_in_order hlength
  · have hpos : 0 < r.size := hpos
    rw [length_map, length_toList, remaining_holding hpos, PositionWalk.size_lengths hlength]
    rfl

/-- What a sub-region has of an axis is composed of the axis and what the slice at the position
resolves to. -/
theorem resolve_of_subregion {o : Odometer} {sub : Region} {i j : Nat} {s : Span} {h : Bool}
    (hr : r.Valid) (hwords : ∀ n ∈ r.shape, n ≤ modulus) (ho : o ∈ visited r held)
    (hsub : ((holding r held).moved o).subregion = .ok sub) (hs : r.spans[i]? = some s)
    (hh : held[i]? = some h) (hj : o.pos[i]? = some j) :
    ∃ span, (if h then Slice.all else Slice.index (signed j)).resolve s.count s.count =
      .ok span ∧ sub.spans[i]? = some (Span.compose s span) := by
  obtain ⟨hsize, hp⟩ := contains_of_mem_toList ho
  have hpos : ((holding r held).moved o).positions.pos = o.pos :=
    sourcePosition_full hwords (PositionWalk.contains_of_lengths hlength hsize hp)
  rw [subregion, hpos, bind_eq_ok] at hsub
  obtain ⟨inner, hinner, hsub⟩ := hsub
  have hslices : (PositionWalk.slicesAt held o.pos).length = r.shape.length := by
    simp [PositionWalk.slicesAt, hlength, length_of_walked hlength hp]
  obtain ⟨hsource, hspans⟩ := ofSlices_eq_ok hslices hinner
  have hvalid := valid_ofSlices hinner
  have hi : i < inner.spans.length := by
    have hcount : inner.spans.length = r.spans.length := by
      rw [← rank, ← hvalid.length_source, hsource, length_shape, rank]
    rw [hcount]
    exact (List.getElem?_eq_some_iff.mp hs).1
  refine ⟨inner.spans[i], ?_, ?_⟩
  · have hslice : ((PositionWalk.slicesAt held o.pos).zip r.shape)[i]? =
        some (if h then Slice.all else Slice.index (signed j), s.count) := by
      simp [PositionWalk.slicesAt, zip, getElem?_zipWith, hh, hj, shape, hs]
    exact rel_of_getElem? hspans hslice (getElem?_eq_getElem hi)
  · have hsub : r.compose inner = .ok sub := hsub
    rw [hr.compose_eq hvalid hsource, Except.ok.injEq] at hsub
    subst hsub
    simp [getElem?_zipWith, hs, getElem?_eq_getElem hi]

theorem exists_visit (hpos : 0 < r.size) : ∃ o, o ∈ visited r held := by
  obtain ⟨horigin, -⟩ := PositionWalk.contains_origin hlength (contains_origin hpos)
  obtain ⟨o, ho, -⟩ := exists_visit_of_contains hpos horigin
  exact ⟨o, ho⟩

/-- There is a visit with every index that an axis which is not held has. -/
theorem exists_visit_at (hpos : 0 < r.size) {i k : Nat} {s : Span} (hs : r.spans[i]? = some s)
    (hh : held[i]? = some false) (hk : k < s.count) : ∃ o ∈ visited r held, o.pos[i]? = some k := by
  obtain ⟨horigin, -⟩ := PositionWalk.contains_origin hlength (contains_origin hpos)
  have hlengths : (lengths held r.shape : List Nat)[i]? = some s.count := by
    simp [lengths, getElem?_zipWith, shape, hs, hh]
  obtain ⟨o, ho, hpos⟩ := exists_visit_of_contains hpos (contains_set horigin hlengths hk)
  refine ⟨o, ho, ?_⟩
  have hi : i < (lengths held r.shape).length := (List.getElem?_eq_some_iff.mp hlengths).1
  rw [hpos, getElem?_set_self (by rwa [length_of_contains horigin])]

omit hlength in
/-- As no visit of a partition is missing, there is a sub-region wherever the odometer gets to. -/
theorem Partitions.exists_subregion (h : (holding r held).Partitions (holding r held).toList)
    {o : Odometer} (ho : o ∈ visited r held) :
    ∃ sub, ((holding r held).moved o).subregion = .ok sub ∧ sub.PartOf r held o.pos := by
  -- The visits follow the odometer, and none is missing.
  have hall : (holding r held).toList.map Prod.snd =
      (visited r held).map (holding r held).moved := by
    refine (visits_follow).eq_of_length ?_
    rw [length_map, length_map, ← Odometer.toList, ← visited, length_toList]
    exact h.length_eq
  have hmem : (holding r held).moved o ∈ (holding r held).toList.map Prod.snd := by
    rw [hall]
    exact mem_map_of_mem ho
  obtain ⟨x, hx, hmoved⟩ := mem_map.mp hmem
  have hpart := h.partOf x hx
  rw [hmoved] at hpart
  exact ⟨x.1, hmoved ▸ subregion_of_mem_visits hx, hpart⟩

/-- **A partition needs axes whose lengths are signed words.** All of a longer one is nothing of it,
and a single index of it may be refused. -/
theorem Partitions.small (h : (holding r held).Partitions (holding r held).toList) (hr : r.Valid)
    (hpos : 0 < r.size) (hwords : r.size < modulus) : ∀ n ∈ r.shape, n < half := by
  have hlt : ∀ n ∈ r.shape, n < modulus := fun n hn =>
    (le_size_of_mem hpos hn).trans_lt hwords
  intro n hn
  by_contra hlong
  have hlong : half ≤ n := Nat.not_lt.mp hlong
  obtain ⟨s, hmem, rfl⟩ := mem_map.mp hn
  obtain ⟨i, hs⟩ := mem_iff_getElem?.mp hmem
  have hi : i < held.length := by
    rw [hlength, length_shape]
    exact (List.getElem?_eq_some_iff.mp hs).1
  have hh : held[i]? = some held[i] := getElem?_eq_getElem hi
  have hhalf : 0 < half := by decide
  cases hheld : held[i] with
  | true =>
    -- The sub-region has all of the axis, but the slice resolves to none of it.
    rw [hheld] at hh
    obtain ⟨o, ho⟩ := exists_visit hlength hpos
    obtain ⟨sub, hsub, hpart⟩ := h.exists_subregion ho
    have hj : i < o.pos.length := by
      rw [length_of_walked hlength (contains_of_mem_toList ho).2, ← hlength]
      exact hi
    obtain ⟨span, hspan, hget⟩ := resolve_of_subregion hlength hr (fun n hn => (hlt n hn).le) ho
      hsub hs hh (getElem?_eq_getElem hj)
    obtain ⟨t, ht, hcount, -⟩ := hpart.spanned i s hh hs
    have hzero : span.count = 0 := Slice.count_of_all hlong (hlt s.count hn) hspan
    rw [hget, Option.some.injEq] at ht
    have hsame : span.count = s.count := by
      rw [← hcount, ← ht]
      rfl
    omega
  | false =>
    -- One of the sub-regions has the last index that is a signed word, which no slice resolves to.
    rw [hheld] at hh
    obtain ⟨o, ho, hj⟩ := exists_visit_at hlength hpos hs hh (by omega : half - 1 < s.count)
    obtain ⟨sub, hsub, -⟩ := h.exists_subregion ho
    obtain ⟨span, hspan, -⟩ :=
      resolve_of_subregion hlength hr (fun n hn => (hlt n hn).le) ho hsub hs hh hj
    have := Slice.lt_of_resolve_index (by omega) hspan
    omega

end

end SubregionWalk

/-! ## Room for composing parts -/

theorem Span.Within.abs_step_lt {s : Span} {n : Nat} (h : s.Within n) (hmore : 1 < s.count) :
    |s.step| < n := by
  have hfirst := h.inside 0 (by omega)
  have hnext := h.inside 1 hmore
  simp only [coord, Nat.cast_zero, zero_mul, Nat.cast_one] at hfirst hnext
  rw [abs_lt]
  omega

namespace Region

variable {r : Region} {held : List Bool}

/-- The parts of a region are composed in words, if the axes of its source take up no more than half
of the words and the steps of its single positions are no longer than that. -/
theorem Valid.partsInWords_of_room (hr : r.Valid) (hlength : held.length = r.shape.length)
    (hroom : ∀ n ∈ r.source, 2 * n ≤ half)
    (hunit : ∀ s ∈ r.spans, s.count = 1 → 2 * |s.step| ≤ half) : r.PartsInWords held := by
  intro hpos p hp
  have hp := mem_positions.mp hp
  have hsize : 0 < (inner r.shape held p).size := by
    rw [size, shape_inner hlength hp]
    exact PositionWalk.size_spanned_pos held hpos
  refine hr.composesInWords_of_room (valid_inner hlength hp) rfl hsize hroom fun x hx _ => ?_
  obtain ⟨houter, hinner⟩ := of_mem_zip hx
  have hstep : x.2.step = 1 := by
    obtain ⟨i, hi, heq⟩ := getElem_of_mem hinner
    simp only [inner, Span.inners, getElem_zipWith] at heq
    rw [← heq, Span.inner]
    split <;> rfl
  obtain ⟨i, hi⟩ := mem_iff_getElem?.mp houter
  obtain ⟨n, hn, hwithin⟩ := exists_of_getElem? hr.within.flip hi
  have hcount : 0 < x.1.count := pos_of_mem hpos (mem_map_of_mem houter)
  rw [hstep, mul_one]
  by_cases hone : x.1.count = 1
  · exact hunit x.1 houter hone
  · have hlt := Span.Within.abs_step_lt hwithin (by omega)
    have := hroom n (mem_of_getElem? hn)
    omega

end Region

/-! ## Sub-regions -/

namespace Shape

/-- The name stands for the axis: it is counted from the first axis or back from the end. -/
def Names (rank : Nat) (axis : Int) (a : Nat) : Prop := a < rank ∧ (axis = a ∨ axis + rank = a)

instance (rank : Nat) (axis : Int) (a : Nat) : Decidable (Names rank axis a) :=
  inferInstanceAs (Decidable (_ ∧ _))

theorem normalizeAxis_eq_ok_iff_names {rank a : Nat} {axis : Int} :
    normalizeAxis axis rank = .ok a ↔ Names rank axis a := by
  rw [normalizeAxis_eq_ok_iff, Names]
  split <;> omega

end Shape

namespace SubregionWalk

variable {r : Region} {axes : List Int} {rank : Nat} {held : List Bool}

/-- The names are those of different axes, and these are the held ones. -/
def Spans (axes : List Int) (rank : Nat) (held : List Bool) : Prop :=
  ∃ named, List.Forall₂ (Shape.Names rank) axes named ∧ named.Nodup ∧ held = heldBy named rank

theorem spans_iff : Spans axes rank held ↔
    ∃ named, normalizeAxes axes rank = .ok named ∧ held = heldBy named rank := by
  simp only [Spans, normalizeAxes, distinctAxes_eq_ok, normalizeAxis_eq_ok_iff_names, and_assoc]

theorem length_heldBy (named : List Nat) (rank : Nat) : (heldBy named rank).length = rank := by
  simp [heldBy]

theorem Spans.length_eq (h : Spans axes rank held) : held.length = rank := by
  obtain ⟨named, -, -, rfl⟩ := h
  exact length_heldBy named rank

theorem start_eq_ok_iff {w : SubregionWalk} : start r axes = .ok w ↔
    ∃ held, Spans axes r.rank held ∧ r.shape.sizeChecked.isSome ∧ w = holding r held := by
  simp only [start_eq, bind_eq_ok, ensure_eq_ok, pure_eq_ok, spans_iff]
  constructor
  · rintro ⟨named, hnamed, -, hsize, rfl⟩
    exact ⟨_, ⟨named, hnamed, rfl⟩, hsize, rfl⟩
  · rintro ⟨_, ⟨named, hnamed, rfl⟩, hsize, rfl⟩
    exact ⟨named, hnamed, (), hsize, rfl⟩

/-- **The sub-regions of a walk are a partition of its region**, unless it is empty, just if no axis
is longer than the signed words. A region is walked along different axes of it if its size is a
word. In words a walk gives the same sub-regions unless it is stopped, which it is just if a number
met in composing one of them is no word. -/
theorem subregions_partition (hr : r.Built) (axes : List Int) :
    ((∃ w, start r axes = .ok w) ↔
      (∃ held, Spans axes r.rank held) ∧ r.shape.sizeChecked.isSome = true) ∧
    ∀ w, start r axes = .ok w →
      w.region = r ∧ Spans axes r.rank w.positions.held ∧ w.fault? = none ∧
      (w.Partitions w.toList ↔ r.size = 0 ∨ ∀ n ∈ r.shape, n < Word.half) ∧
      (∀ visits, w.toListInWords = .ok visits → visits = w.toList) ∧
      ((r.size = 0 ∨ ∀ n ∈ r.shape, n < Word.half) → w.toListInWords = do
        Word.ensure (r.PartsInWords w.positions.held)
        return w.toList) ∧
      ((∀ n ∈ r.source, 2 * n ≤ Word.half) →
        (∀ s ∈ r.spans, s.count = 1 → 2 * |s.step| ≤ Word.half) →
          w.toListInWords = .ok w.toList ∧ w.Partitions w.toList) := by
  have hvalid := hr.valid
  constructor
  · simp only [start_eq_ok_iff]
    constructor
    · rintro ⟨w, held, hspans, hsize, -⟩
      exact ⟨⟨held, hspans⟩, hsize⟩
    · rintro ⟨⟨held, hspans⟩, hsize⟩
      exact ⟨_, held, hspans, hsize, rfl⟩
  intro w hw
  obtain ⟨held, hspans, hsize, rfl⟩ := start_eq_ok_iff.mp hw
  have hlength := hspans.length_eq.trans (Region.length_shape r).symm
  have hpartition := partitions_of_small hlength hvalid
  refine ⟨rfl, hspans, fault?_holding hlength hvalid hsize, ⟨fun h => ?_, hpartition⟩,
    fun visits => eq_visits_of_visitsInWords, toListInWords_holding hlength hvalid,
    fun hroom hunit => ?_⟩
  · by_cases h0 : r.size = 0
    · exact .inl h0
    · obtain ⟨n, hn⟩ := Option.isSome_iff_exists.mp hsize
      have hwords : r.size < Word.modulus := by
        rw [Region.size, Shape.size_of_sizeChecked hn]
        exact Shape.lt_of_sizeChecked hn
      exact .inr (h.small hlength hvalid (Nat.pos_of_ne_zero h0) hwords)
  · have hsmall : ∀ n ∈ r.shape, n < Word.half := by
      intro n hn
      obtain ⟨m, hm, hle⟩ := hvalid.exists_le_of_mem_shape hn
      have hhalf : 0 < Word.half := by decide
      have := hroom m hm
      omega
    rw [toListInWords_holding hlength hvalid (.inr hsmall),
      Word.ensure_of (hvalid.partsInWords_of_room hlength hroom hunit)]
    exact ⟨rfl, hpartition (.inr hsmall)⟩

/-- Every other row of four, the last one first, and the last two of three columns. -/
def sparseRows : Region :=
  ⟨[4, 3], none, [⟨3, -1, -2, 2⟩, ⟨1, 3, 1, 2⟩], false, .none⟩

theorem built_sparseRows : sparseRows.Built :=
  @Built.ofSlices [4, 3] [.range none none (-2), .range (some 1) none 1] sparseRows rfl

theorem subregions_partition_rows : ∃ w, start sparseRows [-1] = .ok w ∧
    w.toListInWords = .ok w.toList ∧ w.Partitions w.toList ∧
    w.toList.map (fun x => (x.1.spans, x.2.usedPos)) =
      [([⟨3, 1, -2, 1⟩, ⟨1, 3, 1, 2⟩], [0]), ([⟨1, -1, -2, 1⟩, ⟨1, 3, 1, 2⟩], [1])] := by
  obtain ⟨hstart, hwalk⟩ := subregions_partition built_sparseRows [-1]
  obtain ⟨w, hw⟩ := hstart.mpr ⟨⟨[false, true], [1], by decide, by decide, by decide⟩, by decide⟩
  obtain ⟨-, -, -, -, -, -, hwords⟩ := hwalk w hw
  obtain ⟨htoList, hpartition⟩ := hwords (by decide) (by decide)
  refine ⟨w, hw, htoList, hpartition, ?_⟩
  obtain rfl := Except.ok.inj hw
  rfl

/-- All of a square is its only sub-region that spans both axes. It is not met, as the square has
more items than there are words. -/
theorem uncounted_region_is_not_walked :
    (Region.full [8589934592, 8589934592]).Built ∧
    start (Region.full [8589934592, 8589934592]) [0, 1] = .error (.fault .overflow) :=
  ⟨.full _, rfl⟩

end SubregionWalk

end Hyperslab
