import Hyperslab.Proofs.Geometry

/-!
# Where an odometer stands

An odometer never computes an index from a position. It moves the index of each operand by that
operand's strides, and a step along an axis that is at its end is taken back. The invariant `Exact`
says that the indices are nevertheless those of the upcoming position, so each visit of a view in a
buffer is inside that buffer. The positions come in row-major order, each of them once.
-/
namespace Hyperslab

open List Shape

theorem Shape.contains_set {s : Shape} {p : Position} (h : s.contains p) {j i d : Nat}
    (hd : s[j]? = some d) (hi : i < d) : s.contains (p.set j i) := by
  induction s generalizing p j with
  | nil => simp at hd
  | cons e s ih =>
    obtain ⟨k, p, rfl, hk, hp⟩ := exists_of_contains_cons h
    cases j with
    | zero =>
      simp only [getElem?_cons_zero, Option.some.injEq] at hd
      simp [hd, hi, hp]
    | succ j => simpa [hk] using ih hp hd

theorem Shape.ravel_set {s : Shape} {p : Position} {j : Nat} (h : s.contains p) (hj : j < p.length)
    (i : Nat) :
    s.ravel (p.set j i) + p[j] * size (s.drop (j + 1)) = s.ravel p + i * size (s.drop (j + 1)) := by
  induction s generalizing p j with
  | nil =>
    rw [contains_nil.mp h] at hj
    simp at hj
  | cons d s ih =>
    obtain ⟨k, p, rfl, -, hp⟩ := exists_of_contains_cons h
    cases j with
    | zero =>
      simp only [set_cons_zero, ravel_cons, getElem_cons_zero, drop_succ_cons, drop_zero]
      omega
    | succ j =>
      have := ih hp (by simpa using hj)
      simp only [set_cons_succ, ravel_cons, getElem_cons_succ, drop_succ_cons]
      omega

namespace Odometer

variable {p : Position} {starts : List Int} {o o' : Odometer}

/-- The index of each operand at a position, over exact integers. -/
def indicesAt (starts : List Int) (strides : List Strides) (p : Position) : List Int :=
  List.zipWith (fun start ts => start + Strides.offset ts p) starts strides

/-- A step of `k` along axis `j` moves every operand by `k` of its strides. -/
theorem shift_indicesAt (starts : List Int) (strides : List Strides) {j : Nat}
    (hj : j < p.length) (i : Nat) :
    shift strides j (i - (p[j] : Int)) (indicesAt starts strides p) =
      indicesAt starts strides (p.set j i) := by
  induction starts generalizing strides with
  | nil => simp [indicesAt, shift]
  | cons start starts ih =>
    cases strides with
    | nil => simp [indicesAt, shift]
    | cons ts strides =>
      have := ih strides
      simp only [indicesAt, shift, zipWith_cons_cons, Strides.offset_set ts p hj i,
        Int.add_assoc] at this ⊢
      rw [this]

private theorem shift_shift (strides : List Strides) (j : Nat) (k l : Int) (offsets : List Int) :
    shift strides j k (shift strides j l offsets) = shift strides j (l + k) offsets := by
  induction offsets generalizing strides with
  | nil => simp [shift]
  | cons o offsets ih =>
    cases strides with
    | nil => simp [shift]
    | cons ts strides =>
      have := ih strides
      simp only [shift, zipWith_cons_cons] at this ⊢
      rw [this, Int.add_mul, Int.add_assoc]

theorem advance_eq_some {shape : Shape} {strides : List Strides} {axes : Nat} {p' : Position}
    {offsets : List Int} (haxes : axes ≤ shape.length) (hp : shape.contains p)
    (h : advance shape strides axes p (indicesAt starts strides p) = some (p', offsets)) :
    shape.contains p' = true ∧ offsets = indicesAt starts strides p' := by
  induction axes generalizing p with
  | zero => simp [advance] at h
  | succ j ih =>
    have hlength := length_of_contains hp
    have hj : j < p.length := by omega
    have hd : shape[j]? = some shape[j] := getElem?_eq_getElem (by omega)
    have hlt : p[j] < shape[j] := by
      have := contains_iff_forall₂.mp hp
      exact this.get hj (by omega)
    simp only [advance, getElem?_eq_getElem hj, hd, Option.getD_some] at h
    split at h
    · rename_i hnext
      obtain ⟨rfl, rfl⟩ := h
      refine ⟨contains_set hp hd hnext, ?_⟩
      rw [← shift_indicesAt starts strides hj]
      congr 1
      omega
    · -- The axis is at its end: one step too far and all of the axis back leads to 0.
      refine ih (by omega) (contains_set hp hd (by omega : 0 < shape[j])) ?_
      rw [← h, shift_shift, ← shift_indicesAt starts strides hj]
      congr 2
      omega

/-- Moving on leads to the position with the next number. The axes behind the first `axes` are back
at 0 by then and have been counted; if none of the others can advance, the walk is at its end. -/
theorem ravel_advance {shape : Shape} {strides : List Strides} {axes : Nat}
    {offsets : List Int} (haxes : axes ≤ shape.length) (hp : shape.contains p) :
    (advance shape strides axes p offsets).elim
      (shape.size ≤ shape.ravel p + size (shape.drop axes))
      fun ahead => shape.ravel ahead.1 = shape.ravel p + size (shape.drop axes) := by
  induction axes generalizing p offsets with
  | zero => simp [advance]
  | succ j ih =>
    have hlength := length_of_contains hp
    have hj : j < p.length := by omega
    have hd : shape[j]? = some shape[j] := getElem?_eq_getElem (by omega)
    have hlt : p[j] < shape[j] := (contains_iff_forall₂.mp hp).get hj (by omega)
    simp only [advance, getElem?_eq_getElem hj, hd, Option.getD_some]
    by_cases hnext : p[j] + 1 < shape[j]
    · have hset := ravel_set hp hj (p[j] + 1)
      rw [Nat.add_mul] at hset
      rw [if_pos hnext, Option.elim_some]
      dsimp only
      omega
    · -- One more round of the later axes leads to the end of this one.
      have hset := ravel_set hp hj 0
      have hround : size (shape.drop j) =
          p[j] * size (shape.drop (j + 1)) + size (shape.drop (j + 1)) := by
        rw [drop_eq_getElem_cons (by omega), size_cons, ← Nat.succ_mul]
        congr 1
        omega
      have hsum : shape.ravel (p.set j 0) + size (shape.drop j) =
          shape.ravel p + size (shape.drop (j + 1)) := by omega
      rw [if_neg hnext, ← hsum]
      exact ih (by omega) (contains_set hp hd (by omega : 0 < shape[j]))

/-- The odometer stands at a position of its shape, with the operands' indices there. -/
structure Exact (o : Odometer) (starts : List Int) : Prop where
  contains : ∀ p, o.upcoming = some p → o.shape.contains p = true
  offsets_eq : ∀ p, o.upcoming = some p → o.offsets = indicesAt starts o.strides p

theorem exact_start (s : Shape) (operands : List Operand) :
    (start s operands).Exact (operands.map Operand.start) := by
  have horigin : ∀ p, (start s operands).upcoming = some p → p = s.origin ∧ 0 < s.size := by
    intro p hp
    simp only [start] at hp
    split at hp
    · simp at hp
    · exact ⟨(Option.some.inj hp).symm, by omega⟩
  refine ⟨fun p hp => ?_, fun p hp => ?_⟩
  · obtain ⟨rfl, hs⟩ := horigin p hp
    exact contains_origin hs
  · obtain ⟨rfl, -⟩ := horigin p hp
    simp only [start, indicesAt]
    clear hp horigin
    induction operands with
    | nil => rfl
    | cons a operands ih =>
      rw [map_cons, map_cons, zipWith_cons_cons, ← ih, Strides.offset_origin, Int.add_zero]

/-- A visit is at a position of the shape, with the operands' indices there, and the odometer goes
on from a position with its indices. -/
theorem Exact.next (h : o.Exact starts)
    (hnext : o.next? = some o') : o'.Exact starts ∧ o'.shape = o.shape ∧ o'.strides = o.strides ∧
      o.shape.contains o'.pos ∧ o'.current = indicesAt starts o.strides o'.pos := by
  simp only [next?, Option.map_eq_some_iff] at hnext
  obtain ⟨p, hp, rfl⟩ := hnext
  have hcontains := h.contains p hp
  have hoffsets := h.offsets_eq p hp
  refine ⟨?_, rfl, rfl, hcontains, hoffsets⟩
  simp only [hoffsets]
  cases hahead : advance o.shape o.strides o.shape.length p (indicesAt starts o.strides p) with
  | none => constructor <;> simp
  | some ahead =>
    obtain ⟨p', offsets⟩ := ahead
    obtain ⟨hp', rfl⟩ := advance_eq_some le_rfl hcontains hahead
    refine ⟨fun q hq => ?_, fun q hq => ?_⟩
    · exact Option.some.inj hq ▸ hp'
    · exact Option.some.inj hq ▸ rfl

theorem Exact.mem_visits {n : Nat} (h : o.Exact starts) (hmem : o' ∈ visits n o) :
    o.shape.contains o'.pos ∧ o'.current = indicesAt starts o.strides o'.pos := by
  induction n generalizing o with
  | zero => simp [visits] at hmem
  | succ n ih =>
    unfold visits at hmem
    split at hmem
    · simp at hmem
    · rename_i o₁ hnext
      obtain ⟨hexact, hshape, hstrides, hpos, hcurrent⟩ := h.next hnext
      rcases mem_cons.mp hmem with rfl | hmem
      · exact ⟨hpos, hcurrent⟩
      · rw [← hshape, ← hstrides]
        exact ih hexact hmem

/-- The position with number `i` comes next, or none if there are no more than `i` positions. -/
def StandsAt (o : Odometer) (i : Nat) : Prop :=
  o.upcoming = if i < o.shape.size then some (Shape.unravel i o.shape) else none

theorem standsAt_start (s : Shape) (operands : List Operand) : (start s operands).StandsAt 0 := by
  have hravel (s : Shape) : s.ravel s.origin = 0 := by
    induction s with
    | nil => rfl
    | cons d s ih => simp [ih]
  by_cases hs : s.size = 0
  · simp [StandsAt, start, hs]
  · have hpos : 0 < s.size := by omega
    have horigin : unravel 0 s = s.origin := by
      rw [← hravel s, unravel_ravel (contains_origin hpos)]
    simp only [StandsAt, start, if_neg hs, if_pos hpos, horigin]
    rfl

/-- A visit is at the position that comes next, and the one behind it comes next then. -/
theorem Exact.standsAt_next {i : Nat} (h : o.Exact starts)
    (hi : i < o.shape.size) (hat : o.StandsAt i) (hnext : o.next? = some o') :
    o'.pos = unravel i o.shape ∧ o'.StandsAt (i + 1) := by
  rw [StandsAt, if_pos hi] at hat
  have hcontains := h.contains _ hat
  have hahead := @ravel_advance _ _ o.strides _ o.offsets le_rfl hcontains
  rw [ravel_unravel hi, drop_length, size_nil] at hahead
  simp only [next?, hat, Option.map_some, Option.some.injEq] at hnext
  subst hnext
  refine ⟨rfl, ?_⟩
  simp only [StandsAt]
  cases hstep : advance o.shape o.strides o.shape.length (unravel i o.shape) o.offsets with
  | none =>
    rw [hstep, Option.elim_none] at hahead
    rw [if_neg (by omega), Option.map_none]
  | some ahead =>
    rw [hstep, Option.elim_some] at hahead
    rw [h.offsets_eq _ hat] at hstep
    have hp := (advance_eq_some le_rfl hcontains hstep).1
    have hlt := ravel_lt hp
    rw [if_pos (by omega), Option.map_some, ← hahead, unravel_ravel hp]

/-- From the position with number `i` on, the next `n` visits are those with the next numbers. -/
theorem Exact.visits_eq {i n : Nat} (h : o.Exact starts)
    (hn : i + n = o.shape.size) (hat : o.StandsAt i) :
    (visits n o).map (fun v => (v.pos, v.current)) = (range' i n).map fun k =>
      (unravel k o.shape, indicesAt starts o.strides (unravel k o.shape)) := by
  induction n generalizing o i with
  | zero => rfl
  | succ n ih =>
    have hi : i < o.shape.size := by omega
    obtain ⟨o', hnext⟩ : ∃ o', o.next? = some o' := by
      rw [StandsAt, if_pos hi] at hat
      simp [next?, hat]
    obtain ⟨hexact, hshape, hstrides, -, hcurrent⟩ := h.next hnext
    obtain ⟨hpos, hat'⟩ := h.standsAt_next hi hat hnext
    have hrest := ih hexact (by rw [hshape]; omega) hat'
    rw [hshape, hstrides] at hrest
    rw [visits, hnext, map_cons, hrest, hcurrent, hpos, range'_succ, map_cons]

/-- **A walk visits every position once, in row-major order, with the operands' indices there.** -/
theorem toList_start (s : Shape) (operands : List Operand) :
    (start s operands).toList.map (fun v => (v.pos, v.current)) = s.positions.map fun p =>
      (p, indicesAt (operands.map Operand.start) (operands.map Operand.strides) p) := by
  rw [positions_eq, map_map, range_eq_range']
  exact (exact_start s operands).visits_eq (Nat.zero_add _) (standsAt_start s operands)

end Odometer

namespace Geometry

theorem mem_walk {g : Geometry} {o : Odometer} (h : o ∈ g.walk.toList) :
    g.shape.contains o.pos ∧ o.index 0 = g.indexOf o.pos := by
  obtain ⟨hpos, hcurrent⟩ := (Odometer.exact_start g.shape _).mem_visits h
  exact ⟨hpos, by simp [Odometer.index, hcurrent, Odometer.indicesAt, Odometer.start, indexOf]⟩

/-- **A walk of a geometry inside a buffer never leaves the buffer.** -/
theorem Inside.walk_inside {g : Geometry} {length : Nat} (h : g.Inside length) {o : Odometer}
    (ho : o ∈ g.walk.toList) : o.index 0 + g.itemSize ≤ length := by
  obtain ⟨hpos, hindex⟩ := mem_walk ho
  rw [hindex]
  exact h.indexOf_add_le hpos

end Geometry

end Hyperslab
