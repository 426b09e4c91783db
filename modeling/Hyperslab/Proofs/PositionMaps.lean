import Hyperslab.Proofs.Region
import Mathlib.Data.List.InsertIdx

/-!
# Maps of positions

Exchanging two axes, moving one, and reversing one: what each does to the coordinates of a position,
and that the orders of axes and the regions which stand for it do the same.
-/
namespace Hyperslab

open List Word

/-! ## Coordinates -/

namespace Position

/-- Two coordinates exchanged. -/
def exchange (a b : Nat) (q : Position) : Position := (q.set a (q.getD b 0)).set b (q.getD a 0)

/-- The coordinate of axis `i` as that of axis `j`, the others in their order. -/
def relocate (i j : Nat) (q : Position) : Position := (q.eraseIdx i).insertIdx j (q.getD i 0)

theorem length_relocate (q : Position) {i j : Nat} (hi : i < q.length) (hj : j < q.length) :
    (q.relocate i j).length = q.length := by
  have herase : (q.eraseIdx i).length = q.length - 1 := length_eraseIdx_of_lt hi
  rw [relocate, length_insertIdx_of_le_length (by omega), herase]
  omega

/-- The coordinate of one axis of a shape counted from its end. -/
def mirror (s : Shape) (a : Nat) (q : Position) : Position := q.modify a fun i => s.getD a 0 - 1 - i

/-- What shows at `q` when the plane of the first two axes has been turned by a number of right
angles and has the shape `t` now. -/
def turn (t : Shape) (q : Position) : Nat → Position
  | 0 => q
  | 1 => (q.mirror t 0).exchange 0 1
  | 2 => (q.mirror t 1).mirror t 0
  | _ => (q.mirror t 1).exchange 0 1

end Position

/-- The axis that a name stands for; negative names count from the end. -/
def Shape.axisOf (axis : Int) (rank : Nat) : Nat := (if axis < 0 then axis + rank else axis).toNat

theorem Shape.normalizeAxis_eq_ok {axis : Int} {rank a : Nat}
    (h : normalizeAxis axis rank = .ok a) : a = axisOf axis rank ∧ a < rank := by
  obtain ⟨ha, hlt⟩ := normalizeAxis_eq_ok_iff.mp h
  exact ⟨by rw [axisOf, ha, Int.toNat_natCast], hlt⟩

namespace Permutation

theorem apply_inverse_of_apply_eq {α : Type} {perm : List Nat} {p q : List α}
    (h : Orders perm p.length) (hpq : apply perm p = q) : apply (inverse perm) q = p := by
  rw [← hpq, apply_inverse_apply h]

/-! ### Two axes exchanged -/

/-- The order of axes with two of them exchanged. -/
def swap (rank a b : Nat) : List Nat :=
  (List.range rank).map fun i => if i = a then b else if i = b then a else i

theorem orders_swap {rank a b : Nat} (ha : a < rank) (hb : b < rank) :
    Orders (swap rank a b) rank := by
  refine orders_of_nodup (Nodup.map_on ?_ nodup_range) ?_ (by simp [swap])
  · intro i _ j _ hij
    grind
  · intro c hc
    simp only [swap, mem_map, mem_range] at hc
    obtain ⟨i, hi, rfl⟩ := hc
    split <;> [exact hb; split <;> [exact ha; exact hi]]

theorem apply_swap {rank a b : Nat} {q : Position} (hq : q.length = rank) (ha : a < rank)
    (hb : b < rank) : apply (swap rank a b) (q.exchange a b) = q := by
  have hlength : (q.exchange a b).length = rank := by simp [Position.exchange, hq]
  refine ext_getElem? fun i => ?_
  rw [getElem?_apply fun c hc => hlength ▸ (orders_swap ha hb).mem_iff.mp hc]
  rcases Nat.lt_or_ge i rank with hi | hi
  · simp only [swap, getElem?_map, getElem?_range hi, Option.map_some,
      Option.bind_some, Position.exchange, getElem?_set, getD_eq_getElem?_getD,
      length_set]
    grind
  · simp [swap, hi, hq]

/-! ### One axis moved -/

/-- The order of axes with one of them moved to another place. -/
def move (rank a place : Nat) : List Nat := ((List.range rank).filter (· ≠ a)).insertIdx place a

theorem move_eq {rank a : Nat} (ha : a < rank) (place : Nat) :
    move rank a place = ((range rank).eraseIdx a).insertIdx place a := by
  have hindex : (range rank).idxOf a = a := by
    have := nodup_range.idxOf_getElem a (length_range (n := rank) ▸ ha)
    rwa [getElem_range] at this
  rw [move, ← erase_eq_eraseIdx_of_idxOf hindex, nodup_range.erase_eq_filter]
  congr 1
  exact filter_congr fun i _ => by rw [Bool.eq_iff_iff]; simp

theorem orders_move {rank a place : Nat} (ha : a < rank) (hplace : place < rank) :
    Orders (move rank a place) rank := by
  have hlength : ((range rank).eraseIdx a).length = rank - 1 := by
    rw [length_eraseIdx_of_lt (by simpa using ha), length_range]
  have hself : ((range rank).eraseIdx a).insertIdx a a = range rank := by
    have := insertIdx_eraseIdx_getElem (l := range rank) (n := a) (by simpa using ha)
    rwa [getElem_range] at this
  -- Wherever the axis is put, it is put in front of the others up to their order.
  have hplaced := perm_insertIdx a ((range rank).eraseIdx a) (i := place) (by omega)
  have hback := perm_insertIdx a ((range rank).eraseIdx a) (i := a) (by omega)
  rw [hself] at hback
  rw [move_eq ha]
  exact hplaced.trans hback.symm

theorem apply_move {rank a place : Nat} {q : Position} (hq : q.length = rank) (ha : a < rank)
    (hplace : place < rank) : apply (move rank a place) (q.relocate place a) = q := by
  have hlength : (q.relocate place a).length = rank :=
    (q.length_relocate (hq ▸ hplace) (hq ▸ ha)).trans hq
  refine ext_getElem? fun i => ?_
  rw [getElem?_apply fun c hc => hlength ▸ (orders_move ha hplace).mem_iff.mp hc, move_eq ha]
  simp only [getElem?_insertIdx, getElem?_eraseIdx, Position.relocate,
    getD_eq_getElem?_getD, length_eraseIdx, length_range, hq]
  grind

end Permutation

/-! ### One axis from its end -/

namespace Region

theorem shape_flip {r r' : Region} {axis : Int} (h : r.flip axis = .ok r') :
    r'.shape = r.shape := by
  have hcount (s : Span) : s.flip.count = s.count := by
    unfold Span.flip
    split <;> rfl
  simp only [flip, bind_eq_ok, pure_eq_ok] at h
  obtain ⟨a, -, rfl⟩ := h
  refine ext_getElem? fun i => ?_
  rw [shape, shape, getElem?_map, getElem?_map, getElem?_modify]
  cases r.spans[i]? with
  | none => rfl
  | some s => by_cases hi : a = i <;> simp [hi, hcount]

/-- A shape with one axis in the opposite order, read at a position. -/
theorem sourcePosition_flip {s : Shape} {a : Nat} {q : Position}
    (hsmall : ∀ d ∈ s, d < half) (hq : s.contains q) :
    sourcePosition { full s with spans := (full s).spans.modify a Span.flip } q = q.mirror s a := by
  simp only [sourcePosition, coords, full, Position.mirror]
  induction s generalizing a q with
  | nil => rw [Shape.contains_nil.mp hq]; cases a <;> rfl
  | cons d s ih =>
    obtain ⟨i, q, rfl, hi, hq⟩ := Shape.exists_of_contains_cons hq
    have hd : d < half := hsmall d mem_cons_self
    have hs : ∀ d ∈ s, d < half := fun d hd => hsmall d (mem_cons_of_mem _ hd)
    have hmodulus : half ≤ modulus := by decide
    cases a with
    | zero =>
      have hsigned : 0 < signed (Span.full d).count := by
        rw [Span.full, signed_of_lt hd]
        omega
      have hcoord : (Span.full d).flip.coord i = ((d - 1 - i : Nat) : Int) := by
        rw [Span.coord_flip hsigned hi]
        simp only [Span.full, Span.coord]
        omega
      have hfull := sourcePosition_full (s := s) (fun e he => (hs e he).le.trans hmodulus) hq
      simp only [sourcePosition, coords, full] at hfull
      simp only [map_cons, modify_zero_cons, zipWith_cons_cons, hcoord, hfull, getD_cons_zero]
      rw [unsigned_natCast (by omega)]
    | succ a =>
      have hcoord : (Span.full d).coord i = (i : Int) := by simp [Span.full, Span.coord]
      simp only [map_cons, modify_succ_cons, zipWith_cons_cons, hcoord, ih hs hq, getD_cons_succ]
      rw [unsigned_natCast (by omega)]

end Region

end Hyperslab
