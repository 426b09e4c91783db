import Hyperslab.Layout
import Mathlib.Data.List.Forall2
import Mathlib.Data.List.Nodup
import Mathlib.Tactic.Ring

/-!
# Row-major numbering

The positions of a shape are numbered in row-major order: `ravel` gives the number of a position and
`unravel` the position of a number. The two are inverse to each other below the size of the shape,
`positions` lists the positions by their number, and the packed strides of a shape displace a
position by its number of items.
-/
namespace Hyperslab

open List

namespace Shape

variable {s : Shape} {p q : Position} {d i : Nat}

/-- The row-major number of a position. -/
def ravel : Shape → Position → Nat
  | _ :: s, i :: p => i * size s + ravel s p
  | _, _ => 0

@[simp] theorem ravel_nil (p : Position) : ravel [] p = 0 := rfl

@[simp] theorem ravel_cons (d : Nat) (s : Shape) (i : Nat) (p : Position) :
    ravel (d :: s) (i :: p) = i * size s + ravel s p := rfl

theorem size_eq_prod (s : Shape) : s.size = s.prod := by
  induction s with
  | nil => rfl
  | cons d s ih => simp [ih]

/-! ## Positions of a shape -/

theorem contains_iff_forall₂ : s.contains p ↔ Forall₂ (· < ·) p s := by
  induction s generalizing p with
  | nil => cases p <;> simp [contains]
  | cons d s ih => cases p <;> simp [contains, ih]

theorem contains_iff_getElem : s.contains p ↔
    p.length = s.length ∧ ∀ (i : Nat) (hp : i < p.length) (hs : i < s.length), p[i] < s[i] := by
  rw [contains_iff_forall₂, forall₂_iff_get]
  rfl

@[simp] theorem contains_cons : contains (d :: s) (i :: p) ↔ i < d ∧ s.contains p := by
  simp [contains]

@[simp] theorem contains_nil : contains [] p ↔ p = [] := by
  cases p <;> simp [contains]

theorem length_of_contains (h : s.contains p) :
    p.length = s.length := (contains_iff_forall₂.mp h).length_eq

theorem exists_of_contains_cons
    (h : contains (d :: s) p) : ∃ i q, p = i :: q ∧ i < d ∧ s.contains q := by
  cases p with
  | nil => simp [contains] at h
  | cons i q => exact ⟨i, q, rfl, contains_cons.mp h⟩

theorem size_pos_of_contains (h : s.contains p) : 0 < s.size := by
  induction s generalizing p with
  | nil => simp
  | cons d s ih =>
    obtain ⟨i, q, rfl, hi, hq⟩ := exists_of_contains_cons h
    exact Nat.mul_pos (by omega) (ih hq)

theorem ravel_lt (h : s.contains p) : s.ravel p < s.size := by
  induction s generalizing p with
  | nil => simp
  | cons d s ih =>
    obtain ⟨i, q, rfl, hi, hq⟩ := exists_of_contains_cons h
    calc ravel (d :: s) (i :: q) < i * size s + size s := Nat.add_lt_add_left (ih hq) _
      _ = (i + 1) * size s := by ring
      _ ≤ d * size s := Nat.mul_le_mul_right _ hi

/-! ## The position of a number -/

theorem unravel_mul_add (k i : Nat) (s : Shape) : unravel (k * size s + i) s = unravel i s := by
  induction s generalizing k with
  | nil => rfl
  | cons d s ih =>
    have hi : k * (d * size s) + i = k * d * size s + i := by ring
    simp only [unravel, size_cons, hi, ih]
    congr 1
    rcases Nat.eq_zero_or_pos (size s) with h | h
    · simp [h]
    · rw [Nat.add_comm, Nat.add_mul_div_right _ _ h, Nat.add_mul_mod_self_right]

theorem unravel_cons {j : Nat} (hi : i < d) (hj : j < size s) :
    unravel (i * size s + j) (d :: s) = i :: unravel j s := by
  have hquot : (i * size s + j) / size s = i := by
    rw [Nat.mul_comm, Nat.mul_add_div (by omega), Nat.div_eq_of_lt hj, Nat.add_zero]
  rw [unravel, hquot, Nat.mod_eq_of_lt hi, unravel_mul_add]

theorem contains_unravel (h : 0 < s.size) (i : Nat) : s.contains (unravel i s) := by
  induction s with
  | nil => rfl
  | cons d s ih =>
    have hd : 0 < d := Nat.pos_of_mul_pos_right h
    have hs : 0 < size s := Nat.pos_of_mul_pos_left h
    exact contains_cons.mpr ⟨Nat.mod_lt _ hd, ih hs⟩

theorem unravel_ravel (h : s.contains p) : unravel (s.ravel p) s = p := by
  induction s generalizing p with
  | nil => rw [contains_nil.mp h]; rfl
  | cons d s ih =>
    obtain ⟨i, q, rfl, hi, hq⟩ := exists_of_contains_cons h
    rw [ravel_cons, unravel_cons hi (ravel_lt hq), ih hq]

theorem ravel_unravel (h : i < s.size) : s.ravel (unravel i s) = i := by
  induction s generalizing i with
  | nil => simp at h; simp [h]
  | cons d s ih =>
    have hs : 0 < size s := Nat.pos_of_ne_zero fun h0 => by simp [h0] at h
    have hquot : i / size s < d := Nat.div_lt_of_lt_mul (by rwa [Nat.mul_comm])
    have hi : i = i / size s * size s + i % size s := by
      rw [Nat.mul_comm]; exact (Nat.div_add_mod i (size s)).symm
    have hmod : i % size s < size s := Nat.mod_lt _ hs
    rw [hi, unravel_cons hquot hmod, ravel_cons, ih hmod]

theorem ravel_inj (hp : s.contains p) (hq : s.contains q) (h : s.ravel p = s.ravel q) : p = q := by
  rw [← unravel_ravel hp, h, unravel_ravel hq]

/-- Positions stay apart under another shape of the same size. -/
theorem unravel_ravel_inj {t : Shape} (hsize : s.size = t.size) (hp : t.contains p)
    (hq : t.contains q) (h : unravel (t.ravel p) s = unravel (t.ravel q) s) : p = q := by
  have hravel := congrArg s.ravel h
  rw [ravel_unravel (hsize ▸ ravel_lt hp), ravel_unravel (hsize ▸ ravel_lt hq)] at hravel
  exact ravel_inj hp hq hravel

/-! ## The list of positions -/

theorem range_mul (m n : Nat) :
    range (m * n) = (range m).flatMap fun i => (range n).map (i * n + ·) := by
  induction m with
  | zero => simp
  | succ m ih => rw [Nat.succ_mul, range_add, ih, range_succ, flatMap_append]; simp

theorem enumerate_eq (s : Shape) : enumerate s = (range s.size).map (unravel · s) := by
  induction s with
  | nil => rfl
  | cons d s ih =>
    rw [enumerate, size_cons, range_mul, map_flatMap, ih]
    refine flatMap_congr fun i hi => ?_
    rw [map_map, map_map]
    refine map_congr_left fun j hj => ?_
    exact (unravel_cons (mem_range.mp hi) (mem_range.mp hj)).symm

theorem positions_eq (s : Shape) : s.positions = (range s.size).map (unravel · s) := by
  unfold positions
  split
  · rename_i h; simp [h]
  · exact enumerate_eq s

@[simp] theorem length_positions (s : Shape) : s.positions.length = s.size := by
  simp [positions_eq]

theorem mem_positions : p ∈ s.positions ↔ s.contains p := by
  rw [positions_eq, mem_map]
  constructor
  · rintro ⟨i, hi, rfl⟩
    have hi : i < s.size := mem_range.mp hi
    exact contains_unravel (by omega) i
  · intro h
    exact ⟨s.ravel p, mem_range.mpr (ravel_lt h), unravel_ravel h⟩

theorem nodup_positions (s : Shape) : s.positions.Nodup := by
  rw [positions_eq]
  refine Nodup.map_on ?_ nodup_range
  intro i hi j hj h
  have := congrArg s.ravel h
  rwa [ravel_unravel (mem_range.mp hi), ravel_unravel (mem_range.mp hj)] at this

theorem getElem?_positions (h : s.contains p) : s.positions[s.ravel p]? = some p := by
  have hlt := ravel_lt h
  simp [positions_eq, hlt, unravel_ravel h]

/-- A list with one entry for each position of a shape, read at a position. -/
theorem getElem?_map_positions {α : Type} (f : Position → α)
    (h : s.contains p) : (s.positions.map f)[s.ravel p]? = some (f p) := by
  rw [getElem?_map, getElem?_positions h, Option.map_some]

/-- The position that a map which repeats nothing takes to `q`. -/
theorem find?_positions_eq_some {φ : Position → Position}
    (hinj : ∀ p p', s.contains p → s.contains p' = true → φ p = φ p' → p = p') (hp : s.contains p)
    (hpq : φ p = q) : (s.positions.find? fun p => φ p == q) = some p := by
  obtain ⟨p', hp'⟩ : ∃ p', (s.positions.find? fun p => φ p == q) = some p' := by
    rw [← Option.isSome_iff_exists, find?_isSome]
    exact ⟨p, mem_positions.mpr hp, by simp [hpq]⟩
  have hmem := mem_positions.mp (mem_of_find?_eq_some hp')
  have heq : φ p' = q := by simpa using find?_some hp'
  rw [hp', hinj p' p hmem hp (heq.trans hpq.symm)]

theorem find?_positions_eq_none {φ : Position → Position}
    (h : ∀ p, s.contains p → φ p ≠ q) : (s.positions.find? fun p => φ p == q) = none := by
  rw [find?_eq_none]
  exact fun p hp => by simpa using h p (mem_positions.mp hp)

theorem pos_of_mem (h : 0 < s.size) (hd : d ∈ s) : 0 < d := by
  induction s with
  | nil => simp at hd
  | cons e s ih =>
    rcases mem_cons.mp hd with rfl | hd
    · exact Nat.pos_of_mul_pos_right h
    · exact ih (Nat.pos_of_mul_pos_left h) hd

theorem size_pos (h : ∀ d ∈ s, 0 < d) : 0 < s.size := by
  induction s with
  | nil => exact Nat.one_pos
  | cons d s ih => exact Nat.mul_pos (h d mem_cons_self) (ih fun e he => h e (mem_cons_of_mem d he))

theorem le_size_of_mem (h : 0 < s.size) (hd : d ∈ s) : d ≤ s.size := by
  induction s with
  | nil => simp at hd
  | cons e s ih =>
    have he : 0 < e := Nat.pos_of_mul_pos_right h
    have hs : 0 < size s := Nat.pos_of_mul_pos_left h
    rcases mem_cons.mp hd with rfl | hd
    · exact Nat.le_mul_of_pos_right _ hs
    · exact (ih hs hd).trans (Nat.le_mul_of_pos_left _ he)

/-! ## Packed strides -/

theorem extent_eq {itemSize : Nat} (hk : 0 < itemSize) (hs : 0 < s.size)
    (h : s.size * itemSize < Word.half) : extent itemSize s = (s.size * itemSize : Nat) := by
  induction s with
  | nil => simp only [size_nil, Nat.one_mul] at h; simp [extent, h]
  | cons d s ih =>
    have hd : 0 < d := Nat.pos_of_mul_pos_right hs
    have hs : 0 < size s := Nat.pos_of_mul_pos_left hs
    have hle : size s * itemSize ≤ size (d :: s) * itemSize :=
      Nat.mul_le_mul_right _ (Nat.le_mul_of_pos_left _ hd)
    have hdle : d ≤ size (d :: s) * itemSize :=
      (Nat.le_mul_of_pos_right d hs).trans (Nat.le_mul_of_pos_right _ hk)
    have hmax : max d 1 = d := by omega
    rw [extent, ih hs (by omega), hmax, Word.signed_of_lt (by omega), size_cons]
    push_cast
    ring

/-- **Packed strides displace a position by its number of items.** -/
theorem offset_strides {itemSize : Nat} (hk : 0 < itemSize)
    (hp : s.contains p) (h : s.size * itemSize < Word.half) :
    (s.strides itemSize).offset p = (s.ravel p * itemSize : Nat) := by
  induction s generalizing p with
  | nil => simp [strides, Strides.offset]
  | cons d s ih =>
    obtain ⟨i, q, rfl, hi, hq⟩ := exists_of_contains_cons hp
    have hs : 0 < size s := size_pos_of_contains hq
    have hle : size s * itemSize ≤ size (d :: s) * itemSize :=
      Nat.mul_le_mul_right _ (Nat.le_mul_of_pos_left _ (by omega))
    rw [strides, Strides.offset_cons, ih hq (by omega), extent_eq hk hs (by omega), ravel_cons]
    push_cast
    ring

end Shape

end Hyperslab
