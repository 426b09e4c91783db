import Hyperslab.Proofs.CopiesAndViews
import Hyperslab.Proofs.Courses
import Hyperslab.Proofs.Transpositions

/-!
# Strides of admitted shapes

A shape is admitted if a buffer may have its elements. Packed strides are products of lengths from
the last axis on, in which an empty axis counts as one. Where there are items, none of the products
is larger than the number of elements. Without items nothing bounds them.
-/
namespace Hyperslab

open List Shape Word

namespace Shape

variable {s : Shape} {n : Nat}

/-- The products that packed strides are made of are what the last axes span. -/
theorem stridesFit_iff : s.stridesFit n ↔ ∀ t : Shape, t <:+ s → fits (t.extent n) := by
  induction s with
  | nil => simp [stridesFit]
  | cons d s ih =>
    rw [stridesFit, Bool.and_eq_true, ih]
    simp only [suffix_cons_iff, forall_eq_or_imp]

theorem stridesFit_iff_room (hn : 0 < n) (hlt : n < half) (hsmall : ∀ d ∈ s, d < half) :
    s.stridesFit n ↔ s.room n < half := by
  refine ⟨fun hfit => ?_, stridesFit_of_room hn⟩
  induction s with
  | nil => rwa [room, map_nil, size_nil, Nat.one_mul]
  | cons d s ih =>
    rw [forall_mem_cons] at hsmall
    rw [stridesFit, Bool.and_eq_true, fits_iff] at hfit
    have hmax : max d 1 < half := max_lt hsmall.1 (by decide)
    have hextent : extent n (d :: s) = (room n (d :: s) : Nat) := by
      rw [extent, extent_eq_room hn (ih hsmall.2 hfit.2), signed_of_lt hmax, room_cons,
        Nat.cast_mul, Int.mul_comm]
    omega

theorem extent_zero (s : Shape) : s.extent 0 = 0 := by
  induction s with
  | nil => rfl
  | cons d s ih => rw [extent, ih, Int.zero_mul]

/-- The last axes of a shape with items span as many elements as they have, which are no more than
all of them. -/
theorem extent_of_suffix {t : Shape} (ht : t <:+ s) (hpos : 0 < s.size) (hlt : s.size * n < half) :
    t.extent n = (t.size * n : Nat) ∧ t.size * n ≤ s.size * n := by
  obtain ⟨u, rfl⟩ := ht
  rw [size_append] at hpos hlt ⊢
  have hle : t.size * n ≤ size u * t.size * n :=
    Nat.mul_le_mul_right _ (Nat.le_mul_of_pos_left _ (Nat.pos_of_mul_pos_right hpos))
  refine ⟨?_, hle⟩
  rcases Nat.eq_zero_or_pos n with rfl | hn
  · rw [extent_zero, Nat.mul_zero, Nat.cast_zero]
  · exact extent_eq hn (Nat.pos_of_mul_pos_left hpos) (hle.trans_lt hlt)

end Shape

namespace Strides

/-- The displacements of the coordinates are added up, from `m` on, by steps in words. -/
theorem foldlM_offset {f : Int → Nat × Int → Except Error Int} (hf : ∀ z i t, fits (signed i * t) →
      fits (z + signed i * t) → f z (i, t) = .ok (z + signed i * t)) {s : Shape} {n m : Nat}
    {p : Position} (hp : s.contains p) (hlt : m + s.size * n < half) :
    (p.zip (s.strides n)).foldlM f (m : Int) = .ok ((m + s.ravel p * n : Nat) : Int) := by
  induction s generalizing p m with
  | nil =>
    obtain rfl : p = [] := by simpa using length_of_contains hp
    simp [strides, pure, Except.pure]
  | cons d s ih =>
    obtain ⟨i, q, rfl, hi, hq⟩ := exists_of_contains_cons hp
    have hs : 0 < size s := size_pos_of_contains hq
    have hsteps : i * (size s * n) + size s * n ≤ d * size s * n := by
      rw [← Nat.succ_mul, Nat.mul_assoc]
      exact Nat.mul_le_mul_right _ hi
    rw [size_cons] at hlt
    have hterm : signed i * extent n s = (i * (size s * n) : Nat) := by
      rcases Nat.eq_zero_or_pos n with rfl | hn
      · rw [extent_zero, Int.mul_zero, Nat.mul_zero, Nat.mul_zero, Nat.cast_zero]
      · have hle : i ≤ i * (size s * n) := Nat.le_mul_of_pos_right _ (Nat.mul_pos hs hn)
        rw [signed_of_lt (by omega), extent_eq hn hs (by omega)]
        push_cast
        rfl
    have hfit {z : Nat} (hz : z < half) : fits z := by
      rw [fits_iff]
      omega
    have hravel : m + i * (size s * n) + ravel s q * n = m + ravel (d :: s) (i :: q) * n := by
      rw [ravel_cons]
      ring
    have hstep : f m (i, extent n s) = .ok ((m + i * (size s * n) : Nat) : Int) := by
      rw [hf _ _ _ (hterm ▸ hfit (by omega)) (by rw [hterm, ← Nat.cast_add]; exact hfit (by omega)),
        hterm, ← Nat.cast_add]
    rw [strides, zip_cons_cons, foldlM_cons, hstep, ok_bind, ← hravel]
    exact ih hq (by omega)

theorem wordOffset_strides {s : Shape} {n : Nat} {p : Position} (hp : s.contains p)
    (hlt : s.size * n < half) : (s.strides n).wordOffset p = .ok (s.ravel p * n : Nat) := by
  have hoffset : (s.strides n).wordOffset p = .ok ((0 + s.ravel p * n : Nat) : Int) := by
    refine foldlM_offset (m := 0) (fun z i t hterm hsum => ?_) hp (by omega)
    simp only [hterm, hsum, Bool.and_self, if_true]
  rwa [Nat.zero_add] at hoffset

end Strides

theorem Geometry.wordIndexOf_dense {s : Shape} {n : Nat} {p : Position} (hn : 0 < n)
    (hp : s.contains p) (hlt : s.size * n < Word.half) :
    (Geometry.dense s n).wordIndexOf p = .ok (s.ravel p * n) := by
  have hle : s.ravel p * n < s.size * n := Nat.mul_lt_mul_of_pos_right (ravel_lt hp) hn
  have hfit : Word.fits (s.ravel p * n : Nat) := by
    rw [fits_iff]
    omega
  have hmodulus : Word.half < Word.modulus := by decide
  have hstart : Word.signed 0 + (s.ravel p * n : Nat) = (s.ravel p * n : Nat) := by
    rw [signed_of_lt (by decide), Nat.cast_zero, Int.zero_add]
  have hindex {o : Int} (ho : (s.strides n).wordOffset p = .ok o) : (dense s n).wordIndexOf p =
        if Word.fits (Word.signed 0 + o) then .ok (Word.unsigned (Word.signed 0 + o))
        else .error (.fault .overflow) := by
    rw [wordIndexOf, dense, ho]
    rfl
  rw [hindex (Strides.wordOffset_strides hp hlt), hstart, if_pos hfit, unsigned_natCast (by omega)]

namespace Dataset

/-- **Strides of admitted shapes fit where there are items.** Then every product that the packed
strides are made of is exact and no larger than the number of elements, so a packed dataset has its
strides, finds each of its items and is read in words. Without items, the strides of axes whose
lengths are signed words fit just if all axes together, empty ones counted as one, take up less than
half of the words; and only if they do can the dataset be asked for them. -/
theorem admitted_strides_fit (s : Shape) (n m : Nat) (hcount : elementCount s n = .ok m) :
    (0 < s.size → s.stridesFit n = true ∧
      ∀ t : Shape, t <:+ s → t.extent n = (t.size * n : Nat) ∧ t.size * n ≤ m) ∧
    (s.stridesFit n = true ↔ ∀ t : Shape, t <:+ s → Word.fits (t.extent n) = true) ∧
    (0 < n → n < Word.half → (∀ d ∈ s, d < Word.half) →
      (s.stridesFit n = true ↔ s.room n < Word.half)) ∧
    ∀ d : Block, d.Made → d.shape = s → d.itemSize = n →
      d.stridesInWords = s.stridesChecked n ∧
      d.toListInWords = (do Word.ensure (s.stridesFit n = true); return d.toList) ∧
      (0 < s.size → d.stridesInWords = .ok (s.strides n) ∧ d.toListInWords = .ok d.toList ∧
        ∀ p, s.contains p = true → d.geometry.wordIndexOf p = .ok (s.ravel p * n) ∧
          ∃ v, d.get p = .ok v) := by
  obtain ⟨rfl, hmax⟩ := elementCount_eq_ok hcount
  have hhalf : maxElements < Word.half := by decide
  have hsuffix (hpos : 0 < s.size) (t : Shape) (ht : t <:+ s) :=
    Shape.extent_of_suffix (n := n) ht hpos (by omega)
  have hfit (hpos : 0 < s.size) : s.stridesFit n = true := by
    refine Shape.stridesFit_iff.mpr fun t ht => ?_
    obtain ⟨hextent, hle⟩ := hsuffix hpos t ht
    rw [hextent, Word.fits_iff]
    omega
  refine ⟨fun hpos => ⟨hfit hpos, hsuffix hpos⟩, Shape.stridesFit_iff, Shape.stridesFit_iff_room, ?_⟩
  rintro d hd rfl rfl
  obtain ⟨hlayout, hgeometry⟩ :
      d.layout = .dense ∧ d.geometry = Geometry.dense d.shape d.itemSize := by
    obtain ⟨k, s, n, e, rfl, -⟩ := hd.eq_packed
    exact ⟨rfl, rfl⟩
  have hstrides : d.stridesInWords = d.shape.stridesChecked d.itemSize := by
    rw [Frame.stridesInWords, hlayout]
  have hlist := hd.sound.toListInWords_of_dense hlayout
  refine ⟨hstrides, hlist, fun hpos => ⟨?_, ?_, fun p hp => ⟨?_, hd.sound.get_eq_ok hp⟩⟩⟩
  · rw [hstrides, Shape.stridesChecked, if_pos (hfit hpos)]
  · rw [hlist, Word.ensure_of (hfit hpos)]
    rfl
  · rw [hgeometry]
    exact Geometry.wordIndexOf_dense hd.sound.itemSize_pos hp (hmax.trans_lt hhalf)

theorem admitted_strides_fit_pairs :
    elementCount [3, 2] 2 = .ok 12 ∧ Shape.stridesFit 2 [3, 2] = true ∧
      pairRows.toListInWords = .ok pairRows.toList ∧
      pairRows.geometry.wordIndexOf [2, 1] = .ok 10 := by
  obtain ⟨hfit, -, -, hmade⟩ := admitted_strides_fit [3, 2] 2 12 rfl
  have hpairs : pairRows.Made :=
    .ofElements (k := .int true .w32) (n := 2) (s := [3, 2])
      (l := (List.range 12).map fun i => Scalar.int i) rfl
  obtain ⟨-, -, hread⟩ := hmade pairRows hpairs rfl rfl
  obtain ⟨-, hlist, hindex⟩ := hread (by decide)
  exact ⟨rfl, (hfit (by decide)).1, hlist, (hindex [2, 1] rfl).1⟩

/-- A shape without items is admitted whatever its other lengths, and a product on the way to its
strides may be no word, even if they are. -/
theorem admitted_strides_overflow :
    elementCount [4, 0, 4611686018427387904] 1 = .ok 0 ∧
    Shape.strides 1 [4, 0, 4611686018427387904] = [4611686018427387904, 4611686018427387904, 1] ∧
    Shape.extent 1 [4, 0, 4611686018427387904] = 18446744073709551616 ∧
    ∃ d, zeros (.int true .w32) 1 [4, 0, 4611686018427387904] = .ok d ∧
      d.stridesInWords = .error (.fault .overflow) ∧ d.toListInWords = .error (.fault .overflow) :=
  ⟨rfl, rfl, rfl, _, rfl, rfl, rfl⟩

end Dataset

end Hyperslab
