import Hyperslab.Dataset.Reduction
import Hyperslab.Proofs.Broadcast
import Hyperslab.Proofs.Contents
import Hyperslab.Proofs.PositionMaps

/-!
# Folds along an axis

A fold along an axis moves the axis to the end and folds consecutive runs of items. Each run is made
of the items that differ in the coordinate of that axis only, in its order, so the result has at
every other position the fold of the items there.
-/
namespace Hyperslab

open List Permutation Shape Word

/-! ## A coordinate put in -/

theorem Position.set_insertIdx (q : Position) (a i j : Nat) :
    (q.insertIdx a i).set a j = q.insertIdx a j := by
  induction q generalizing a with
  | nil => cases a <;> rfl
  | cons k q ih =>
    cases a with
    | zero => rfl
    | succ a => simp [ih]

namespace Shape

variable {s : Shape} {q : Position} {a : Nat}

/-- The positions of a shape are those that lack an axis, with a coordinate of the axis put in. -/
theorem contains_insertIdx {n i : Nat} (ha : s[a]? = some n) (hi : i < n)
    (hq : contains (s.eraseIdx a) q) : s.contains (q.insertIdx a i) := by
  induction s generalizing a q with
  | nil => simp at ha
  | cons d s ih =>
    cases a with
    | zero =>
      simp only [getElem?_cons_zero, Option.some.injEq] at ha
      simpa [ha, hi] using hq
    | succ a =>
      rw [eraseIdx_cons_succ] at hq
      obtain ⟨k, q, rfl, hk, hq⟩ := exists_of_contains_cons hq
      rw [insertIdx_succ_cons, contains_cons]
      exact ⟨hk, ih ha hq⟩

theorem size_insertIdx (ha : a ≤ s.length) : size (s.insertIdx a 1) = s.size := by
  rw [size_eq_prod, (perm_insertIdx 1 s ha).prod_eq, prod_cons, Nat.one_mul, size_eq_prod]

theorem ravel_insertIdx (hq : s.contains q) (ha : a ≤ s.length) :
    ravel (s.insertIdx a 1) (q.insertIdx a 0) = s.ravel q := by
  induction s generalizing a q with
  | nil =>
    obtain rfl : a = 0 := by simpa using ha
    rw [contains_nil.mp hq]
    rfl
  | cons d s ih =>
    obtain ⟨i, q, rfl, hi, hq⟩ := exists_of_contains_cons hq
    cases a with
    | zero => simp
    | succ a =>
      have ha : a ≤ s.length := by simpa using ha
      simp [ih hq ha, size_insertIdx ha]

theorem positions_append (s : Shape) {n : Nat} (hn : 0 < n) :
    positions (s ++ [n]) = s.positions.flatMap fun q => (range n).map fun i => q ++ [i] := by
  have henumerate : enumerate (s ++ [n]) =
      (enumerate s).flatMap fun q => (range n).map fun i => q ++ [i] := by
    induction s with
    | nil => simp [enumerate, map_eq_flatMap]
    | cons d s ih =>
      simp only [cons_append, enumerate, ih, flatMap_assoc, map_flatMap, flatMap_map, map_map]
      rfl
  have hsize : size (s ++ [n]) = s.size * n := by simp [size_append]
  by_cases hs : s.size = 0
  · simp [positions, hsize, hs]
  · have hne : ¬ size (s ++ [n]) = 0 := by
      rw [hsize]
      exact (Nat.mul_pos (Nat.pos_of_ne_zero hs) hn).ne'
    rw [positions, if_neg hne, positions, if_neg hs, henumerate]

end Shape

namespace Dataset

variable {n : Nat} {f : Float → Float → Float} {init : Float}

/-! ## Runs -/

/-- Runs of one length that were put behind each other are found again. -/
theorem chunks_flatMap {α β : Type} {l : List α} {run : α → List β} (hn : 0 < n)
    (hrun : ∀ x ∈ l, (run x).length = n) : chunks n (l.flatMap run) = l.map run := by
  induction l with
  | nil => simp [chunks]
  | cons x l ih =>
    have hx : (run x).length = n := hrun x mem_cons_self
    have hne : ¬ (n = 0 ∨ run x ++ l.flatMap run = []) := by
      rintro (h | h)
      · omega
      · rw [append_eq_nil_iff] at h
        simp [h.1] at hx
        omega
    rw [flatMap_cons, chunks, if_neg hne, take_left' hx, drop_left' hx,
      ih fun y hy => hrun y (mem_cons_of_mem _ hy), map_cons]

variable {d : Block} {axis : Int} {a : Nat}

/-- The items along an axis, where the other coordinates are those of `q`. -/
def along (d : Block) (a : Nat) (q : Position) : List (List Scalar) :=
  (List.range (d.shape.getD a 0)).map fun i => d.item (q.insertIdx a i)

/-- The names of the axes with one of them moved to the end. -/
theorem rolling_last {f : Frame} (ha : a < f.rank) :
    f.rolling a f.rank = .ok ((move f.rank a (f.rank - 1)).map Int.ofNat) := by
  have haxis := normalizeAxis_natCast ha
  have hneg : ¬ (f.rank : Int) < 0 := by omega
  have hinside : ¬ ((f.rank : Int) < 0 ∨ (f.rank : Int) < f.rank) := by omega
  have hbefore : (a : Int) < f.rank := by omega
  have hplace : ((f.rank : Int) - 1).toNat = f.rank - 1 := by omega
  simp only [Frame.rolling, haxis, bind_eq_ok, if_neg hneg, if_neg hinside]
  refine ⟨a, rfl, ?_⟩
  rw [if_pos hbefore, hplace]
  rfl

theorem Sound.rollAxis_last (h : d.Sound) (hmeta : d.metadata = .empty) (ha : a < d.rank) :
    ∃ e : Block, d.rollAxis a d.rank = .ok e ∧ e.Sound ∧
      e.shape = d.shape.eraseIdx a ++ [d.shape.getD a 0] ∧
      ∀ q i, e.shape.contains (q ++ [i]) → e.item (q ++ [i]) = d.item (q.insertIdx a i) := by
  have hlast : d.rank - 1 < d.rank := by omega
  have hlength : d.rank = d.shape.length := rfl
  have horders := orders_move ha hlast
  -- The move is undone by putting the last coordinate back in the place of the axis.
  have hback (q : List Nat) (i : Nat) (hq : (q ++ [i]).length = d.rank) :
      apply (move d.rank a (d.rank - 1)) (q.insertIdx a i) = q ++ [i] := by
    have hrelocate : Position.relocate (d.rank - 1) a (q ++ [i]) = q.insertIdx a i := by
      have hplace : d.rank - 1 = q.length := by
        rw [length_append, length_singleton] at hq
        omega
      simp [Position.relocate, hplace, eraseIdx_append_of_length_le]
    rw [← hrelocate]
    exact apply_move hq ha hlast
  have hself : (d.shape.eraseIdx a).insertIdx a (d.shape.getD a 0) = d.shape := by
    rw [getD_eq_getElem?_getD, getElem?_eq_getElem (hlength ▸ ha), Option.getD_some]
    exact insertIdx_eraseIdx_getElem (hlength ▸ ha)
  have hshape : apply (move d.rank a (d.rank - 1)) d.shape =
      d.shape.eraseIdx a ++ [d.shape.getD a 0] := by
    have hrest : (d.shape.eraseIdx a ++ [d.shape.getD a 0]).length = d.rank := by
      rw [length_append, length_singleton, length_eraseIdx_of_lt (hlength ▸ ha)]
      omega
    have hmoved := hback _ _ hrest
    rwa [hself] at hmoved
  obtain ⟨e, he, hview, -, heshape⟩ := h.transposed_eq hmeta (ofAxes_map_ofNat horders)
  refine ⟨e, ?_, hview.sound, heshape.trans hshape, fun q i hq => ?_⟩
  · simp only [rollAxis, rolling_last ha, bind_eq_ok]
    exact ⟨_, rfl, he⟩
  · have hrank : (q ++ [i]).length = d.rank := by
      rw [length_of_contains hq, heshape,
        length_apply fun b hb => horders.mem_iff.mp hb, horders.length_eq]
    have hinsert : (q.insertIdx a i).length = d.rank := by
      rw [length_append, length_singleton] at hrank
      rw [length_insertIdx_of_le_length (by omega)]
      exact hrank
    rw [hview.item_eq h hq, apply_inverse_of_apply_eq (hinsert ▸ horders) (hback q i hrank)]

/-! ## The fold -/

/-- With the axis last, the runs of items are those along it, also when it is empty. -/
theorem runs_eq {e : Block} (hshape : e.shape = d.shape.eraseIdx a ++ [d.shape.getD a 0])
    (hitems : ∀ q i, e.shape.contains (q ++ [i]) → e.item (q ++ [i]) = d.item (q.insertIdx a i)) :
    (if d.shape.getD a 0 = 0 then replicate (size (d.shape.eraseIdx a)) []
      else chunks (d.shape.getD a 0) e.itemList) =
        (positions (d.shape.eraseIdx a)).map (d.along a) := by
  by_cases hzero : d.shape.getD a 0 = 0
  · have halong : d.along a = fun _ => [] := by
      funext q
      rw [along, hzero, range_zero, map_nil]
    rw [if_pos hzero, halong, map_const', length_positions]
  · have hpositions := positions_append (d.shape.eraseIdx a) (Nat.pos_of_ne_zero hzero)
    rw [if_neg hzero, itemList_eq, hshape, hpositions, map_flatMap,
      chunks_flatMap (Nat.pos_of_ne_zero hzero) fun _ _ => by simp]
    refine List.map_congr_left fun q hq => ?_
    rw [map_map]
    refine List.map_congr_left fun i hi => hitems q i ?_
    rw [hshape, ← mem_positions, hpositions]
    exact mem_flatMap.mpr ⟨q, hq, mem_map.mpr ⟨i, hi, rfl⟩⟩

section

variable (h : d.Sound) (hmeta : d.metadata = .empty) (haxis : normalizeAxis axis d.rank = .ok a)
  (hcount : elementCount (d.shape.eraseIdx a) d.itemSize = .ok n)
include h hmeta haxis hcount

/-- **A fold along an axis has, at every position without that axis, the fold of the items along
it, if the length of a run is a word.** -/
theorem Sound.foldAxis_eq :
    d.foldAxis axis init f = (do
      Fault.check (if d.shape.getD a 0 * d.itemSize < modulus then none else some .overflow)
      .ok (ofItems .double d.name (d.shape.eraseIdx a) d.itemSize
        fun q => (foldRun d.itemSize init f (d.along a q)).map .double)) := by
  have ha : a < d.rank := normalizeAxis_lt haxis
  obtain ⟨e, he, hsound, hshape, hitems⟩ := h.rollAxis_last hmeta ha
  obtain ⟨hn, hmax⟩ := elementCount_eq_ok hcount
  have hread : e.checkRead = .ok () := check_eq_ok.mpr hsound.fault_eq_none
  have hlist : listLength (size (d.shape.eraseIdx a) * d.itemSize) = .ok n := by
    have hhalf : 8 * maxElements < half := by decide
    rw [← hn, listLength, listFault?, if_pos (by omega)]
    rfl
  have hflat (l : List Position) : ((l.map (d.along a)).flatMap (foldRun d.itemSize init f)).map
      Scalar.double = (l.map fun q =>
        (foldRun d.itemSize init f (d.along a q)).map Scalar.double).flatten := by
    rw [flatMap_map, map_flatMap, flatMap_def]
  have hlength (q : Position) :
      ((foldRun d.itemSize init f (d.along a q)).map Scalar.double).length = d.itemSize := by
    simp [foldRun]
  have hout := ofElements_positions (k := .double) h.itemSize_pos (fun q _ => hlength q) hcount
  simp only [foldAxis, haxis, he, hread, hlist, ok_bind, runs_eq hshape hitems, hflat, hout]
  rfl

theorem Sound.foldAxis_eq_ok (hrun : d.shape.getD a 0 * d.itemSize < modulus) :
    d.foldAxis axis init f = .ok (ofItems .double d.name (d.shape.eraseIdx a) d.itemSize
      fun q => (foldRun d.itemSize init f (d.along a q)).map .double) := by
  rw [h.foldAxis_eq hmeta haxis hcount, if_pos hrun]
  rfl

end

end Dataset

end Hyperslab
