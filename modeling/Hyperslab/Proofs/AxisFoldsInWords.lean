import Hyperslab.Proofs.AxisFolds
import Hyperslab.Proofs.Transpositions

/-!
# Folds along an axis in words

A fold along an axis reads all items with the axis moved to the end. Over words this meets the
strides and the size of the moved shape, the turns of the walk that reads the items, and the number
of elements of a run. Data that takes up less than half of the words meets only words, but for the
turns of the walk, and these are words where the buffer takes up no more than half of them and no
stride of a unit axis leads out. Data without items is not walked at all.
-/
namespace Hyperslab

open List Permutation Shape Word

/-! ## One axis moved to the end -/

namespace Frame

variable {f : Frame} {length a : Nat}

/-- The frame with one axis moved to the end. -/
def withLast (f : Frame) (a : Nat) : Frame := f.permuted (Permutation.move f.rank a (f.rank - 1))

theorem orders_last (ha : a < f.rank) : Orders (move f.rank a (f.rank - 1)) f.rank :=
  orders_move ha (by omega)

/-- The numbers met in a fold along an axis are words: in moving it to the end, in counting and
walking the items, and in counting the elements of a run. -/
structure FoldsInWords (f : Frame) (a : Nat) : Prop where
  reorders : f.ReordersInWords (Permutation.move f.rank a (f.rank - 1))
  size : (f.withLast a).shape.sizeChecked.isSome = true
  walk : Word.AllFit (f.withLast a).geometry.walkNumbers
  run : f.shape.getD a 0 * f.itemSize < Word.modulus

theorem foldsInWords_iff : f.FoldsInWords a ↔ f.ReordersInWords (move f.rank a (f.rank - 1)) ∧
      (f.withLast a).shape.sizeChecked.isSome ∧ AllFit (f.withLast a).geometry.walkNumbers ∧
      f.shape.getD a 0 * f.itemSize < modulus :=
  ⟨fun h => ⟨h.reorders, h.size, h.walk, h.run⟩, fun h => ⟨h.1, h.2.1, h.2.2.1, h.2.2.2⟩⟩

instance (f : Frame) (a : Nat) : Decidable (f.FoldsInWords a) :=
  decidable_of_iff _ foldsInWords_iff.symm

theorem ReordersInWords.hasStrides {perm : List Nat} (h : f.ReordersInWords perm) :
    (f.permuted perm).HasStrides :=
  fun _ => h.2

/-- Of data that takes up less than half of the words, a fold meets only words, but for the turns
of the walk. -/
theorem foldsInWords_of_room (hk : 0 < f.itemSize) (ha : a < f.rank)
    (hroom : f.shape.room f.itemSize < half)
    (hwalk : AllFit (f.withLast a).geometry.walkNumbers) : f.FoldsInWords a where
  reorders := reordersInWords_of_room hk (orders_last ha) hroom
  size := by
    have hmoved : room f.itemSize (f.withLast a).shape = f.shape.room f.itemSize :=
      room_apply (orders_last ha)
    exact sizeChecked_of_room hk (hmoved ▸ hroom)
  walk := hwalk
  run := by
    have hhalf : half ≤ modulus := by decide
    exact ((mul_le_room f.itemSize ha).trans_lt hroom).trans_le hhalf

theorem allFit_walkNumbers_of_empty (ha : a < f.rank) (hempty : f.size = 0) :
    AllFit (f.withLast a).geometry.walkNumbers := by
  have hsize : (f.withLast a).geometry.shape.size = 0 := (size_apply (orders_last ha)).trans hempty
  rw [Geometry.walkNumbers, if_pos hsize]
  exact allFit_nil

end Frame

/-! ## Folds -/

namespace Dataset

variable {d : Block} {axis : Int} {a n : Nat} {init : Float} {f : Float → Float → Float}

theorem Sound.rollAxisInWords_last (h : d.Sound) (hmeta : d.metadata = .empty) (ha : a < d.rank) :
    d.rollAxisInWords a d.rank = (do
      ensure (d.ReordersInWords (move d.rank a (d.rank - 1)))
      .ok (d.through (d.withLast a) .empty)) := by
  have hperm := ofAxes_map_ofNat (Frame.orders_last ha)
  rw [rollAxisInWords, rolling_last ha, ok_bind, transposedInWords_eq hmeta, hperm,
    transposed_eq_through h hmeta (ofAxes_eq_ok_iff.mp hperm)]
  rfl

theorem Sound.checkFold_eq (h : d.Sound) (hmeta : d.metadata = .empty)
    (haxis : normalizeAxis axis d.rank = .ok a)
    (hrest : (sizeChecked (d.shape.eraseIdx a)).isSome) :
    d.checkFold axis = ensure
      (d.ReordersInWords (move d.rank a (d.rank - 1)) ∧
        (d.withLast a).shape.sizeChecked.isSome ∧
        AllFit (d.withLast a).geometry.walkNumbers) := by
  have ha : a < d.rank := normalizeAxis_lt haxis
  rw [checkFold, haxis, ok_bind, h.rollAxisInWords_last hmeta ha]
  simp only [bind_assoc, ok_bind, sizeWord_bind, ensure_of hrest, Frame.checkWalk_eq]
  rw [ensure_and, ensure_and, bind_pure_unit]
  refine ensure_congr ⟨?_, ?_⟩
  · rintro ⟨⟨hreorders, hsize⟩, -, hwalk⟩
    exact ⟨hreorders, hsize, hwalk⟩
  · rintro ⟨hreorders, hsize, hwalk⟩
    exact ⟨⟨hreorders, hsize⟩, hreorders.hasStrides, hwalk⟩

/-- The fold of the elements along an axis, at every position that lacks it. -/
def foldedAlong (d : Block) (a : Nat) (init : Float) (f : Float → Float → Float) : Block :=
  ofItems .double d.name (d.shape.eraseIdx a) d.itemSize fun q =>
    (foldRun d.itemSize init f (d.along a q)).map .double

/-- **A fold along an axis is given just if the numbers met are words.** -/
theorem Sound.foldAxisInWords_eq (h : d.Sound) (hmeta : d.metadata = .empty)
    (haxis : normalizeAxis axis d.rank = .ok a)
    (hcount : elementCount (d.shape.eraseIdx a) d.itemSize = .ok n) :
    d.foldAxisInWords axis init f = (do
      ensure (d.FoldsInWords a)
      .ok (d.foldedAlong a init f)) := by
  have hrun : Fault.check (if d.shape.getD a 0 * d.itemSize < modulus then none
      else some .overflow) = ensure (d.shape.getD a 0 * d.itemSize < modulus) := by
    rw [ensure]
    split <;> rfl
  obtain ⟨c, hrest, -⟩ := elementCount_eq_ok_iff.mp hcount
  rw [foldAxisInWords, h.checkFold_eq hmeta haxis (by rw [hrest]; rfl),
    h.foldAxis_eq hmeta haxis hcount, hrun, ensure_and]
  simp only [and_assoc, ensure_congr Frame.foldsInWords_iff]
  rfl

/-! ## Elements of a fold -/

theorem length_foldedRun (d : Block) (a : Nat) (init : Float) (f : Float → Float → Float)
    (q : Position) :
    ((foldRun d.itemSize init f (d.along a q)).map Scalar.double).length = d.itemSize := by
  simp [foldRun]

/-- The elements of a run, one from each item, folded one after another. -/
theorem getElem?_foldRun (d : Block) (a : Nat) (init : Float) (f : Float → Float → Float)
    (q : Position) {j : Nat} (hj : j < d.itemSize) :
    (foldRun d.itemSize init f (d.along a q))[j]? =
      some (((List.range (d.shape.getD a 0)).map fun i =>
        ((d.item (q.insertIdx a i)).getD j d.kind.zero).toFloat).foldl f init) := by
  have helement (p : Position) :
      ((d.item p)[j]?).elim 0.0 Scalar.toFloat = ((d.item p).getD j d.kind.zero).toFloat := by
    have hlt : j < (d.item p).length := by rwa [length_item]
    rw [getD_eq_getElem?_getD, getElem?_eq_getElem hlt]
    rfl
  rw [foldRun, getElem?_map, getElem?_range hj, Option.map_some, along, foldl_map, foldl_map]
  simp only [helement]

/-- **Every element of a fold is the fold of the elements along the axis, in their order.** -/
theorem Sound.getElem?_item_foldedAlong (h : d.Sound) {j : Nat} {q : Position}
    (hcount : elementCount (d.shape.eraseIdx a) d.itemSize = .ok n)
    (hq : contains (d.shape.eraseIdx a) q) (hj : j < d.itemSize) :
    ((d.foldedAlong a init f).item q)[j]? =
      some (.double (((List.range (d.shape.getD a 0)).map fun i =>
        ((d.item (q.insertIdx a i)).getD j d.kind.zero).toFloat).foldl f init)) := by
  obtain ⟨hn, hmax⟩ := elementCount_eq_ok hcount
  have hlist : Kind.double.bytes * (size (d.shape.eraseIdx a) * d.itemSize) < half :=
    bytes_mul_lt (hn ▸ hmax)
  rw [foldedAlong, item_ofItems h.itemSize_pos (fun q _ => d.length_foldedRun a init f q) hlist hq,
    getElem?_map, getElem?_foldRun d a init f q hj]
  rfl

/-- **A fold along an axis folds the elements along it.** -/
theorem foldAxis_folds_elements (hd : d.Sound) (hmeta : d.metadata = .empty)
    (haxis : Shape.normalizeAxis axis d.rank = .ok a)
    (hcount : elementCount (d.shape.eraseIdx a) d.itemSize = .ok n)
    (init : Float) (f : Float → Float → Float) :
    ∃ e : Block,
      -- The result lacks the axis and has items of the same size.
      e.Sound ∧ e.kind = .double ∧ e.name = d.name ∧ e.metadata = .empty ∧
      e.shape = d.shape.eraseIdx a ∧ e.itemSize = d.itemSize ∧
      -- Each of its elements is the fold of the elements along the axis, in their order.
      (∀ q j, e.shape.contains q = true → j < e.itemSize → (e.item q)[j]? =
        some (.double (((List.range (d.shape.getD a 0)).map fun i =>
          ((d.item (q.insertIdx a i)).getD j d.kind.zero).toFloat).foldl f init))) ∧
      -- It is given where the numbers met are words.
      (d.shape.getD a 0 * d.itemSize < Word.modulus → d.foldAxis axis init f = .ok e) ∧
      d.foldAxisInWords axis init f = (do Word.ensure (d.FoldsInWords a); .ok e) ∧
      -- Where there is room in the words, only the turns of the walk count.
      (0 < d.size → d.shape.room d.itemSize < Word.half) ∧
      (d.shape.room d.itemSize < Word.half →
        (d.FoldsInWords a ↔ Word.AllFit (d.withLast a).geometry.walkNumbers)) ∧
      (d.size = 0 → Word.AllFit (d.withLast a).geometry.walkNumbers) ∧
      (2 * d.buffer.size ≤ Word.half →
        (∀ x ∈ List.zip d.shape d.strides, x.1 = 1 → |x.2| + d.buffer.size ≤ Word.half) →
        Word.AllFit (d.withLast a).geometry.walkNumbers) := by
  have ha : a < d.rank := Permutation.normalizeAxis_lt haxis
  obtain ⟨hn, hmax⟩ := elementCount_eq_ok hcount
  have hlist : Kind.double.bytes * (Shape.size (d.shape.eraseIdx a) * d.itemSize) < Word.half :=
    bytes_mul_lt (hn ▸ hmax)
  refine ⟨d.foldedAlong a init f, ?_, rfl, rfl, rfl, rfl, rfl, ?_, ?_, ?_, ?_, ?_, ?_, ?_⟩
  · exact sound_ofItems hd.itemSize_pos (fun q _ => d.length_foldedRun a init f q) hlist
  · intro q j hq hj
    exact hd.getElem?_item_foldedAlong hcount hq hj
  · exact hd.foldAxis_eq_ok hmeta haxis hcount
  · exact hd.foldAxisInWords_eq hmeta haxis hcount
  · exact Frame.Sound.room_lt hd
  · intro hroom
    exact ⟨Frame.FoldsInWords.walk, Frame.foldsInWords_of_room hd.itemSize_pos ha hroom⟩
  · exact Frame.allFit_walkNumbers_of_empty ha
  · exact Frame.Sound.allFit_walkNumbers_permuted hd (Frame.orders_last ha)

/-- Two rows of three pairs. -/
def pairGrid : Block :=
  ofList (.int true .w16) [2, 3] 2 ((List.range 12).map fun i => Scalar.int i)

theorem foldAxis_folds_elements_pairs : ∃ d : Block, pairGrid.flip 1 = .ok d ∧
    d.geometry = ⟨[2, 3], 2, 4, [6, -2]⟩ ∧ ∀ init f, ∃ e, d.foldAxisInWords (-2) init f = .ok e ∧
      e.shape = [3] ∧ e.itemSize = 2 ∧ (e.item [2])[1]? =
        some (.double (f (f init (Scalar.int 1).toFloat) (Scalar.int 7).toFloat)) := by
  obtain ⟨d, hd, hgeometry, hmeta, hsound, hfolds, haxis, hcount, hshape, hitem, hitems⟩ :
      ∃ d : Block, pairGrid.flip 1 = .ok d ∧ d.geometry = ⟨[2, 3], 2, 4, [6, -2]⟩ ∧
        d.metadata = .empty ∧ d.Sound ∧ d.FoldsInWords 0 ∧
        Shape.normalizeAxis (-2) d.rank = .ok 0 ∧
        elementCount (d.shape.eraseIdx 0) d.itemSize = .ok 6 ∧ d.shape = [2, 3] ∧
        d.itemSize = 2 ∧ d.item [0, 2] = [.int 0, .int 1] ∧ d.item [1, 2] = [.int 6, .int 7] :=
    ⟨_, rfl, rfl, rfl, by decide +kernel, by decide +kernel, rfl, rfl, rfl, rfl, rfl, rfl⟩
  refine ⟨d, hd, hgeometry, fun init f => ?_⟩
  obtain ⟨e, -, -, -, -, heshape, heitem, helement, -, hwords, -⟩ :=
    foldAxis_folds_elements hsound hmeta haxis hcount init f
  rw [hshape] at heshape
  rw [hitem] at heitem
  refine ⟨e, ?_, heshape, heitem, ?_⟩
  · rw [hwords, Word.ensure_of hfolds]
    rfl
  · rw [helement [2] 1 (by rw [heshape]; decide) (by rw [heitem]; decide), hshape]
    simp [List.range_succ, hitems]

/-- Ten rows of five numbers. -/
def fiftyNumbers : Block :=
  ofList (.int true .w32) [10, 5] 1 ((List.range 50).map fun i => Scalar.int i)

/-- One row, with a step so long that the stride nearly leads out of the words. -/
def middleRow : Region :=
  ⟨[10, 5], none, [⟨5, 10, 1844674407370955156, 1⟩, ⟨0, 5, 1, 5⟩], false, .none⟩

/-- The row can be read. With the unit axis last, the walk goes one stride past each of the items,
and this leads out of the words. -/
theorem moved_unit_axis_stops_fold : ∃ d : Block,
    fiftyNumbers.sliceViewInWords middleRow = .ok d ∧ d.Sound ∧ d.metadata = .empty ∧
    d.geometry = ⟨[1, 5], 1, 25, [9223372036854775780, 1]⟩ ∧
    d.toListInWords = .ok ([25, 26, 27, 28, 29].map Scalar.int) ∧
    elementCount (d.shape.eraseIdx 0) d.itemSize = .ok 5 ∧
    ∀ init f, (∃ e, d.foldAxis 0 init f = .ok e ∧ e.shape = [5]) ∧
      d.foldAxisInWords 0 init f = .error (.fault .overflow) :=
  ⟨_, rfl, by decide +kernel, rfl, by decide +kernel, rfl, rfl,
    fun _ _ => by with_unfolding_all exact ⟨⟨_, rfl, rfl⟩, rfl⟩⟩

end Dataset

end Hyperslab
