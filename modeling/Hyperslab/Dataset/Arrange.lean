import Hyperslab.Dataset.Arithmetic
import Hyperslab.Dataset.Reduction
import Hyperslab.Walk.Position

/-!
# Rearrangement

Joining, repeating, gathering, scattering, rolling and resizing. Every result is a new
packed dataset, apart from items that are put into a dataset that exists.
-/
namespace Hyperslab.Dataset

/-! ## Joining -/

/-- The shape and item size of datasets joined along an axis. -/
def joinedShape (first : Block) (axis : Nat) (others : List Block) :
    Except Error (Shape × Nat) :=
  others.foldlM (fun (s, itemSize) d =>
    if ¬ Shape.compatibleExcept first.shape d.shape axis then
      .error (.incompatibleShapes first.shape d.shape)
    else if Word.modulus ≤ s.getD axis 0 + d.shape.getD axis 0 then .error (.fault .overflow)
    else .ok (s.modify axis (· + d.shape.getD axis 0), max itemSize d.itemSize))
    (first.shape, first.itemSize)

/-- Writes datasets one after the other along an axis, from coordinate `start` on. -/
def placeAlong (axis : Nat) : Nat → Block → List Block → Except Error Block
  | _, out, [] => .ok out
  | start, out, d :: rest => do
      let stop := start + d.shape.getD axis 0
      let r ← Region.along out.shape axis (Slice.between start stop)
      placeAlong axis stop (← out.setSlice r d) rest

/-- Datasets joined along an axis. They agree on every other axis, and the result has the largest
item size. -/
def concatenate (ds : List Block) (axis : Int) : Except Error Block :=
  match ds with
  | [] => .error (.invalidSlice .nothingToJoin)
  | first :: others => do
      let axis ← Shape.normalizeAxis axis first.rank
      let (s, itemSize) ← joinedShape first axis others
      let out ← placeAlong axis 0 (← zeros first.kind itemSize s) ds
      return out.withName first.name

/-! ## Gathering and scattering -/

/-- The items at the given coordinates of an axis. -/
def gather (d : Block) (indices : List Nat) (axis : Nat) : Except Error Block := do
  let n := d.shape.getD axis 0
  match indices.find? (n ≤ ·) with
  | some bad => .error (.outOfBounds [bad] [n])
  | none =>
      let s := d.shape.set axis indices.length
      let out ← indices.zipIdx.foldlM (fun out (j, i) => do
        let part ← d.sliceView (← Region.along d.shape axis (Slice.index (Word.signed j)))
        out.setSlice (← Region.along s axis (Slice.index i)) part) (← zeros d.kind d.itemSize s)
      return out.withName d.name

/-- Items repeated along an axis, or along the flattened dataset: one count for all or one each. -/
def repeated (d : Block) (counts : List Nat) (axis : Option Int) : Except Error Block := do
  let src ← match axis with
    | some _ => pure d.view
    | none => d.flatten
  let ax ← Shape.normalizeAxis (axis.getD 0) src.rank
  let n := src.shape.getD ax 0
  if counts.length ≠ 1 ∧ counts.length ≠ n then .error (.incompatibleShapes [counts.length] [n])
  else
    let counts := if counts.length = 1 then List.replicate n (counts.headD 0) else counts
    let _ ← Word.listLength (counts.foldr (· + ·) 0)
    src.gather (counts.zipIdx.flatMap fun (count, j) => List.replicate count j) ax

/-- The items at the given coordinates of an axis, or at the given row-major ranks. -/
def take (d : Block) (indices : List Nat) (axis : Option Int) : Except Error Block := do
  if indices.isEmpty then .error (.invalidSlice .noIndices)
  else
    match axis with
    | some axis => d.gather indices (← Shape.normalizeAxis axis d.rank)
    | none => (← d.flatten).gather indices 0

/-- Writes items at row-major ranks, from item number `k` on and going through the items again when
they run out. Each of them is a write of its own, and the first that is stopped is the last. -/
def scatter (items : Array (List Scalar)) : Nat → List Nat → Block → Except Error (Written Buffer)
  | _, [], d => .ok ⟨d, none⟩
  | k, i :: rest, d => do
      let w ← d.writeItem (Shape.unravel i d.shape) (items.getD (k % items.size) [])
      if w.stop.isSome then return w else scatter items (k + 1) rest w.dataset

/-- Writes the items of `values` at row-major ranks. Nothing is written unless every rank is in
bounds. -/
def writePut (d : Block) (indices : List Nat) (values : Block) : Except Error (Written Buffer) := do
  match indices.find? (d.size ≤ ·) with
  | some bad => .error (.outOfBounds [bad] [d.size])
  | none =>
      if values.itemSize ≠ d.itemSize ∧ values.itemSize ≠ 1 then
        .error (.incompatibleItemSize d.itemSize values.itemSize)
      else if values.size = 0 then
        if indices.isEmpty then return ⟨d, none⟩ else .error (.invalidSlice .noValues)
      else
        values.checkRead
        let items := values.itemList.map fun item =>
          item ++ List.replicate (d.itemSize - item.length) d.kind.zero
        scatter items.toArray 0 indices d

def put (d : Block) (indices : List Nat) (values : Block) : Except Error Block := do
  (← d.writePut indices values).finish

/-! ## Rolling and resizing -/

def roll (d : Block) (shift : Int) (axis : Option Int) : Except Error Block := do
  let (src, axis) ← match axis with
    | some axis => do pure (d.view, ← Shape.normalizeAxis axis d.rank)
    | none => do pure (← d.flatten, 0)
  let n := src.shape.getD axis 0
  if n = 0 then return d.copy
  else
    let k := (shift % Word.signed n).toNat
    let head ← src.sliceView (← Region.along src.shape axis (Slice.between (n - k) n))
    let tail ← src.sliceView (← Region.along src.shape axis (Slice.between 0 (n - k)))
    let out ← (← concatenate [head, tail] axis).setShape d.shape
    return out.withName d.name

/-- The elements in row-major order, cut off or gone through again to fill another shape. -/
def resize (d : Block) (s : Shape) : Except Error Block := do
  d.checkRead
  let src := d.toList.toArray
  let n ← reserve d.kind s d.itemSize
  let out ← ofElements d.kind d.itemSize s
    ((List.range n).map fun i => src.getD (i % src.size) d.kind.zero)
  return out.withName d.name

end Hyperslab.Dataset
