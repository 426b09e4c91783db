import Hyperslab.InWords

/-!
# Joining, tiling, splitting, rolling and selecting

Datasets are put together from pieces of others, or cut into pieces. Every result is a new packed
dataset that is filled region by region, or item by item. All is written and read in words, so a
number on the way that is no word stops the operation.
-/
namespace Hyperslab

/-- A truth value holds if it is true, and a number if it is not 0. -/
def Scalar.holds : Scalar → Bool
  | .bool h => h
  | v => v.toInt ≠ 0

namespace Dataset

/-! ## Joining -/

/-- Writes datasets one after the other along an axis, from coordinate `start` on. -/
def placeAlongInWords (axis : Nat) : Nat → Block → List Block → Except Error Block
  | _, out, [] => .ok out
  | start, out, d :: rest => do
      let stop := start + d.shape.getD axis 0
      let r ← Region.along out.shape axis (Slice.between start stop)
      placeAlongInWords axis stop (← out.setSliceInWords r d) rest

/-- Datasets joined along an axis. They agree on every other axis, and the result has the largest
item size. -/
def concatenateInWords (ds : List Block) (axis : Int) : Except Error Block :=
  match ds with
  | [] => .error (.invalidSlice .nothingToJoin)
  | first :: others => do
      let axis ← Shape.normalizeAxis axis first.rank
      let (s, itemSize) ← joinedShape first axis others
      let out ← placeAlongInWords axis 0 (← zeros first.kind itemSize s) ds
      return out.withName first.name

def appendInWords (a b : Block) (axis : Int) : Except Error Block :=
  if a.rank ≠ b.rank then .error (.incompatibleShapes a.shape b.shape)
  else concatenateInWords [a, b] axis

/-! ## Tiling -/

/-- Rows longer than this are copied tile by tile. -/
def manyColumns : Nat := 64

/-- The part of the result that the tile with the given number along each axis covers. -/
def tileSlices (s tile : Shape) : List Slice :=
  List.zipWith (fun t d => Slice.between (t * d) ((t + 1) * d)) tile s

/-- Copies the source once per tile. -/
def tileByCopies (src : Block) (reps : Shape) (out : Block) : Except Error Block := do
  let _ ← reps.sizeWord
  reps.positions.foldlM (fun out tile => do
    out.setSliceInWords (← Region.ofSlices out.shape (tileSlices src.shape tile)) src) out

/-- The places of one item of the source in all tiles: from its own position on, in steps of the
length of the axis. -/
def itemSlices (s reps new : Shape) (pos : Position) : List Slice :=
  let skip := List.zipWith (fun (r : Nat) (d : Nat × Nat) => if r = 1 then d.1 else d.2) reps
    (new.zip s)
  List.zipWith (fun (p k : Nat) => Slice.range (some p) none (max k 1 : Nat)) pos skip

/-- Writes each item of the source to all tiles at once. -/
def tileByItems (src : Block) (reps : Shape) (out : Block) : Except Error Block := do
  src.checkWalk
  src.checkRead
  src.itemList.zipIdx.foldlM (fun out (item, i) => do
    let slices := itemSlices src.shape reps out.shape (Shape.unravel i src.shape)
    let value ← ofElements src.kind src.itemSize [] item
    out.setSliceInWords (← Region.ofSlices out.shape slices) value) out

/-- The dataset repeated along each axis. Missing leading counts are 1, and extra ones add axes. -/
def tile (d : Block) (reps : List Nat) : Except Error Block := do
  let rank := max d.rank reps.length
  let s := d.shape.pad rank
  let reps := Shape.pad reps rank
  let new := List.zipWith (· * ·) s reps
  if new.any (Word.modulus ≤ ·) then .error (.fault .overflow)
  else
    let out ← zeros d.kind d.itemSize new
    let src ← d.reshapeInWords s
    match s.getLast? with
    | none => .error (.fault .missingAxis)
    | some columns =>
        let tiled ←
          if rank = 1 ∨ manyColumns < columns then tileByCopies src reps out
          else tileByItems src reps out
        return tiled.withName d.name

/-! ## Splitting -/

/-- The parts up to each cut, with the coordinate that the last of them ends at. A cut past the end
gives an empty part, and one before the last end an empty part there. -/
def splitAt (d : Block) (axis length : Nat) :
    Nat → List Nat → Except Error (List Block × Nat)
  | last, [] => .ok ([], last)
  | last, cut :: cuts => do
      if length < cut then
        let part ← zeros d.kind d.itemSize (d.shape.set axis 0)
        let (parts, stop) ← splitAt d axis length last cuts
        return (part :: parts, stop)
      else
        let stop := max cut last
        let part ← d.sliceInWords (← Region.along d.shape axis (Slice.between last stop))
        let (parts, stop) ← splitAt d axis length stop cuts
        return (part :: parts, stop)

def split (d : Block) (cuts : List Nat) (axis : Int) : Except Error (List Block) := do
  let axis ← Shape.normalizeAxis axis d.rank
  let length := d.shape.getD axis 0
  let (parts, last) ← splitAt d axis length 0 cuts
  if last < length then
    return parts ++
      [← d.sliceInWords (← Region.along d.shape axis (Slice.between last length))]
  else return parts

/-- A dataset cut into sections of equal length, the last ones possibly shorter. -/
def splitSections (d : Block) (sections : Nat) (axis : Int) (equal : Bool) :
    Except Error (List Block) := do
  let ax ← Shape.normalizeAxis axis d.rank
  let length := d.shape.getD ax 0
  if sections = 0 ∨ (equal ∧ length % sections ≠ 0) then
    .error (.invalidSlice (.unevenSections length sections))
  else if Word.modulus ≤ length + sections then .error (.fault .overflow)
  else
    let _ ← Word.listLength (sections - 1)
    let n := (length + sections - 1) / sections
    d.split ((List.range (sections - 1)).map fun i => n * (i + 1)) axis

/-! ## Rolling -/

/-- A view of the dataset and its axis of the given name; without a name, all items along one
axis. -/
def rollSource (d : Block) : Option Int → Except Error (Block × Nat)
  | some axis => do
      let src ← d.viewInWords
      return (src, ← Shape.normalizeAxis axis d.rank)
  | none => return (← d.flattenInWords, 0)

/-- Items moved cyclically along an axis: what is behind a cut comes first. The shift is divided by
the length of the axis, and the quotient has to be a word. -/
def turnInWords (src : Block) (shift : Int) (axis : Nat) : Except Error Block := do
  let n := src.shape.getD axis 0
  Word.check [shift / Word.signed n]
  let k := (shift % Word.signed n).toNat
  let head ← src.sliceViewInWords (← Region.along src.shape axis (Slice.between (n - k) n))
  let tail ← src.sliceViewInWords (← Region.along src.shape axis (Slice.between 0 (n - k)))
  concatenateInWords [head, tail] axis

def rollInWords (d : Block) (shift : Int) (axis : Option Int) : Except Error Block := do
  let (src, axis) ← d.rollSource axis
  if src.shape.getD axis 0 = 0 then d.copyInWords
  else
    let out ← (← src.turnInWords shift axis).setShapeInWords d.shape
    return out.withName d.name

/-! ## Selecting -/

def checkCondition (condition : Block) : Except Error Unit :=
  if condition.itemSize ≠ 1 then .error (.incompatibleItemSize 1 condition.itemSize) else .ok ()

/-- The chosen item at one visited position of a selection. The other item is not looked at. -/
def chosenAt (condition x y : Block) (w : BroadcastWalk) : Except Error (List Scalar) :=
  match w.indices with
  | [a, b, c, _] =>
      (List.range w.itemSize).mapM fun j => do
        if (← condition.elementAt a).holds then x.operandAt b j else y.operandAt c j
  | _ => .ok []

/-- The items of `x` where the condition holds and of `y` elsewhere. -/
def select (condition x y : Block) : Except Error Block := do
  condition.checkCondition
  let _ ← condition.stridesInWords
  let _ ← x.stridesInWords
  let _ ← y.stridesInWords
  let w ← tripleWalk condition x y
  let _ ← w.shape.stridesChecked w.itemSize
  Fault.check w.odometer.fault?
  let _ ← reserve x.kind w.shape w.itemSize
  ofElements x.kind w.itemSize w.shape (← w.collectInWords (chosenAt condition x y))

end Dataset

def Handle.select (condition x y : Handle) : StoreM Handle := do
  let condition ← condition.peek
  condition.checkCondition
  let y ← y.besideInWords x
  adopt (← condition.select (← x.peek) y)

end Hyperslab
