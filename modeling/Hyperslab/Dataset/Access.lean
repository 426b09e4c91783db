import Hyperslab.Dataset
import Hyperslab.Walk.Region

/-!
# Reading and writing items

A region that was read from a text need not lie where its source says: a walk of it may leave the
buffer, or meet an axis without a stride. A read that is stopped there gives nothing. A write that
is stopped has been counted by the buffer and leaves what it wrote before, and the metadata does not
hear of it.

So each write comes twice. One form, such as `writeSlice`, gives a `Written`: what the write made of
the dataset, however far it came. The other, such as `setSlice`, gives the dataset after a write
that went through.
-/
namespace Hyperslab

/-- A dataset after a write, and what stopped the write on its way. -/
structure Written (β : Type) where
  dataset : Dataset β
  stop : Option Fault

/-- The dataset after a write that went through. -/
def Written.finish {β : Type} (w : Written β) : Except Error (Dataset β) := do
  Fault.check w.stop
  return w.dataset

namespace Dataset

/-! ## Reading -/

def elementAt (d : Block) (i : Nat) : Except Error Scalar :=
  match d.buffer.elements[i]? with
  | some v => .ok v
  | none => .error (.fault .outsideBuffer)

def getItem (d : Block) (pos : Position) : Except Error (List Scalar) := do
  let i ← d.indexOf pos
  if i + d.itemSize ≤ d.buffer.size then return d.itemAt d.buffer.elements i
  else .error (.fault .outsideBuffer)

def get (d : Block) (pos : Position) : Except Error Scalar := do d.elementAt (← d.indexOf pos)

def getComplex (d : Block) (pos : Position) : Except Error (Float × Float) := do
  if d.itemSize ≠ 2 then .error (.incompatibleItemSize d.itemSize 2)
  else
    let item ← d.getItem pos
    let part := fun (i : Nat) => (item[i]?).elim 0.0 Scalar.toFloat
    return (part 0, part 1)

/-- The element at a buffer index. -/
def getAbs (d : Block) (i : Nat) : Except Error Scalar :=
  match d.buffer.elements[i]? with
  | some v => .ok v
  | none => .error (.outOfBounds [i] [d.buffer.size])

/-! ## Writing -/

def modifyElements (f : Elements → Elements) : Block → Block
  | ⟨frame, buffer, metadata⟩ => ⟨frame, buffer.modify f, metadata.onDirty⟩

/-- The dataset after a write that changed the elements of its buffer by `f` and then was stopped,
or went through. -/
def afterWrite (f : Elements → Elements) : Option Fault → Block → Written Buffer
  | none, d => ⟨d.modifyElements f, none⟩
  | some fault, ⟨frame, buffer, metadata⟩ => ⟨⟨frame, buffer.modify f, metadata⟩, some fault⟩

/-! ### One item -/

/-- Puts elements into the places from a buffer index on, all of which must be there. -/
def writeAt (d : Block) (i : Nat) (item : List Scalar) : Written Buffer :=
  if i + item.length ≤ d.buffer.size then d.afterWrite (·.putFrom i item) none
  else d.afterWrite id (some .outsideBuffer)

def writeElement (d : Block) (pos : Position) (value : Scalar) :
    Except Error (Written Buffer) := do
  return d.writeAt (← d.indexOf pos) [value]

def set (d : Block) (pos : Position) (value : Scalar) : Except Error Block := do
  (← d.writeElement pos value).finish

def writeItem (d : Block) (pos : Position) (item : List Scalar) :
    Except Error (Written Buffer) := do
  if item.length ≠ d.itemSize then .error (.incompatibleItemSize d.itemSize item.length)
  else return d.writeAt (← d.indexOf pos) item

def setItem (d : Block) (pos : Position) (item : List Scalar) : Except Error Block := do
  (← d.writeItem pos item).finish

def setAbs (d : Block) (i : Nat) (value : Scalar) : Except Error Block :=
  if i < d.buffer.size then .ok (d.modifyElements (·.setIfInBounds i value))
  else .error (.outOfBounds [i] [d.buffer.size])

/-! ### One value in many items -/

/-- Writes one value into every element of the items of a geometry. -/
def fillAt (d : Block) (g : Geometry) (value : Scalar) : Written Buffer :=
  let reach := g.reach d.buffer.size
  let itemSize := d.itemSize
  d.afterWrite (·.fillItems itemSize reach.indices value) reach.stop

def writeFill (d : Block) (value : Scalar) : Written Buffer := d.fillAt d.geometry value

def fill (d : Block) (value : Scalar) : Except Error Block := (d.writeFill value).finish

def writeFillSlice (d : Block) (r : Region) (value : Scalar) :
    Except Error (Written Buffer) := do
  d.checkRegion r
  return d.fillAt (d.geometry.slice r) value

def fillSlice (d : Block) (r : Region) (value : Scalar) : Except Error Block := do
  (← d.writeFillSlice r value).finish

/-! ### Many items -/

/-- The source of a region write under the region's shape: of that shape already, of its size, or
broadcast to it. -/
def spread (data : Block) (s : Shape) : Except Error Block :=
  if data.shape = s then .ok data.view
  else if data.size = s.size then data.reshape s
  else data.broadcastView s

/-- An item of a source as an item of a dataset of kind `k` and item size `n`: a lone element
comes first and zeros follow. -/
def fitItem (k : Kind) (n : Nat) (item : List Scalar) : List Scalar :=
  let own := item.map k.cast
  own ++ List.replicate (n - own.length) k.zero

/-- The items that a dataset of any kind brings to a region, in row-major order. -/
def incoming (d : Block) (r : Region) (data : Block) : Except Error (List (List Scalar)) := do
  d.checkRegion r
  if data.itemSize ≠ d.itemSize ∧ data.itemSize ≠ 1 then
    .error (.incompatibleItemSize d.itemSize data.itemSize)
  else
    let source ← data.spread r.shape
    source.checkRead
    return source.itemList.map (fitItem d.kind d.itemSize)

/-- The write of a lone element that opens the item beyond a walk's reach: it is made before the
rest of that item is looked for. -/
def openingWrite (reach : Geometry.Reach) (items : List (List Scalar)) :
    List (Nat × List Scalar) :=
  match reach.beyond, items.drop reach.indices.length with
  | some i, (v :: _) :: _ => [(i, [v])]
  | _, _ => []

def writeSlice (d : Block) (r : Region) (data : Block) : Except Error (Written Buffer) := do
  let items ← d.incoming r data
  let reach := (d.geometry.slice r).reach d.buffer.size
  let opening := if data.itemSize = d.itemSize then [] else openingWrite reach items
  return d.afterWrite (fun e => (e.putItems (reach.indices.zip items)).putItems opening) reach.stop

def setSlice (d : Block) (r : Region) (data : Block) : Except Error Block := do
  (← d.writeSlice r data).finish

end Dataset

end Hyperslab
