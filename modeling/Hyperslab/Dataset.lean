import Hyperslab.Metadata

/-!
# Datasets

A dataset is a frame over a buffer together with its metadata. The type is open in how the buffer
is given: a `Block` carries its buffer with it and is a plain value, while the datasets of a store
name a buffer that they share. What only makes a new frame works for both.
-/
namespace Hyperslab

/-- A named n-dimensional collection of items over a buffer, with metadata. -/
structure Dataset (β : Type) extends Frame where
  buffer : β
  metadata : Metadata

/-- A dataset that carries its own buffer. -/
abbrev Block := Dataset Buffer

namespace Dataset

variable {β : Type}

/-! ## Views -/

/-- The same buffer through another frame and with other metadata. -/
def through (d : Dataset β) (frame : Frame) (m : Metadata) : Dataset β :=
  { frame with buffer := d.buffer, metadata := m }

def view (d : Dataset β) : Dataset β := d.through d.toFrame.view d.metadata.copy

def sliceView (d : Dataset β) (r : Region) : Except Error (Dataset β) := do
  let frame ← d.toFrame.slice r
  return d.through frame (← d.metadata.onSlice r true)

/-- A view with its axes in the order of axis names; none reverse the axes. -/
def transposed (d : Dataset β) (axes : List Int) : Except Error (Dataset β) := do
  let perm ← Permutation.ofAxes d.rank axes
  if Permutation.isIdentity perm then return d.view
  else
    Fault.check d.axisFault?
    return d.through (d.permuted perm) (← d.metadata.onTranspose perm)

def swapAxes (d : Dataset β) (a b : Int) : Except Error (Dataset β) := do
  d.transposed (← d.swapping a b)

/-- A view with one axis moved in front of axis `start`. -/
def rollAxis (d : Dataset β) (axis start : Int) : Except Error (Dataset β) := do
  d.transposed (← d.rolling axis start)

def flip (d : Dataset β) (axis : Int) : Except Error (Dataset β) := do
  d.sliceView (← (Region.full d.shape).flip axis)

def flipLeftRight (d : Dataset β) : Except Error (Dataset β) := do
  d.checkPlane
  d.flip 1

def flipUpDown (d : Dataset β) : Except Error (Dataset β) := d.flip 0

/-- A view turned `k` times by a right angle in the plane of the first two axes. -/
def rot90 (d : Dataset β) (k : Int) : Except Error (Dataset β) := do
  d.checkPlane
  match (k % 4).toNat with
  | 0 => return d.view
  | 1 => (← d.swapAxes 0 1).flip 0
  | 2 => (← d.flip 0).flip 1
  | _ => (← d.swapAxes 0 1).flip 1

/-- A view with items repeated along unit and missing axes, without metadata. -/
def broadcastView (d : Dataset β) (s : Shape) : Except Error (Dataset β) := do
  return d.through (← d.toFrame.broadcast s) .empty

/-- A view under another shape; none if the layout does not allow it. -/
def reshapeView? (d : Dataset β) (s : Shape) : Except Error (Option (Dataset β)) := do
  let map ← Regrouping.of d.shape s
  Fault.check (d.regroupFault? map)
  match d.regrouped? map with
  | some frame => return some (d.through frame (← d.metadata.onReshape map))
  | none => return none

/-! ## Names and metadata -/

def withName (d : Dataset β) (name : String) : Dataset β := { d with name := name }

/-- The metadata is told of a write. -/
def dirtied (d : Dataset β) : Dataset β := { d with metadata := d.metadata.onDirty }

/-- Refuses errors whose shape does not broadcast to the dataset's. -/
def checkErrors (d : Dataset β) (errors : Shape) : Except Error Unit := do
  if d.rank < errors.length then .error (.incompatibleShapes errors d.shape)
  else if (← Shape.broadcast d.shape errors) ≠ d.shape then
    .error (.incompatibleShapes errors d.shape)
  else return

def setErrors (d : Dataset β) (errors : Field) : Except Error (Dataset β) := do
  d.checkErrors errors.shape
  return { d with metadata := ← d.metadata.setErrors d.rank errors }

/-! ## Blocks -/

/-- The dataset as a bare array. -/
def field (d : Block) : Field := { d.toFrame with buffer := d.buffer.elements }

/-- A bare array as a dataset whose buffer was never written to. -/
def ofField (f : Field) (m : Metadata) : Block :=
  { f.toFrame with buffer := .of f.buffer, metadata := m }

/-- A dataset of row-major elements, packed and without metadata. -/
def ofList (k : Kind) (s : Shape) (itemSize : Nat) (l : List Scalar) : Block :=
  ofField (Field.ofList k "" s itemSize l) .empty

def checkRead (d : Block) : Except Error Unit := Fault.check (d.fault? d.buffer.size)

def toList (d : Block) : List Scalar := d.elements d.buffer.elements

def itemList (d : Block) : List (List Scalar) := d.items d.buffer.elements

/-- The same items in a packed buffer of their own, without metadata. -/
def dense (d : Block) : Block := ofField d.field.dense .empty

/-- The same items in a packed buffer of their own, with a copy of the metadata. -/
def copy (d : Block) : Block := ofField d.field.dense d.metadata.copy

/-- Every element converted to another kind, without metadata. -/
def cast (d : Block) (k : Kind) : Block := ofField (d.field.cast k) .empty

def slice (d : Block) (r : Region) : Except Error Block := do
  let f ← d.field.slice r
  return ofField f (← d.metadata.onSlice r false)

/-- The items in the same order under another shape: a view where the layout allows it, and a
packed copy otherwise. -/
def reshape (d : Block) (s : Shape) : Except Error Block := do
  let map ← Regrouping.of d.shape s
  Fault.check (d.regroupFault? map)
  match d.regrouped? map with
  | some frame => return d.through frame (← d.metadata.onReshape map)
  | none =>
      d.checkRead
      return ofField { d.field.dense with shape := s } (← d.metadata.onReshape map)

/-- The dataset itself under another shape. It stays a view if it was one and still shares its
buffer. -/
def setShape (d : Block) (s : Shape) : Except Error Block := do
  if s = d.shape then return d
  else
    let map ← Regrouping.of d.shape s
    let out ← d.reshape s
    return { out with isView := d.isView && (d.regrouped? map).isSome }

def squeeze (d : Block) : Except Error Block := d.reshape d.shape.squeeze

def flatten (d : Block) : Except Error Block := d.reshape [d.size]

def errorsBroadcast? (d : Block) : Option Block :=
  (d.metadata.errorsBroadcast? d.shape).map (ofField · .empty)

end Dataset

end Hyperslab
