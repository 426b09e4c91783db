import Hyperslab.Frame

/-!
# Fields

A field is a frame with a buffer of its own: the bare array, without metadata. Metadata is made of
fields, and a dataset is a field that carries metadata.
-/
namespace Hyperslab

/-- An array: a frame and its elements. -/
structure Field extends Frame where
  buffer : Elements

namespace Field

/-- Stops where not all items can be read. -/
def checkRead (f : Field) : Except Error Unit := Fault.check (f.fault? f.buffer.size)

def toList (f : Field) : List Scalar := f.elements f.buffer

def ofList (k : Kind) (name : String) (s : Shape) (itemSize : Nat) (l : List Scalar) : Field :=
  { Frame.packed k name s itemSize with buffer := l.toArray }

def dense (f : Field) : Field := ofList f.kind f.name f.shape f.itemSize f.toList

/-- Every element converted to another kind. -/
def cast (f : Field) (k : Kind) : Field :=
  ofList k f.name f.shape f.itemSize (f.toList.map k.cast)

def withFrame (f : Field) (frame : Frame) : Field := { frame with buffer := f.buffer }

def sliceView (f : Field) (r : Region) : Except Error Field := do
  return f.withFrame (← f.toFrame.slice r)

def slice (f : Field) (r : Region) : Except Error Field := do
  let v ← f.sliceView r
  let _ ← reserve f.kind r.shape f.itemSize
  v.checkRead
  return v.dense

/-- The items in the same order under another shape: a view where the layout allows it. -/
def regrouped (f : Field) (map : Regrouping) : Field :=
  match f.regrouped? map with
  | some frame => f.withFrame frame
  | none => { f.dense with shape := map.target }

/-- The items in the same order under another shape. -/
def reshape (f : Field) (s : Shape) : Except Error Field := do
  return f.regrouped (← Regrouping.of f.shape s)

/-- A view with its axes in the order of axis names. -/
def transposed (f : Field) (axes : List Int) : Except Error Field := do
  let perm ← Permutation.ofAxes f.rank axes
  return f.withFrame (if Permutation.isIdentity perm then f.view else f.permuted perm)

def broadcast (f : Field) (s : Shape) : Except Error Field := do
  return f.withFrame (← f.toFrame.broadcast s)

/-! ## Following a host

A field that follows a host has the host's rank; an axis of length 1 where the host's is longer
stands for all of the host's axis. -/

/-- The slice of one axis of a field of `length` positions, where the host's axis has `host`. -/
def followAxis (f : Field) (r : Region) (axis length host : Nat) : Except Error Slice :=
  if length = host ∨ (host < length ∧ length ≠ 1) then r.axisSlice axis
  else if length = 1 then .ok (Slice.between 0 1)
  else .error (.incompatibleShapes f.shape r.source)

/-- The slices of a field that follows a host through a region. -/
def followSlices (f : Field) (r : Region) : Except Error (List Slice) :=
  if f.rank ≠ r.source.length then .error (.incompatibleShapes f.shape r.source)
  else (f.shape.zip r.source).zipIdx.mapM fun p => f.followAxis r p.2 p.1.1 p.1.2

def followSlice (f : Field) (r : Region) (asView : Bool) : Except Error Field := do
  let own ← Region.ofSlices f.shape (← f.followSlices r)
  if asView then f.sliceView own else f.slice own

def followReshape (f : Field) (map : Regrouping) : Except Error Field := do
  f.reshape (← map.reshapeShape f.shape)

def followTranspose (f : Field) (perm : List Nat) : Except Error Field :=
  f.transposed (perm.map Int.ofNat)

end Field

end Hyperslab
