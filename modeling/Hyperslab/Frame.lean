import Hyperslab.Buffer
import Hyperslab.Layout
import Hyperslab.Shape.Broadcast
import Hyperslab.Shape.Regrouping

/-!
# Frames

A frame is a dataset without its elements: kind, name, shape, item size and where the items lie in
a buffer. Slicing, transposing, broadcasting and most reshapes only make a new frame over the same
buffer, so they are operations on frames.
-/
namespace Hyperslab

/-! ## The limits of buffers -/

/-- The largest number of scalar elements that a buffer may have. -/
def maxElements : Nat := (Word.half - 1) / 16

/-- The largest number of bytes that can be set aside for one buffer. -/
def maxBytes : Nat := Nat.pow 2 31

/-- The number of bytes of a scalar. -/
def Kind.bytes : Kind → Nat
  | .bool => 1
  | .int _ w => w.bits / 8
  | .single => 4
  | .double => 8

/-- The number of scalar elements of a shape, refused when no buffer may have so many. -/
def elementCount (s : Shape) (itemSize : Nat) : Except Error Nat :=
  match s.sizeChecked.filter fun n => n * itemSize ≤ maxElements with
  | some n => .ok (n * itemSize)
  | none => .error (.allocationFailure s itemSize)

/-- The number of scalar elements of a shape, refused when they cannot be set aside either. -/
def reserve (k : Kind) (s : Shape) (itemSize : Nat) : Except Error Nat := do
  let n ← elementCount s itemSize
  if n * k.bytes ≤ maxBytes then .ok n else .error (.allocationFailure s itemSize)

/-- Where the items of a dataset lie in a buffer, and what they are called. -/
structure Frame where
  kind : Kind
  name : String
  shape : Shape
  itemSize : Nat
  /-- The buffer index of the first item. -/
  offset : Nat
  layout : Layout
  /-- The frame was derived from another one over the same buffer. -/
  isView : Bool

namespace Frame

/-- The frame of a buffer that holds nothing but the items of a shape, in row-major order. -/
def packed (k : Kind) (name : String) (s : Shape) (itemSize : Nat) : Frame :=
  ⟨k, name, s, itemSize, 0, .dense, false⟩

def rank (f : Frame) : Nat := f.shape.length

def size (f : Frame) : Nat := f.shape.size

def isCompound (f : Frame) : Bool := 1 < f.itemSize

def strides (f : Frame) : Strides := f.layout.strides f.shape f.itemSize

def geometry (f : Frame) : Geometry := ⟨f.shape, f.itemSize, f.offset, f.strides⟩

/-- The frame, if its geometry consists of machine words. -/
def checked (f : Frame) : Except Error Frame :=
  if f.geometry.fits then .ok f else .error (.fault .overflow)

/-! ## Reading -/

/-- What stops reading all items from a buffer of `length` elements: more elements than a list can
have, an axis without a stride, or an item that is not all in the buffer. -/
def fault? (f : Frame) (length : Nat) : Option Fault :=
  Word.listFault? f.kind.bytes (f.size * f.itemSize) <|> f.geometry.fault? length

/-- The `itemSize` elements from a buffer index on. -/
def itemAt (f : Frame) (buffer : Elements) (i : Nat) : List Scalar :=
  (List.range f.itemSize).map fun j => buffer.getD (i + j) f.kind.zero

def items (f : Frame) (buffer : Elements) : List (List Scalar) :=
  f.geometry.indices.map (f.itemAt buffer)

/-- All elements in row-major order, the elements of an item next to each other. -/
def elements (f : Frame) (buffer : Elements) : List Scalar := (f.items buffer).flatten

def indexOf (f : Frame) (pos : Position) : Except Error Nat := do
  f.shape.checkPosition pos
  return f.geometry.indexOf pos

/-! ## Other frames over the same buffer -/

/-- The frame with another shape, offset and strides. -/
def withGeometry (f : Frame) (s : Shape) (offset : Nat) (strides : Strides) : Frame :=
  { f with
    shape := s
    offset := offset
    layout := .ofStrides s f.itemSize strides
    isView := true }

/-- The same items, as a frame of its own. -/
def view (f : Frame) : Frame := f.withGeometry f.shape f.offset f.strides

def checkRegion (f : Frame) (r : Region) : Except Error Unit :=
  if r.source = f.shape then .ok () else .error (.incompatibleShapes r.source f.shape)

/-- The items of a region; the region is added to the name. -/
def slice (f : Frame) (r : Region) : Except Error Frame := do
  f.checkRegion r
  let g := f.geometry.slice r
  return { f.withGeometry g.shape g.offset g.strides with name := f.name ++ r.text }

/-- What stops a change of the order of axes: an axis without a stride. -/
def axisFault? (f : Frame) : Option Fault :=
  if f.strides.length < f.rank then some .missingAxis else none

/-- The items with their axes in the order of a permutation. -/
def permuted (f : Frame) (perm : List Nat) : Frame :=
  f.withGeometry (Permutation.apply perm f.shape) f.offset (Permutation.apply perm f.strides)

/-- The items in the same order under another shape, where the layout allows it: when it is dense
or only unit axes come and go. -/
def regrouped? (f : Frame) (map : Regrouping) : Option Frame :=
  if f.layout.isDense then
    some (f.withGeometry map.target f.offset (map.target.strides f.itemSize))
  else (map.unitStrides f.strides).map (f.withGeometry map.target f.offset)

/-- What stops `regrouped?`: an axis that stays and has no stride. -/
def regroupFault? (f : Frame) (map : Regrouping) : Option Fault :=
  if f.layout.isDense then none else map.stridesFault? f.strides

/-- The items repeated along unit and missing axes. -/
def broadcast (f : Frame) (s : Shape) : Except Error Frame := do
  let _ ← elementCount s f.itemSize
  if (← Shape.broadcast f.shape s) ≠ s then .error (.incompatibleShapes f.shape s)
  else return f.withGeometry s f.offset (← Shape.broadcastStrides f.shape f.strides s)

/-- The axis names that exchange two axes. -/
def swapping (f : Frame) (a b : Int) : Except Error (List Int) := do
  let a ← Shape.normalizeAxis a f.rank
  let b ← Shape.normalizeAxis b f.rank
  return (List.range f.rank).map fun i =>
    if i = a then (b : Int) else if i = b then (a : Int) else (i : Int)

/-- The axis names that move one axis in front of axis `start`. -/
def rolling (f : Frame) (axis start : Int) : Except Error (List Int) := do
  let rank := f.rank
  let axis ← Shape.normalizeAxis axis rank
  let start := if start < 0 then start + rank else start
  if start < 0 ∨ (rank : Int) < start then .error (.invalidAxis start rank)
  else
    let place := (if (axis : Int) < start then start - 1 else start).toNat
    let others := (List.range rank).filter (· ≠ axis)
    return (others.insertIdx place axis).map Int.ofNat

def checkPlane (f : Frame) : Except Error Unit :=
  if f.rank < 2 then .error (.invalidAxis 1 f.rank) else .ok ()

end Frame

end Hyperslab
