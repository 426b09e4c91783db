import Hyperslab.Dataset

/-!
# Making datasets

Constructors of packed datasets. Each refuses an item size of 0, a number of elements that does not
match the shape, and a shape that no buffer can hold.
-/
namespace Hyperslab.Dataset

def checkItemSize (itemSize : Nat) : Except Error Unit :=
  if itemSize = 0 then .error (.incompatibleItemSize 0 1) else .ok ()

/-- A dataset with one value everywhere. -/
def fullOf (k : Kind) (itemSize : Nat) (s : Shape) (value : Scalar) : Except Error Block := do
  let n ← reserve k s itemSize
  return ofField { Frame.packed k "" s itemSize with buffer := Array.replicate n value } .empty

def zeros (k : Kind) (itemSize : Nat) (s : Shape) : Except Error Block := do
  checkItemSize itemSize
  fullOf k itemSize s k.zero

/-- A dataset of single elements with one value everywhere. -/
def full (k : Kind) (s : Shape) (value : Scalar) : Except Error Block := fullOf k 1 s value

def ofElements (k : Kind) (itemSize : Nat) (s : Shape) (l : List Scalar) : Except Error Block := do
  checkItemSize itemSize
  if (← elementCount s itemSize) ≠ l.length then
    .error (.incompatibleShapes s [l.length / itemSize])
  else return ofList k s itemSize l

/-- A dataset of given elements along one axis. -/
def ofVector (k : Kind) (l : List Scalar) : Block := ofList k [l.length] 1 l

/-- A dataset whose elements are given by position. -/
def ofFn (k : Kind) (s : Shape) (f : Position → Scalar) : Except Error Block := do
  let _ ← reserve k s 1
  return ofList k s 1 (s.positions.map f)

/-- A dataset whose elements are `base` plus a multiple of each coordinate. -/
def ofPositions (k : Kind) (s : Shape) (base : Int) (slopes : List Int) : Except Error Block :=
  ofFn k s fun pos => k.ofInt (base + Strides.offset slopes pos)

/-- The doubles `0`, `1`, and so on below `n`. -/
def range (n : Nat) : Block :=
  ofVector .double ((List.range n).map fun i => .double (Number.ofNat i))

/-- A dataset of complex numbers: items of a real and an imaginary part. -/
def ofComplex (s : Shape) (l : List (Float × Float)) : Except Error Block := do
  if (← elementCount s 1) ≠ l.length then .error (.incompatibleShapes s [l.length])
  else ofElements .double 2 s (l.flatMap fun z => [.double z.1, .double z.2])

end Hyperslab.Dataset
