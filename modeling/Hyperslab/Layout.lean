import Hyperslab.Region

/-!
# Layouts and geometries

A layout says how the items of a shape lie in a buffer. A geometry adds the shape, the item size
and the index of the first item: it locates every item without touching an element.
-/
namespace Hyperslab

/-- How positions map onto a buffer. -/
inductive Layout where
  /-- Row-major and contiguous. -/
  | dense
  /-- Explicit strides, possibly zero or negative. -/
  | strided (strides : Strides)
  deriving DecidableEq, Repr

namespace Layout

/-- Dense when the strides are the row-major ones. -/
def ofStrides (s : Shape) (itemSize : Nat) (strides : Strides) : Layout :=
  if strides = s.strides itemSize then dense else strided strides

def isDense : Layout → Bool
  | dense => true
  | strided _ => false

def strides (s : Shape) (itemSize : Nat) : Layout → Strides
  | dense => s.strides itemSize
  | strided strides => strides

@[simp] theorem strides_ofStrides (s : Shape) (itemSize : Nat) (ts : Strides) :
    (ofStrides s itemSize ts).strides s itemSize = ts := by
  unfold ofStrides
  split <;> simp_all [strides]

end Layout

/-- Where the items of a view lie in a buffer. -/
structure Geometry where
  shape : Shape
  itemSize : Nat
  offset : Nat
  strides : Strides
  deriving DecidableEq, Repr

namespace Geometry

/-- Packed from index 0 on. -/
def dense (s : Shape) (itemSize : Nat) : Geometry := ⟨s, itemSize, 0, s.strides itemSize⟩

def isDense (g : Geometry) : Bool := g.strides == g.shape.strides g.itemSize

def indexOf (g : Geometry) (p : Position) : Nat :=
  Word.unsigned (Word.signed g.offset + g.strides.offset p)

/-- The buffer index of the item at a position whose coordinates are any machine words. -/
def wordIndexOf (g : Geometry) (p : Position) : Except Error Nat := do
  let index := Word.signed g.offset + (← g.strides.wordOffset p)
  if Word.fits index then return Word.unsigned index else .error (.fault .overflow)

/-- The displacements of all positions of a shape from `base`, in row-major order. -/
def sweep (base : Int) : Shape → Strides → List Int
  | [], _ => [base]
  | d :: s, ts =>
      (List.range d).flatMap fun (i : Nat) => sweep (base + i * ts.headD 0) s ts.tail

/-- The buffer index of every item in row-major order. A shape with an empty axis has no items,
however long its other axes are. -/
def indices (g : Geometry) : List Nat :=
  if g.shape.size = 0 then []
  else (sweep (Word.signed g.offset) g.shape g.strides).map Word.unsigned

/-- The geometry of a region. The offset of an empty region stays where it was. -/
def slice (g : Geometry) (r : Region) : Geometry :=
  let moved := (List.zipWith (· * ·) r.starts g.strides).foldr (· + ·) 0
  { shape := r.shape
    itemSize := g.itemSize
    offset := if r.size = 0 then g.offset else Word.unsigned (Word.signed g.offset + moved)
    strides := List.zipWith (· * ·) g.strides r.steps }

/-- Strides and sizes are machine words. -/
def fits (g : Geometry) : Bool :=
  g.shape.stridesFit g.itemSize && g.strides.all Word.fits &&
    (g.shape.sizeChecked.any fun n => n * g.itemSize < Word.modulus)

/-! ## In a buffer -/

/-- The least index of an item, if there is one. -/
def lowest (g : Geometry) : Int :=
  Word.signed g.offset +
    (List.zipWith (fun (d : Nat) (t : Int) => min 0 ((d - 1 : Nat) * t)) g.shape g.strides).foldr
      (· + ·) 0

/-- The greatest index of an item, if there is one. -/
def highest (g : Geometry) : Int :=
  Word.signed g.offset +
    (List.zipWith (fun (d : Nat) (t : Int) => max 0 ((d - 1 : Nat) * t)) g.shape g.strides).foldr
      (· + ·) 0

/-- What stops a walk of all items in a buffer of `length` elements: an axis without a stride, or
an item that is not all in the buffer. -/
def fault? (g : Geometry) (length : Nat) : Option Fault :=
  if g.shape.size = 0 then none
  else if g.strides.length < g.shape.length then some .missingAxis
  else if g.lowest < 0 ∨ (length : Int) < g.highest + g.itemSize then some .outsideBuffer
  else none

end Geometry

end Hyperslab
