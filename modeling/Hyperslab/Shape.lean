import Hyperslab.Error
import Hyperslab.Word

/-!
# Shapes, positions and strides

A shape lists the length of each axis. Items are numbered in row-major order, last axis fastest.
Strides count scalar elements, so they are multiples of the item size in a packed layout.
-/
namespace Hyperslab

/-- The length of each axis. -/
abbrev Shape := List Nat

/-- One coordinate per axis. -/
abbrev Position := List Nat

/-- One signed step, in scalar elements, per axis. -/
abbrev Strides := List Int

/-- What stops making a list of `n` entries of `bytes` bytes each: more bytes than a signed word
counts. -/
def Word.listFault? (bytes n : Nat) : Option Fault :=
  if bytes * n < half then none else some .overflow

/-- The length of a list of words that is to be made. -/
def Word.listLength (n : Nat) : Except Error Nat := do
  Fault.check (listFault? 8 n)
  return n

namespace Shape

/-! ## Sizes -/

def size : Shape → Nat
  | [] => 1
  | d :: s => d * size s

/-- The number of items, multiplied from the first axis on; none once a product leaves the
64-bit range, even if a later axis is empty. -/
def sizeChecked (s : Shape) : Option Nat :=
  s.foldlM (fun n d => if n * d < Word.modulus then some (n * d) else none) 1

/-- The number of items as a machine word, or an overflow. -/
def sizeWord (s : Shape) : Except Error Nat :=
  match sizeChecked s with
  | some n => .ok n
  | none => .error (.fault .overflow)

@[simp] theorem size_nil : size [] = 1 := rfl

@[simp] theorem size_cons (d : Nat) (s : Shape) : size (d :: s) = d * size s := rfl

/-! ## Strides -/

/-- The distance, in elements, that all of a packed shape spans; an empty axis counts as one. -/
def extent (itemSize : Nat) : Shape → Int
  | [] => Word.signed itemSize
  | d :: s => extent itemSize s * Word.signed (max d 1)

/-- Row-major strides of a packed shape. -/
def strides (itemSize : Nat) : Shape → Strides
  | [] => []
  | _ :: s => extent itemSize s :: strides itemSize s

/-- Every product that the packed strides are made of is a signed word. -/
def stridesFit (itemSize : Nat) : Shape → Bool
  | [] => Word.fits (extent itemSize [])
  | d :: s => Word.fits (extent itemSize (d :: s)) && stridesFit itemSize s

/-- Row-major strides of a packed shape, or an overflow. -/
def stridesChecked (itemSize : Nat) (s : Shape) : Except Error Strides :=
  if s.stridesFit itemSize then .ok (s.strides itemSize) else .error (.fault .overflow)

@[simp] theorem length_strides (itemSize : Nat) (s : Shape) :
    (strides itemSize s).length = s.length := by
  induction s with
  | nil => rfl
  | cons d s ih => simp [strides, ih]

/-! ## Positions -/

/-- The position has a coordinate on every axis, each below the axis's length. -/
def contains : Shape → Position → Bool
  | [], [] => true
  | d :: s, p :: ps => p < d && contains s ps
  | _, _ => false

def checkPosition (s : Shape) (pos : Position) : Except Error Unit :=
  if s.contains pos then .ok () else .error (.outOfBounds pos s)

/-- Every position in row-major order, axis by axis. -/
def enumerate : Shape → List Position
  | [] => [[]]
  | d :: s => (List.range d).flatMap fun i => (enumerate s).map (i :: ·)

/-- Every position in row-major order. A shape with an empty axis has none, however long its other
axes are. -/
def positions (s : Shape) : List Position := if s.size = 0 then [] else enumerate s

/-- The position of the `i`-th item in row-major order. -/
def unravel (i : Nat) (s : Shape) : Position :=
  match s with
  | [] => []
  | d :: s => i / size s % d :: unravel i s

/-! ## Axis names -/

/-- The axis that a name stands for; negative names count from the end. -/
def normalizeAxis (axis : Int) (rank : Nat) : Except Error Nat :=
  let a := if axis < 0 then axis + rank else axis
  if a < 0 ∨ (rank : Int) ≤ a then .error (.invalidAxis axis rank) else .ok a.toNat

theorem normalizeAxis_eq_ok_iff {axis : Int} {rank a : Nat} :
    normalizeAxis axis rank = .ok a ↔ (if axis < 0 then axis + rank else axis) = a ∧ a < rank := by
  simp only [normalizeAxis]
  generalize (if axis < 0 then axis + (rank : Int) else axis) = b
  split
  · simp only [reduceCtorEq, false_iff]
    omega
  · simp only [Except.ok.injEq]
    omega

/-- The axes that names stand for, as `axisOf` reads them; no axis may be named twice. -/
def distinctAxes (axisOf : Int → Except Error Nat) (rank : Nat) (axes : List Int) :
    Except Error (List Nat) :=
  axes.foldlM (fun seen axis => do
    let a ← axisOf axis
    if a ∈ seen then .error (.invalidAxis axis rank) else .ok (seen ++ [a])) []

/-- The axes that names stand for; no axis may be named twice. -/
def normalizeAxes (axes : List Int) (rank : Nat) : Except Error (List Nat) :=
  distinctAxes (normalizeAxis · rank) rank axes

/-- `normalizeAxis` for a rank that may be any machine word. A rank beyond the signed words has no
axis that can be named, and counting back from it may leave their range. -/
def wordAxis (axis : Int) (rank : Nat) : Except Error Nat :=
  if rank < Word.half then normalizeAxis axis rank
  else if axis < 0 ∧ ¬ Word.fits (axis + Word.signed rank) then .error (.fault .overflow)
  else .error (.invalidAxis axis rank)

/-- `normalizeAxes` for a rank that may be any machine word. -/
def wordAxes (axes : List Int) (rank : Nat) : Except Error (List Nat) :=
  distinctAxes (wordAxis · rank) rank axes

/-! ## Unit axes -/

def squeeze (s : Shape) : Shape := s.filter (· ≠ 1)

def squeezeEnds (s : Shape) : Shape :=
  ((s.dropWhile (· == 1)).reverse.dropWhile (· == 1)).reverse

/-- Drops the named axes, all of which must be unit axes. -/
def squeezeAxes (s : Shape) (axes : List Int) : Except Error Shape := do
  let axes ← normalizeAxes axes s.length
  match axes.find? fun a => s[a]? ≠ some 1 with
  | some a => .error (.incompatibleShapes s (s.set a 1))
  | none => .ok ((s.zipIdx.filter fun p => p.2 ∉ axes).map Prod.fst)

/-- The shapes have the same axes apart from unit ones. -/
def differsByOnes (a b : Shape) : Bool := a.squeeze == b.squeeze

/-- The shapes have the same rank and agree on every axis but one. -/
def compatibleExcept (a b : Shape) (axis : Nat) : Bool :=
  a.length == b.length && ((a.zip b).zipIdx.all fun p => p.2 == axis || p.1.1 == p.1.2)

end Shape

namespace Strides

/-- The displacement of a position; coordinates beyond either list do not count. -/
def offset : Strides → Position → Int
  | t :: ts, i :: is => i * t + offset ts is
  | _, _ => 0

/-- The displacement of a position whose coordinates are read as signed words. Every product and
every sum on the way has to be one too. -/
def wordOffset (ts : Strides) (pos : Position) : Except Error Int :=
  (pos.zip ts).foldlM (fun sum (i, t) =>
    let term := Word.signed i * t
    if Word.fits term && Word.fits (sum + term) then .ok (sum + term)
    else .error (.fault .overflow)) 0

@[simp] theorem offset_nil (ts : Strides) : offset ts [] = 0 := by cases ts <;> rfl

@[simp] theorem offset_cons (t : Int) (ts : Strides) (i : Nat) (is : Position) :
    offset (t :: ts) (i :: is) = i * t + offset ts is := rfl

end Strides

end Hyperslab
