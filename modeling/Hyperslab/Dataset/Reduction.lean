import Hyperslab.Dataset.Make

/-!
# Reductions

Results are doubles. Along an axis, compound items are reduced element by element.
-/
namespace Hyperslab

namespace Number

/-- The first of a list combined with the others from left to right. -/
def reduce (f : Float → Float → Float) : List Float → Option Float
  | [] => none
  | x :: rest => some (rest.foldl f x)

end Number

namespace Dataset

/-! ## Of all elements -/

def floats (d : Block) : List Float := d.toList.map Scalar.toFloat

/-- The sum; of nothing it is negative zero, the neutral element of addition. -/
def sum (d : Block) : Float := d.floats.foldl (· + ·) (-0.0)

def product (d : Block) : Float := d.floats.foldl (· * ·) 1.0

def max? (d : Block) : Option Float :=
  Number.reduce Number.maximum (d.floats.filter fun x => !x.isNaN)

def min? (d : Block) : Option Float :=
  Number.reduce Number.minimum (d.floats.filter fun x => !x.isNaN)

/-- The mean; not-a-number when there is nothing. -/
def mean (d : Block) : Float := d.sum / Number.ofNat (d.size * d.itemSize)

/-! ## Along an axis -/

/-- Consecutive runs of `n` entries. -/
def chunks {α : Type} (n : Nat) (l : List α) : List (List α) :=
  if n = 0 ∨ l = [] then []
  else l.take n :: chunks n (l.drop n)
termination_by l.length
decreasing_by
  rename_i h
  have : l.length ≠ 0 := by simpa using (not_or.mp h).2
  simp only [List.length_drop]
  omega

def foldRun (itemSize : Nat) (init : Float) (f : Float → Float → Float)
    (run : List (List Scalar)) : List Float :=
  (List.range itemSize).map fun j =>
    run.foldl (fun acc item => f acc ((item[j]?).elim 0.0 Scalar.toFloat)) init

/-- Folds the elements along an axis, which the result lacks. The length of a run of elements is a
word. -/
def foldAxis (d : Block) (axis : Int) (init : Float) (f : Float → Float → Float) :
    Except Error Block := do
  let ax ← Shape.normalizeAxis axis d.rank
  let n := d.shape.getD ax 0
  let rest : Shape := d.shape.eraseIdx ax
  let moved ← d.rollAxis ax d.rank
  moved.checkRead
  let _ ← Word.listLength (rest.size * d.itemSize)
  Fault.check (if n * d.itemSize < Word.modulus then none else some .overflow)
  let runs := if n = 0 then List.replicate rest.size [] else chunks n moved.itemList
  let out ← ofElements .double d.itemSize rest
    ((runs.flatMap (foldRun d.itemSize init f)).map .double)
  return out.withName d.name

def sumAxis (d : Block) (axis : Int) : Except Error Block := d.foldAxis axis 0.0 (· + ·)

def productAxis (d : Block) (axis : Int) : Except Error Block := d.foldAxis axis 1.0 (· * ·)

def maxAxis (d : Block) (axis : Int) : Except Error Block :=
  d.foldAxis axis (-Number.infinity) Number.maximum

def minAxis (d : Block) (axis : Int) : Except Error Block :=
  d.foldAxis axis Number.infinity Number.minimum

/-- The means along an axis, summed from the elements' shares. -/
def meanAxis (d : Block) (axis : Int) : Except Error Block := do
  let ax ← Shape.normalizeAxis axis d.rank
  let n := Number.ofNat (d.shape.getD ax 0)
  d.foldAxis axis 0.0 fun a b => a + b / n

end Dataset

end Hyperslab
