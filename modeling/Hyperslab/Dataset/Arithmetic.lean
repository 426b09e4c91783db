import Hyperslab.BinaryOp
import Hyperslab.Dataset.Access
import Hyperslab.Dataset.Make
import Hyperslab.Walk.Broadcast

/-!
# Arithmetic of datasets

Operands are broadcast against each other. A compound operand pairs with one of the same item size
element by element; an operand of single elements applies to every element of the other's items.
-/
namespace Hyperslab.Dataset

/-- The element `j` of the item at a buffer index; an operand of single elements has only one. -/
def operandAt (d : Block) (i j : Nat) : Except Error Scalar :=
  d.elementAt (i + if 1 < d.itemSize then j else 0)

/-- The walk of two operands, into a packed output or a given one. -/
def pairWalk (a b : Block) (output : Option (Geometry × Bool)) : Except Error BroadcastWalk :=
  BroadcastWalk.start [a.geometry, b.geometry] (a.kind.isFloat || b.kind.isFloat) output

def tripleWalk (a b c : Block) : Except Error BroadcastWalk :=
  BroadcastWalk.start [a.geometry, b.geometry, c.geometry]
    (a.kind.isFloat || b.kind.isFloat || c.kind.isFloat) none

/-- The results at one visited position, each with its place in the output's buffer. -/
def resultsAt (op : BinaryOp) (out : Kind) (a b : Block) (w : BroadcastWalk) :
    Except Error (List (Nat × Scalar)) :=
  match w.indices with
  | [i, j, o] =>
      (List.range w.itemSize).mapM fun k => do
        let x ← a.operandAt i k
        let y ← b.operandAt j k
        return (o + k, ← op.apply w.isDouble out x y)
  | _ => .ok []

/-- The results at every position, each with its place in the output's buffer. A result and its
place take two words. -/
def evaluate (op : BinaryOp) (out : Kind) (a b : Block) (w : BroadcastWalk) :
    Except Error (List (Nat × Scalar)) := do
  Fault.check w.odometer.fault?
  Fault.check (Word.listFault? 16 (w.odometer.remaining * w.itemSize))
  let w := w.forceDouble (op.promotes && out.isFloat)
  w.collect (resultsAt op out a b)

/-- The operation on two datasets, as a packed dataset of kind `out`. -/
def binary (op : BinaryOp) (out : Kind) (a b : Block) : Except Error Block := do
  let w ← pairWalk a b none
  let values ← evaluate op out a b w
  let _ ← reserve out w.shape w.itemSize
  ofElements out w.itemSize w.shape (values.map Prod.snd)

/-- The operation with `other` as its right operand, written into the dataset itself. Every result
is computed before the first one is written. -/
def applyInPlace (op : BinaryOp) (d other : Block) : Except Error Block := do
  let w ← pairWalk d other (some (d.geometry, true))
  let values ← evaluate op d.kind d other w
  return d.modifyElements fun e => values.foldl (fun e p => e.setIfInBounds p.1 p.2) e

end Hyperslab.Dataset
