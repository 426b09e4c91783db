import Hyperslab.Dataset.InWords
import Hyperslab.Dataset.Reduction
import Hyperslab.Lazy.Writeable
import Hyperslab.Walk.Position

/-!
# Reductions of what is read slice by slice

A source is anything that regions can be read of: a dataset in memory or a lazy one. The reductions
hold only one slice at a time. Their results are doubles.
-/
namespace Hyperslab

/-- Something that regions can be read of. -/
structure Source (σ : Type) where
  shape : Shape
  itemSize : Nat
  read : Region → Task σ Block

def Dataset.source {σ : Type} (d : Block) : Source σ :=
  ⟨d.shape, d.itemSize, fun r => d.slice r⟩

def Lazy.source {σ : Type} (l : Lazy σ) : Source σ := ⟨l.shape, l.itemSize, l.slice⟩

namespace Source

variable {σ : Type}

def rank (src : Source σ) : Nat := src.shape.length

/-! ## Sums and products -/

/-- The slices that are full on every axis but one, where they have the single index `i`. -/
def slicesAt (rank axis i : Nat) : List Slice :=
  (List.replicate rank Slice.all).set axis (Slice.index (Word.signed i))

/-- Combines the next `n` slices along an axis, from number `i` on, with a total. -/
def accumulateFrom (src : Source σ) (axis : Nat) (op : BinaryOp) :
    (n i : Nat) → Block → Task σ Block
  | 0, _, total => return total
  | n + 1, i, total => do
      let r ← Region.ofSlices src.shape (slicesAt src.rank axis i)
      let part ← src.read r
      accumulateFrom src axis op n (i + 1) (← Dataset.applyInPlace op total part)

/-- A packed dataset that one write has filled with `init`. No item of it is left out, so the write
replaces every element of the buffer. -/
def initial (itemSize : Nat) (s : Shape) (init : Float) : Except Error Block := do
  let d ← Dataset.zeros .double itemSize s
  d.checkWalk
  Fault.check (d.geometry.fault? d.buffer.size)
  return d.modifyElements fun elements => Array.replicate elements.size (.double init)

/-- Combines the slices along an axis, from a dataset of `init`s on, and drops the axis. -/
def accumulate (src : Source σ) (axis : Int) (init : Float) (op : BinaryOp) : Task σ Block := do
  let ax ← Shape.normalizeAxis axis src.rank
  let start ← initial src.itemSize (src.shape.set ax 1) init
  let total ← src.accumulateFrom ax op (src.shape.getD ax 0) 0 start
  total.setShape (src.shape.eraseIdx ax)

def sum (src : Source σ) (axis : Int) : Task σ Block := src.accumulate axis 0.0 .add

def product (src : Source σ) (axis : Int) : Task σ Block := src.accumulate axis 1.0 .multiply

/-- The axes to sum over, in increasing order: the named ones, or all the others. -/
def summedAxes (rank : Nat) (ignore : Bool) (axes : List Int) : Except Error (List Nat) := do
  let named ← Shape.normalizeAxes axes rank
  return (List.range rank).filter fun a => (a ∈ named) != ignore

/-! ## Extrema -/

/-- Puts the values that `pick` finds in the next `n` sub-regions where they belong. -/
def extremumFrom (src : Source σ) (pick : Block → Option Float) :
    (n : Nat) → SubregionWalk → Block → Task σ Block
  | 0, _, out => return out
  | n + 1, w, out => do
      match w.next? with
      | none => return out
      | some (r, w) =>
          let part ← src.read r
          extremumFrom src pick n w
            (← out.set w.usedPos (.double ((pick part).getD Number.nan)))

/-- The value that `pick` finds in each sub-region spanning the named axes, or not-a-number. -/
def extremum (src : Source σ) (axes : List Int) (pick : Block → Option Float) : Task σ Block := do
  if axes.isEmpty then throw (.invalidSlice .noAxes)
  else
    let w ← SubregionWalk.start (Region.full src.shape) axes
    src.extremumFrom pick w.positions.odometer.remaining w
      (← Dataset.zeros .double 1 w.usedShape)

def maxAxes (src : Source σ) (axes : List Int) : Task σ Block := src.extremum axes Dataset.max?

def minAxes (src : Source σ) (axes : List Int) : Task σ Block := src.extremum axes Dataset.min?

/-! ## Means -/

/-- What has been summed up for a mean: the slices, the squares of their errors and their number. -/
structure Tally where
  total : Option Block
  variance : Option Block
  count : Nat

/-- A sum with one more summand. -/
def plus (sum : Option Block) (d : Block) : Except Error Block :=
  match sum with
  | none => .ok d
  | some s => Dataset.applyInPlace .add s d

/-- Takes one more slice into account. -/
def Tally.add (t : Tally) (part : Block) : Except Error Tally := do
  let total ← match t.total with
    | none => pure (part.cast .double)
    | some s => Dataset.applyInPlace .add s part
  let variance ← match part.errorsBroadcast? with
    | none => pure t.variance
    | some e => do pure (some (← plus t.variance (← Dataset.binary .multiply .double e e)))
  return ⟨some total, variance, t.count + 1⟩

/-- The mean of what was summed up, with the root of the sum of the squared errors over the number
of slices as its errors. -/
def Tally.mean (t : Tally) (start stop : Nat) : Except Error Block := do
  match t.total with
  | none => .error (.invalidSlice (.noSlices start stop))
  | some total =>
      let count ← Dataset.full .double [] (.double (Number.ofNat t.count))
      let total ← Dataset.applyInPlace .divide total count
      let total ← match t.variance with
        | none => pure total
        | some v => do
            let roots := v.toList.map fun x => Scalar.double x.toFloat.sqrt
            let e ← Dataset.ofElements .double v.itemSize v.shape roots
            let e ← Dataset.applyInPlace .divide e count
            total.setErrors e.field
      total.squeeze

/-- Takes the next `n` sub-regions of a walk into account. -/
def tallyFrom (src : Source σ) : (n : Nat) → PositionWalk → Tally → Task σ Tally
  | 0, _, t => return t
  | n + 1, w, t => do
      match w.next? with
      | none => return t
      | some w =>
          let r ← Region.ofSlices src.shape (PositionWalk.slicesAt w.held w.pos)
          let part ← src.read r
          tallyFrom src n w (← t.add part)

/-- The mean of the sub-regions spanning the named axes, of those numbered from `start` up to, and
without, `stop`. -/
def meanRange (src : Source σ) (start stop : Nat) (axes : List Int) : Task σ Block := do
  let w ← PositionWalk.startHolding (Region.full src.shape) axes
  let n := min stop w.odometer.remaining - start
  let tally ← src.tallyFrom n (if n = 0 then w else w.after start) ⟨none, none, 0⟩
  tally.mean start stop

def mean (src : Source σ) (axes : List Int) : Task σ Block := src.meanRange 0 unlimited axes

end Source

end Hyperslab
