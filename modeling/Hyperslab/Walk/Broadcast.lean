import Hyperslab.Odometer
import Hyperslab.Shape.Broadcast

/-!
# Walks of broadcast operands

The operands are walked in lock step over the shape they broadcast to, together with an output:
either a given view of exactly that shape or a packed one still to be made.
-/
namespace Hyperslab

/-- The common item size of operands: all equal, or 1 beside anything. -/
def commonItemSize (sizes : List Nat) : Except Error Nat :=
  sizes.foldlM (fun out s =>
    if s ≠ 1 ∧ out ≠ 1 ∧ s ≠ out then .error (.incompatibleItemSize out s)
    else .ok (max out s)) 1

/-- A walk of broadcast operands and their output, the last operand. -/
structure BroadcastWalk where
  shape : Shape
  itemSize : Nat
  /-- The output shares its buffer with an operand. -/
  inPlace : Bool
  /-- Arithmetic runs in double precision. -/
  isDouble : Bool
  odometer : Odometer

namespace BroadcastWalk

/-- The output's start and strides. A given output must have the broadcast shape and item size. -/
def outputOperand (shape : Shape) (itemSize : Nat) : Option Geometry → Except Error Operand
  | none => .ok ⟨0, shape.strides itemSize⟩
  | some o =>
      if o.shape ≠ shape then .error (.incompatibleShapes o.shape shape)
      else if o.itemSize ≠ itemSize then .error (.incompatibleItemSize o.itemSize itemSize)
      else .ok ⟨Word.signed o.offset, o.strides⟩

/-- The walk of operands; `output` is a given output and whether it shares an operand's buffer. -/
def start (operands : List Geometry) (isDouble : Bool) (output : Option (Geometry × Bool)) :
    Except Error BroadcastWalk := do
  let shape ← Shape.broadcastAll (operands.map Geometry.shape)
  let itemSize ← commonItemSize (operands.map Geometry.itemSize)
  let ins ← operands.mapM fun g => do
    return (⟨Word.signed g.offset, ← Shape.broadcastStrides g.shape g.strides shape⟩ : Operand)
  let out ← outputOperand shape itemSize (output.map Prod.fst)
  return {
    shape, itemSize, isDouble
    inPlace := (output.map Prod.snd).getD false
    odometer := Odometer.start shape (ins ++ [out]) }

/-- Asks for double precision; it is never switched off. -/
def forceDouble (w : BroadcastWalk) (force : Bool) : BroadcastWalk :=
  { w with isDouble := w.isDouble || force }

def next? (w : BroadcastWalk) : Option BroadcastWalk :=
  w.odometer.next?.map fun o => { w with odometer := o }

def toList (w : BroadcastWalk) : List BroadcastWalk :=
  w.odometer.toList.map fun o => { w with odometer := o }

/-- What `f` gives at the next `n` visits, behind what is there already. A refusal ends the walk. -/
def collectFrom {α : Type} (f : BroadcastWalk → Except Error (List α)) :
    (n : Nat) → BroadcastWalk → Array α → Except Error (Array α)
  | 0, _, found => .ok found
  | n + 1, w, found =>
      match w.next? with
      | none => .ok found
      | some w => do collectFrom f n w (found ++ (← f w))

/-- What `f` gives at all visits that are left, one after the other. -/
def collect {α : Type} (w : BroadcastWalk) (f : BroadcastWalk → Except Error (List α)) :
    Except Error (List α) := do
  return (← collectFrom f w.odometer.remaining w #[]).toList

/-- The buffer indices, one per operand and one for the output, of the position visited last. -/
def indices (w : BroadcastWalk) : List Nat := w.odometer.current.map Word.unsigned

end BroadcastWalk

end Hyperslab
