import Hyperslab.Shape

/-!
# Broadcasting

Shapes are aligned at their last axes. Two lengths on one axis combine when they are equal or one
of them is 1; missing leading axes count as 1. A broadcast axis is walked with stride 0.
-/
namespace Hyperslab.Shape

/-- Unit axes put in front, up to the given rank. -/
def pad (s : Shape) (rank : Nat) : Shape := List.replicate (rank - s.length) 1 ++ s

/-- The common length of two axes. -/
def joinAxis (x y : Nat) : Option Nat :=
  if x = y then some x else if x = 1 then some y else if y = 1 then some x else none

/-- The common lengths of two shapes of equal rank. -/
def joinAxes : Shape → Shape → Option Shape
  | x :: a, y :: b => do return (← joinAxis x y) :: (← joinAxes a b)
  | _, _ => some []

/-- The shape that two shapes broadcast to. A refusal names the longer shape first. -/
def broadcast (a b : Shape) : Except Error Shape :=
  let (long, short) := if a.length < b.length then (b, a) else (a, b)
  match joinAxes long (short.pad long.length) with
  | some s => .ok s
  | none => .error (.incompatibleShapes long short)

/-- The shape that three shapes broadcast to. -/
def broadcast₃ (a b c : Shape) : Except Error Shape := do
  broadcast (← broadcast a b) c

def broadcastAll (shapes : List Shape) : Except Error Shape := shapes.foldlM broadcast []

/-- Strides of aligned axes, 0 where an axis is repeated; none if a length does not fit. -/
def alignStrides : Shape → Strides → Shape → Option Strides
  | d :: s, t :: ts, n :: target => do
      let rest ← alignStrides s ts target
      if d = n then return t :: rest
      else if d = 1 then return 0 :: rest
      else none
  | _, _, target => some (target.map fun _ => 0)

/-- Strides that walk a dataset of shape `s` as one of shape `target`. -/
def broadcastStrides (s : Shape) (strides : Strides) (target : Shape) : Except Error Strides :=
  if target.length < s.length then .error (.incompatibleShapes s target)
  else
    let extra := target.length - s.length
    match alignStrides s strides (target.drop extra) with
    | some out => .ok (List.replicate extra 0 ++ out)
    | none => .error (.incompatibleShapes s target)

/-- The shape of the target's rank whose named axes have the lengths of `s` and whose other axes
are unit axes. -/
def broadcastToAxes (s target : Shape) (axes : List Int) : Except Error Shape := do
  let axes ← normalizeAxes axes target.length
  if axes.length ≠ s.length then .error (.incompatibleShapes s target)
  else if (axes.zip s).any fun p => target[p.1]? ≠ some p.2 && p.2 ≠ 1 then
    .error (.incompatibleShapes s target)
  else .ok ((axes.zip s).foldl (fun out p => out.set p.1 p.2) (target.map fun _ => 1))

end Hyperslab.Shape
