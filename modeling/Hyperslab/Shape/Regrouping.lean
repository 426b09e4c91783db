import Hyperslab.Shape

/-!
# Regrouping of axes

Two shapes of equal size correspond by runs of axes: unit axes come and go, a run of axes is
merged into one, or one axis is split into a run. A `Regrouping` carries per-axis entries and
fields from one shape to the other.
-/
namespace Hyperslab

/-- A run of source axes that becomes a run of target axes. An empty source run is a unit axis
that comes, an empty target run one that goes. -/
structure AxisGroup where
  sourceStart : Nat
  sourceLength : Nat
  targetStart : Nat
  targetLength : Nat
  deriving DecidableEq, Repr

namespace AxisGroup

/-- One source axis becomes one target axis. -/
def isSingle (g : AxisGroup) : Bool := g.sourceLength == 1 && g.targetLength == 1

def source {α : Type} (g : AxisGroup) (l : List α) : List α :=
  (l.drop g.sourceStart).take g.sourceLength

def target {α : Type} (g : AxisGroup) (l : List α) : List α :=
  (l.drop g.targetStart).take g.targetLength

/-- How many further axes each side takes until the two products agree, growing the side with the
smaller product. -/
def matchProducts (p q : Nat) (source target : Shape) : Except RegroupFault (Nat × Nat) :=
  if p = q then .ok (0, 0)
  else if p < q then
    match source with
    | [] => .error .productsDiffer
    | d :: rest => do
        let (m, n) ← matchProducts (p * d) q rest target
        return (m + 1, n)
  else
    match target with
    | [] => .error .productsDiffer
    | d :: rest => do
        let (m, n) ← matchProducts p (q * d) source rest
        return (m, n + 1)
termination_by source.length + target.length

/-- The groups of the axes from number `i` of the source and number `j` of the target on. -/
def between (i j : Nat) (source target : Shape) : Except RegroupFault (List AxisGroup) :=
  match source, target with
  | [], [] => .ok []
  | d :: source, [] =>
      if d = 1 then do return ⟨i, 1, j, 0⟩ :: (← between (i + 1) j source [])
      else .error .productsDiffer
  | [], e :: target =>
      if e = 1 then do return ⟨i, 0, j, 1⟩ :: (← between i (j + 1) [] target)
      else .error .productsDiffer
  | d :: source, e :: target =>
      if d = e then do return ⟨i, 1, j, 1⟩ :: (← between (i + 1) (j + 1) source target)
      else if d = 1 then do return ⟨i, 1, j, 0⟩ :: (← between (i + 1) j source (e :: target))
      else if e = 1 then do return ⟨i, 0, j, 1⟩ :: (← between i (j + 1) (d :: source) target)
      else do
        let (m, n) ← matchProducts d e source target
        if m ≠ 0 ∧ n ≠ 0 then .error .regrouped
        else
          return ⟨i, m + 1, j, n + 1⟩ ::
            (← between (i + m + 1) (j + n + 1) (source.drop m) (target.drop n))
termination_by source.length + target.length
decreasing_by all_goals simp only [List.length_cons, List.length_drop, List.length_nil]; omega

end AxisGroup

/-- The correspondence between the axes of two shapes of equal size. A failed correspondence is
reported only when the axes are asked for. -/
structure Regrouping where
  source : Shape
  target : Shape
  found : Except RegroupFault (List AxisGroup)

namespace Regrouping

/-- The correspondence of two shapes, which must have the same size. -/
def of (source target : Shape) : Except Error Regrouping :=
  match source.sizeChecked, target.sizeChecked with
  | some m, some n =>
      if m = n then
        .ok ⟨source, target,
          if m = 0 ∧ ¬ source.differsByOnes target then .error .emptyAxes
          else AxisGroup.between 0 0 source target⟩
      else .error (.incompatibleShapes source target)
  | _, _ => .error (.incompatibleShapes source target)

def groups (r : Regrouping) : Except Error (List AxisGroup) :=
  match r.found with
  | .ok groups => .ok groups
  | .error fault => .error (.unsupportedReshape r.source r.target fault)

/-- Only unit axes come and go. -/
def isOnesOnly (r : Regrouping) : Bool :=
  match r.found with
  | .ok groups => groups.all fun g => g.sourceLength ≤ 1 && g.targetLength ≤ 1
  | .error _ => false

/-- Carries one entry per source axis over to the target axes; an axis that is new or
reinterpreted has none. -/
def remapAxes {α : Type} (r : Regrouping) (items : List (Option α)) :
    Except Error (List (Option α)) := do
  let groups ← r.groups
  return groups.flatMap fun g =>
    if g.isSingle then [(items[g.sourceStart]?).join] else List.replicate g.targetLength none

/-- The target lengths of one group of a field, whose axes are those of the source, or units. -/
def groupShape (r : Regrouping) (field : Shape) (g : AxisGroup) : Except Error Shape :=
  let lengths := g.source field
  if g.isSingle then .ok lengths
  else if lengths = g.source r.source then .ok (g.target r.target)
  else if lengths.all (· == 1) then .ok (List.replicate g.targetLength 1)
  else .error (.unsupportedReshape field r.target .broadcastAxes)

/-- The target shape of a field whose shape broadcasts to the source. -/
def reshapeShape (r : Regrouping) (field : Shape) : Except Error Shape :=
  if field = r.source then .ok r.target
  else if field.length ≠ r.source.length then .error (.incompatibleShapes field r.source)
  else do
    let parts ← (← r.groups).mapM (r.groupShape field)
    return parts.flatten

/-- Strides of the target when only unit axes come and go; a new axis has stride 0. -/
def unitStrides (r : Regrouping) (strides : Strides) : Option Strides :=
  match r.found with
  | .ok groups =>
      if r.isOnesOnly then
        some (groups.flatMap fun g => if g.targetLength = 0 then [] else
          if g.sourceLength = 0 then [0] else g.source strides)
      else none
  | .error _ => none

/-- What stops `unitStrides`: an axis that stays and has no stride. -/
def stridesFault? (r : Regrouping) (strides : Strides) : Option Fault :=
  match r.found with
  | .ok groups =>
      if r.isOnesOnly ∧ groups.any fun g => g.isSingle && strides.length ≤ g.sourceStart then
        some .missingAxis
      else none
  | .error _ => none

end Regrouping

end Hyperslab
