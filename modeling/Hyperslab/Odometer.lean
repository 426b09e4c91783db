import Hyperslab.Layout

/-!
# The odometer

An odometer walks a shape in row-major order, last axis fastest, and keeps one running buffer index
per operand. It is stepped one position at a time; an operand's index is moved by its strides and
never computed from the position.
-/
namespace Hyperslab

/-- The start index and strides of one operand of a walk. -/
structure Operand where
  start : Int
  strides : Strides
  deriving DecidableEq, Repr

/-- A walk in progress. `upcoming` is none once every position has been visited. -/
structure Odometer where
  shape : Shape
  strides : List Strides
  upcoming : Option Position
  /-- The operands' indices at the upcoming position. -/
  offsets : List Int
  /-- The position visited last, and the operands' indices there. -/
  pos : Position
  current : List Int
  remaining : Nat
  deriving DecidableEq, Repr

namespace Odometer

/-- A walk of a shape that has visited nothing yet. -/
def start (s : Shape) (operands : List Operand) : Odometer :=
  let offsets := operands.map Operand.start
  let origin := s.map fun _ => 0
  { shape := s
    strides := operands.map Operand.strides
    upcoming := if s.size = 0 then none else some origin
    offsets := offsets
    pos := origin
    current := offsets
    remaining := s.size }

/-- What stops the walk: a size that is no machine word, or an axis that an operand has no stride
for. The latter is met at the first visit, if there is one. -/
def fault? (o : Odometer) : Option Fault :=
  if o.shape.sizeChecked.isNone then some .overflow
  else if o.remaining ≠ 0 ∧ o.strides.any (·.length < o.shape.length) then some .missingAxis
  else none

/-- Adds `k` strides of axis `j` to every operand's index. -/
def shift (strides : List Strides) (j : Nat) (k : Int) (offsets : List Int) : List Int :=
  List.zipWith (fun off ts => off + k * (ts[j]?).getD 0) offsets strides

/-- Moves on from a position: the last axis that is not at its end advances, and those after it
return to 0. Tried for the first `axes` axes; none if all of them are at their end. -/
def advance (shape : Shape) (strides : List Strides) :
    (axes : Nat) → Position → List Int → Option (Position × List Int)
  | 0, _, _ => none
  | j + 1, pos, offsets =>
      let p := (pos[j]?).getD 0 + 1
      let d := (shape[j]?).getD 0
      if p < d then some (pos.set j p, shift strides j 1 offsets)
      else
        advance shape strides j (pos.set j 0) (shift strides j (-d) (shift strides j 1 offsets))

def next? (o : Odometer) : Option Odometer :=
  o.upcoming.map fun pos =>
    let ahead := advance o.shape o.strides o.shape.length pos o.offsets
    { o with
      upcoming := ahead.map Prod.fst
      offsets := (ahead.map Prod.snd).getD o.offsets
      pos := pos
      current := o.offsets
      remaining := o.remaining - 1 }

/-- The next `n` visits, or all that are left. -/
def visits : Nat → Odometer → List Odometer
  | 0, _ => []
  | n + 1, o =>
      match o.next? with
      | none => []
      | some o => o :: visits n o

def toList (o : Odometer) : List Odometer := o.visits o.remaining

def after : Nat → Odometer → Odometer
  | 0, o => o
  | n + 1, o =>
      match o.next? with
      | none => o
      | some o => after n o

end Odometer

end Hyperslab
