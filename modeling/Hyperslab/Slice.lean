import Hyperslab.Shape

/-!
# Slices of one axis

A slice selects every `step`-th position from `start` up to, and without, `stop`. Negative bounds
count from the end of the axis and bounds past an end are cut back to it; a missing bound is the
end of the axis in the direction of the step. A slice may also name a single index, which has to
lie on the axis.
-/
namespace Hyperslab

/-- A request for positions of one axis, before the axis's length is known. -/
structure Slice where
  start : Option Int
  stop : Option Int
  step : Int
  /-- The slice stands for the single position `start`. -/
  isIndex : Bool
  deriving DecidableEq, Repr

/-- A slice resolved against an axis: `count` positions `start`, `start + step`, and so on. -/
structure Span where
  start : Int
  stop : Int
  step : Int
  count : Nat
  deriving DecidableEq, Repr

namespace Span

/-- All of an axis, in forward order. -/
def full (length : Nat) : Span := ⟨0, Word.signed length, 1, length⟩

/-- The source coordinate of the `p`-th selected position. -/
def coord (s : Span) (p : Nat) : Int := s.start + p * s.step

/-- The last selected position, if there is any. -/
def last (s : Span) : Int := s.start + ((s.count : Int) - 1) * s.step

/-- The same positions in the opposite order. Nothing changes when there are none, or so many that
their number is no signed word. -/
def flip (s : Span) : Span :=
  if 0 < Word.signed s.count then ⟨s.last, s.start - s.step, -s.step, s.count⟩ else s

/-- The positions that `inner` selects among those of `outer`. -/
def compose (outer inner : Span) : Span :=
  let start := outer.start + inner.start * outer.step
  let step := outer.step * inner.step
  ⟨start, start + Word.signed inner.count * step, step, inner.count⟩

/-- `start:stop:step`; a backward span that runs off the front has no stop to write. -/
def text (s : Span) : String :=
  if s.step < 0 ∧ s.stop < 0 then s.start.repr ++ "::" ++ s.step.repr
  else s.start.repr ++ ":" ++ s.stop.repr ++ ":" ++ s.step.repr

/-- Bounds and step are signed words. -/
def fits (s : Span) : Bool := Word.fits s.start && Word.fits s.stop && Word.fits s.step

end Span

namespace Slice

def range (start stop : Option Int) (step : Int) : Slice := ⟨start, stop, step, false⟩

def all : Slice := range none none 1

/-- The positions from `start` up to, and without, `stop`. -/
def between (start stop : Nat) : Slice :=
  range (some (Word.signed start)) (some (Word.signed stop)) 1

def index (i : Int) : Slice := ⟨some i, if i = -1 then none else some (i + 1), 1, true⟩

/-- The slice, if its bounds and step are signed words. -/
def checked (s : Slice) : Except Error Slice :=
  if (s.start.all Word.fits) && (s.stop.all Word.fits) && Word.fits s.step then .ok s
  else .error (.fault .overflow)

/-- The position that a bound names on an axis of length `length`. -/
def wrap (length i : Int) : Int := if i < 0 then i + length else i

/-- `z` cut back to the range from `lo` to `hi`. -/
def clamp (lo hi z : Int) : Int := if z < lo then lo else if hi < z then hi else z

/-- How many steps of length `step` start before the distance `d` is used up. -/
def steps (d step : Int) : Nat := if 0 < d then ((d + step - 1) / step).toNat else 0

/-- The positions of a slice with a nonzero step on an axis of length `len` that may grow to
`lim`. Only forward slices reach past the current length. -/
def span (s : Slice) (len lim : Int) : Span :=
  if 0 < s.step then
    let start := clamp 0 lim (s.start.elim 0 (wrap len))
    let stop := clamp 0 lim (s.stop.elim len (wrap len))
    ⟨start, stop, s.step, steps (stop - start) s.step⟩
  else
    let start := clamp (-1) (len - 1) (s.start.elim (len - 1) (wrap len))
    let stop := clamp (-1) (len - 1) (s.stop.elim (-1) (wrap len))
    ⟨start, stop, s.step, steps (start - stop) (-s.step)⟩

/-- The single index of a slice that stands for one. -/
def index? (s : Slice) : Option Int := if s.isIndex then s.start else none

/-- On an axis whose length is negative as a signed word there is no last position to start a
backward slice from, and counting back from its end may leave the signed words. -/
def stops (s : Slice) (len : Int) : Bool :=
  len < 0 && (s.step < 0 ||
    (s.start.toList ++ s.stop.toList).any fun i => i < 0 && !Word.fits (i + len))

/-- The positions selected on an axis of length `length` that may grow to `limit`. An index is looked
at before the bounds are. A backward step without an opposite word faults as soon as it is counted
with. -/
def resolve (s : Slice) (length limit : Nat) : Except Error Span :=
  let len := Word.signed length
  let lim : Int := min limit (Word.half - 1)
  if s.step = 0 then .error (.invalidSlice .zeroStep)
  else
    match s.index?.filter fun i => ¬ (0 ≤ wrap len i ∧ wrap len i < lim) with
    | some i =>
        if Word.fits (wrap len i) then .error (.indexOutOfRange i length)
        else .error (.fault .overflow)
    | none =>
        let span := s.span len lim
        if s.stops len then .error (.fault .overflow)
        else if span.count ≠ 0 ∧ ¬ Word.fits (-s.step) then .error (.fault .overflow)
        else .ok span

end Slice

end Hyperslab
