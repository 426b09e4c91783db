import Hyperslab.Slice
import Hyperslab.Shape.Permutation

/-!
# Regions

A region is a rectangular selection of a source shape: one `Span` per axis. With limits, a region
may reach past the source on axes that can grow; the source then grows to contain it and the
region is *expanded*.

A region that is read from a text need not be one that can be resolved: it may have another rank
than its source, and bounds and steps to spare. What asks for an axis that is not there faults.
-/
namespace Hyperslab

/-- Bounds and steps beyond the last axis of a region. -/
structure Spare where
  start : List Int
  stop : List Int
  step : List Int
  deriving DecidableEq, Repr

def Spare.none : Spare := ⟨[], [], []⟩

/-- A resolved rectangular selection. -/
structure Region where
  /-- The shape the region lies in, grown if the region is expanded. -/
  source : Shape
  /-- How long each axis may become; none if nothing can grow. -/
  limits : Option Shape
  spans : List Span
  /-- The region reaches past the shape it was made for. -/
  expanded : Bool
  /-- Only a region that was read from a text has any. -/
  spare : Spare
  deriving DecidableEq, Repr

namespace Region

def shape (r : Region) : Shape := r.spans.map Span.count

def rank (r : Region) : Nat := r.spans.length

def size (r : Region) : Nat := r.shape.size

def starts (r : Region) : List Int := r.spans.map Span.start ++ r.spare.start

def stops (r : Region) : List Int := r.spans.map Span.stop ++ r.spare.stop

def steps (r : Region) : List Int := r.spans.map Span.step ++ r.spare.step

/-- The source position of a position of the selection. -/
def coords (r : Region) (p : Position) : List Int := List.zipWith Span.coord r.spans p

/-- The source position of a position of the selection, as indices. -/
def sourcePosition (r : Region) (p : Position) : Position := (r.coords p).map Word.unsigned

/-- All of a shape, in forward order. -/
def full (s : Shape) : Region := ⟨s, none, s.map Span.full, false, .none⟩

/-- The region is all of its source, in forward order. -/
def isAll (r : Region) : Bool :=
  r.shape == r.source && r.starts.all (· == 0) && r.steps.all (· == 1)

def entry {α : Type} (entries : List α) (axis : Nat) : Except Error α :=
  match entries[axis]? with
  | some a => .ok a
  | none => .error (.fault .missingAxis)

/-- How long an axis of length `length` may become. -/
def limit (r : Region) (axis length : Nat) : Except Error Nat :=
  r.limits.elim (.ok length) (entry · axis)

/-- Replaces the span of one axis. A forward span that reaches past the source grows it. -/
def setAxis (r : Region) (axis : Nat) (slice : Slice) : Except Error Region :=
  if r.rank ≤ axis then .error (.invalidAxis (Word.signed axis) r.rank)
  else do
    let length ← entry r.source axis
    let span ← slice.resolve length (← r.limit axis length)
    let grows := span.count ≠ 0 && 0 < span.step && (length : Int) ≤ span.last
    return {
      r with
      source := if grows then r.source.set axis (span.last.toNat + 1) else r.source
      spans := r.spans.set axis span
      expanded := r.expanded || grows }

/-- Resolves one slice per leading axis of a region that is still full. -/
def setAxes (r : Region) (slices : List Slice) : Except Error Region :=
  if r.rank < slices.length then .error (.invalidSlice (.tooMany slices.length r.rank))
  else slices.zipIdx.foldlM (fun r p => r.setAxis p.2 p.1) r

/-- Resolves one slice per leading axis of a shape; missing axes are full. -/
def ofSlices (s : Shape) (slices : List Slice) : Except Error Region := (full s).setAxes slices

/-- `limits` is a shape of the same rank that is nowhere shorter. -/
def allows (limits s : Shape) : Bool :=
  limits.length == s.length && (s.zip limits).all fun p => p.1 ≤ p.2

/-- Like `ofSlices`, but axes may grow up to `limits`. -/
def ofSlicesWithin (s limits : Shape) (slices : List Slice) : Except Error Region :=
  if allows limits s then { full s with limits := some limits }.setAxes slices
  else .error (.incompatibleShapes s limits)

/-- One slice per axis from optional lists of starts, stops and steps. -/
def slicesOfArrays (rank : Nat) (start stop step : Option (List Int)) :
    Except Error (List Slice) :=
  match [start, stop, step].findSome? fun a => a.filter fun a => a.length ≠ rank with
  | some a => .error (.invalidSlice (.arrayRank a rank))
  | none => .ok ((List.range rank).map fun i =>
      Slice.range (start.bind fun a => a[i]?) (stop.bind fun a => a[i]?)
        ((step.bind fun a => a[i]?).getD 1))

/-- The region given by optional lists of starts, stops and steps. -/
def ofArrays (s : Shape) (start stop step : Option (List Int)) : Except Error Region := do
  ofSlices s (← slicesOfArrays s.length start stop step)

/-- All of a shape but for one axis. -/
def along (s : Shape) (axis : Nat) (slice : Slice) : Except Error Region :=
  (full s).setAxis axis slice

/-- The same items, traversed backwards along `axis`. -/
def flip (r : Region) (axis : Int) : Except Error Region := do
  let axis ← Shape.normalizeAxis axis r.rank
  return { r with spans := r.spans.modify axis Span.flip }

/-- The region that `inner`, a region of this region's shape, selects in this region's source.
Source axes beyond this region's rank are full. -/
def compose (outer inner : Region) : Except Error Region :=
  if inner.source ≠ outer.shape then .error (.incompatibleShapes inner.source outer.shape)
  else if inner.rank < outer.rank ∨ outer.source.length < outer.rank then
    .error (.fault .missingAxis)
  else
    let others := (outer.source.drop outer.rank).map Span.full
    .ok ⟨outer.source, none, List.zipWith Span.compose outer.spans inner.spans ++ others, false,
      .none⟩

/-- The region with its axes in the order of a permutation. -/
def permuted (r : Region) (perm : List Nat) : Region :=
  { source := Permutation.apply perm r.source
    limits := r.limits.map (Permutation.apply perm)
    spans := Permutation.apply perm r.spans
    expanded := r.expanded
    spare := .none }

/-- `permuted`, with a fault when an axis is not there. -/
def permuted? (r : Region) (perm : List Nat) : Except Error Region :=
  let lengths := [r.rank, r.source.length] ++ r.limits.toList.map List.length
  if perm.all fun axis => lengths.all (axis < ·) then .ok (r.permuted perm)
  else .error (.fault .missingAxis)

/-- A request for the positions of one axis, or of a spare one; a stop before the axis is left
out. -/
def axisSlice (r : Region) (axis : Nat) : Except Error Slice := do
  let start ← entry r.starts axis
  let stop ← entry r.stops axis
  let step ← entry r.steps axis
  return Slice.range (some start) (if stop < 0 then none else some stop) step

/-- One span per axis, as in `[0:10:1, 5:15:2]`. -/
def text (r : Region) : String := Text.bracketed (r.spans.map Span.text)

/-- The region, if its bounds and steps are machine words. -/
def inWords (r : Region) : Except Error Region :=
  if r.spans.all Span.fits then .ok r else .error (.fault .overflow)

/-- The region, if its bounds, steps and sizes are machine words. -/
def checked (r : Region) : Except Error Region := do
  let _ ← r.shape.sizeWord
  r.inWords

@[simp] theorem length_shape (r : Region) : r.shape.length = r.rank := by simp [shape, rank]

@[simp] theorem shape_full (s : Shape) : (full s).shape = s := by
  simp [shape, full, Span.full, Function.comp_def]

end Region

end Hyperslab
