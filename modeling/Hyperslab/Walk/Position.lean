import Hyperslab.Odometer

/-!
# Walks of positions and of sub-regions

A position walk visits the positions of a region, holding chosen axes at the region's start. Each
position then is the origin of a sub-region that spans the held axes; a sub-region walk yields
those sub-regions themselves.
-/
namespace Hyperslab

structure PositionWalk where
  region : Region
  /-- Which axes are held at the region's start. -/
  held : List Bool
  odometer : Odometer

namespace PositionWalk

/-- The walk of every position of a region. -/
def start (r : Region) : PositionWalk :=
  ⟨r, r.spans.map fun _ => false, Odometer.start r.shape []⟩

/-- The walk of a region that holds the named axes. An empty region has no position to hold, so its
size is needed. -/
def startHolding (r : Region) (axes : List Int) : Except Error PositionWalk := do
  let axes ← Shape.normalizeAxes axes r.rank
  let _ ← r.shape.sizeWord
  let held := (List.range r.rank).map fun i => decide (i ∈ axes)
  let lengths := List.zipWith (fun d h => if h && r.size ≠ 0 then 1 else d) r.shape held
  return ⟨r, held, Odometer.start lengths []⟩

def next? (w : PositionWalk) : Option PositionWalk :=
  w.odometer.next?.map fun o => { w with odometer := o }

def toList (w : PositionWalk) : List PositionWalk :=
  w.odometer.toList.map fun o => { w with odometer := o }

def after (n : Nat) (w : PositionWalk) : PositionWalk :=
  { w with odometer := w.odometer.after n }

/-- The position visited last, in the region's coordinates. -/
def regionPos (w : PositionWalk) : Position := w.odometer.pos

/-- The position visited last, in the source's coordinates. -/
def pos (w : PositionWalk) : Position := w.region.sourcePosition w.odometer.pos

/-- One slice per axis: all of a held axis, the single index `pos` elsewhere. -/
def slicesAt (held : List Bool) (pos : Position) : List Slice :=
  List.zipWith (fun h (p : Nat) => if h then Slice.all else Slice.index (Word.signed p)) held pos

end PositionWalk

/-- A walk of the sub-regions of a region that span chosen axes and have a single index on every
other axis. -/
structure SubregionWalk where
  region : Region
  positions : PositionWalk

namespace SubregionWalk

/-- The walk of the sub-regions that span the named axes. -/
def start (r : Region) (axes : List Int) : Except Error SubregionWalk := do
  return ⟨r, ← PositionWalk.startHolding (Region.full r.shape) axes⟩

/-- The entries of the axes that are not spanned. -/
def used {α : Type} (w : SubregionWalk) (entries : List α) : List α :=
  ((entries.zip w.positions.held).filter fun p => !p.2).map Prod.fst

def usedShape (w : SubregionWalk) : Shape := w.used w.region.shape

/-- The position visited last, in the region's coordinates; spanned axes read 0. -/
def pos (w : SubregionWalk) : Position := w.positions.regionPos

/-- The position visited last in the grid of sub-regions. -/
def usedPos (w : SubregionWalk) : Position := w.used w.pos

/-- What stops the walk: what stops the walk of its positions, or a region with more axes than its
source. The latter is met at the first visit, if there is one. -/
def fault? (w : SubregionWalk) : Option Fault :=
  if w.positions.odometer.remaining ≠ 0 ∧ w.region.source.length < w.region.rank then
    some .missingAxis
  else w.positions.odometer.fault?

/-- The sub-region visited last. -/
def subregion (w : SubregionWalk) : Except Error Region := do
  w.region.compose
    (← Region.ofSlices w.region.shape (PositionWalk.slicesAt w.positions.held w.positions.pos))

def next? (w : SubregionWalk) : Option (Region × SubregionWalk) := do
  let w := { w with positions := ← w.positions.next? }
  return (← w.subregion.toOption, w)

/-- The next `n` visits, or all that are left. -/
def visits : Nat → SubregionWalk → List (Region × SubregionWalk)
  | 0, _ => []
  | n + 1, w =>
      match w.next? with
      | none => []
      | some v => v :: visits n v.2

def toList (w : SubregionWalk) : List (Region × SubregionWalk) :=
  w.visits w.positions.odometer.remaining

end SubregionWalk

end Hyperslab
