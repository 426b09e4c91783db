import Hyperslab.Odometer

/-!
# Walks of a view and of a region

Both visit the buffer index of every item in row-major order; a region's walk also knows where in
the whole view it stands.
-/
namespace Hyperslab

namespace Odometer

def index (o : Odometer) (k : Nat) : Nat := Word.unsigned ((o.current[k]?).getD 0)

/-- The indices of the first operand at the next `n` visits, up to the first visit whose index
fails a test, and that index. -/
def indicesWhile (test : Nat → Bool) : Nat → Odometer → List Nat × Option Nat
  | 0, _ => ([], none)
  | n + 1, o =>
      match o.next? with
      | none => ([], none)
      | some o =>
          let i := o.index 0
          if test i then
            let (before, first) := indicesWhile test n o
            (i :: before, first)
          else ([], some i)

end Odometer

namespace Geometry

def walk (g : Geometry) : Odometer :=
  Odometer.start g.shape [⟨Word.signed g.offset, g.strides⟩]

/-- How far a walk of all items gets in a buffer. -/
structure Reach where
  /-- The indices of the leading items that are all in the buffer. -/
  indices : List Nat
  /-- The index of the first item that is not. -/
  beyond : Option Nat
  /-- What stops the walk there. -/
  stop : Option Fault

/-- How far a walk of all items gets in a buffer of `length` elements. -/
def reach (g : Geometry) (length : Nat) : Reach :=
  match g.fault? length with
  | none => ⟨g.indices, none, none⟩
  | some fault =>
      let w := g.walk
      if w.fault?.isSome then ⟨[], none, some fault⟩
      else
        let (indices, beyond) := w.indicesWhile (fun i => i + g.itemSize ≤ length) w.remaining
        ⟨indices, beyond, some fault⟩

end Geometry

structure RegionWalk where
  region : Region
  odometer : Odometer

namespace RegionWalk

/-- The walk of a region, which must lie in the view's shape. -/
def start (g : Geometry) (r : Region) : Except Error RegionWalk :=
  if r.source = g.shape then .ok ⟨r, (g.slice r).walk⟩
  else .error (.incompatibleShapes r.source g.shape)

def next? (w : RegionWalk) : Option RegionWalk :=
  w.odometer.next?.map fun o => { w with odometer := o }

def toList (w : RegionWalk) : List RegionWalk :=
  w.odometer.toList.map fun o => { w with odometer := o }

def index (w : RegionWalk) : Nat := w.odometer.index 0

/-- The position in the whole view of the item visited last. -/
def sourcePos (w : RegionWalk) : Position := w.region.sourcePosition w.odometer.pos

end RegionWalk

end Hyperslab
