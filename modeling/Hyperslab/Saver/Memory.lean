import Hyperslab.Dataset.InWords
import Hyperslab.Saver

/-!
# Storage in memory

The stored data is a dataset. A write to a larger region makes it grow: old items stay where they
are and new ones have the fill value. Regions are read and written in words.
-/
namespace Hyperslab

/-- Data stored in memory. -/
structure Memory where
  stored : Block
  fill : Scalar
  isWriteable : Bool

namespace Memory

def of (d : Block) : Memory := ⟨d, d.kind.zero, true⟩

/-- A copy of the stored data. -/
def dataset (m : Memory) : Block := m.stored.copy

def grown (m : Memory) (s : Shape) : Except Error Block := do
  let d := m.stored
  let out ← Dataset.zeros d.kind d.itemSize s
  out.checkWalk
  let out ← out.fill m.fill
  let old ← Region.ofSlices s (d.shape.map fun n => Slice.range none (some (Word.signed n)) 1)
  let out ← out.setSliceInWords old d
  return out.withName d.name

/-- The region has the rank of the stored data and its source is nowhere shorter. -/
def canGrowTo (m : Memory) (r : Region) : Bool :=
  r.rank == m.stored.rank && (r.source.zip m.stored.shape).all fun p => p.2 ≤ p.1

/-- The storage as a region needs it: as it is, or grown to the region's source. -/
def prepared (m : Memory) (r : Region) : Except Error Memory :=
  if r.source = m.stored.shape then .ok m
  else if m.canGrowTo r then do return { m with stored := ← m.grown r.source }
  else .error (.incompatibleShapes r.source m.stored.shape)

/-- The failure of a request that the stored data does not admit. -/
def refusal (e : Error) : IoFailure := e.toIoFailure .invalidInput

def read (m : Memory) (r : Region) : Except IoFailure Block :=
  (m.stored.sliceInWords r).mapError refusal

/-- Writes a region. The storage has grown even if the data then is refused, and it keeps what a
write that is stopped wrote before. -/
def write (r : Region) (data : Block) : Action Memory Unit := fun m =>
  match m.prepared r with
  | .error e => (.error (refusal e), m)
  | .ok m =>
      match m.stored.writeSliceInWords r data with
      | .error e => (.error (refusal e), m)
      | .ok w => ((Fault.check w.stop).mapError refusal, { m with stored := w.dataset })

def saver : Saver Memory where
  isReadable _ := true
  read r m := (m.read r, m)
  isWriteable m := m.isWriteable
  write := write
  setFill v m := { m with fill := v }
  background := none

end Memory

end Hyperslab
