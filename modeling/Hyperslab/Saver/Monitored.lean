import Hyperslab.Saver.Memory

/-!
# Monitored storage

Storage in memory that writes down every call before it is carried out, and that can be told to
refuse reads or writes, or to answer reads with a flat dataset.
-/
namespace Hyperslab

/-- Storage that keeps a log of calls. -/
structure Monitored where
  memory : Memory
  failRead : Bool
  failWrite : Bool
  /-- Reads are answered with all items along one axis. -/
  isFlat : Bool
  log : List String

namespace Monitored

/-- Monitored storage that refuses nothing. -/
def of (m : Memory) : Monitored := ⟨m, false, false, false, []⟩

def note (m : Monitored) (call : String) : Monitored := { m with log := m.log ++ [call] }

/-- An answer to a read as it is, or with all items along one axis. Where the latter cannot be had,
the failure is of no particular class. -/
def answer (m : Monitored) (d : Block) : Except IoFailure Block :=
  if m.isFlat then d.flatten.mapError (Error.toIoFailure .other) else .ok d

def read (r : Region) : Action Monitored Block := fun m =>
  let m := m.note ("read " ++ r.text)
  if m.failRead then (.error .readRefused, m)
  else
    match m.memory.read r with
    | .error e => (.error e, m)
    | .ok d => (m.answer d, m)

def write (r : Region) (data : Block) : Action Monitored Unit := fun m =>
  let m := m.note ("write " ++ r.text ++ " " ++ Text.ofNats data.shape ++
    (if r.expanded then " true" else " false"))
  if m.failWrite then (.error .diskFull, m)
  else
    let (out, memory) := Memory.write r data m.memory
    (out, { m with memory := memory })

/-- The saver of monitored storage. `render` writes a fill value for the log. -/
def saver (render : Scalar → String) : Saver Monitored where
  isReadable m := !m.failRead
  read := read
  isWriteable m := m.memory.isWriteable
  write := write
  setFill v m := { m.note ("fill " ++ render v) with memory := { m.memory with fill := v } }
  background := none

end Monitored

end Hyperslab
