import Hyperslab.Saver.Monitored
import Hyperslab.Saver.Queue

/-!
# Depots

A depot keeps the states of any number of savers, so that several datasets can use the same one. A
saver in a depot is known by a `SaverName`; a queue's name holds the name of the saver behind it.
-/
namespace Hyperslab

/-- The states of savers. -/
structure Depot where
  memories : Array Memory
  monitors : Array Monitored
  queues : Array Queue

/-- A saver in a depot. -/
inductive SaverName where
  | memory (i : Nat)
  | monitored (i : Nat)
  | queued (i : Nat) (inner : SaverName)
  deriving DecidableEq, Repr

namespace Depot

def empty : Depot := ⟨#[], #[], #[]⟩

def addMemory (d : Depot) (m : Memory) : SaverName × Depot :=
  (.memory d.memories.size, { d with memories := d.memories.push m })

def addMonitored (d : Depot) (m : Monitored) : SaverName × Depot :=
  (.monitored d.monitors.size, { d with monitors := d.monitors.push m })

/-- Adds a queue in front of a saver. -/
def addQueue (d : Depot) (inner : SaverName) : SaverName × Depot :=
  (.queued d.queues.size inner, { d with queues := d.queues.push .empty })

/-- Storage that was never added: an empty dataset. -/
def noMemory : Memory := .of (Dataset.ofVector .double [])

def memory (i : Nat) (d : Depot) : Memory := d.memories.getD i noMemory

def setMemory (i : Nat) (m : Memory) (d : Depot) : Depot :=
  { d with memories := d.memories.setIfInBounds i m }

def monitored (i : Nat) (d : Depot) : Monitored := d.monitors.getD i (.of noMemory)

def setMonitored (i : Nat) (m : Monitored) (d : Depot) : Depot :=
  { d with monitors := d.monitors.setIfInBounds i m }

def queue (i : Nat) (d : Depot) : Queue := d.queues.getD i .empty

def setQueue (i : Nat) (q : Queue) (d : Depot) : Depot :=
  { d with queues := d.queues.setIfInBounds i q }

def memorySaver (i : Nat) : Saver Depot := Memory.saver.zoom (memory i) (setMemory i)

end Depot

namespace SaverName

/-- The saver of a name. `render` writes fill values for the logs of monitored storage. -/
def saver (render : Scalar → String) : SaverName → Saver Depot
  | memory i => Depot.memorySaver i
  | monitored i => (Monitored.saver render).zoom (Depot.monitored i) (Depot.setMonitored i)
  | queued i inner =>
      (Queue.saver (inner.saver render)).zoom (fun d => (Depot.queue i d, d))
        (fun qd _ => Depot.setQueue i qd.1 qd.2)

def kind (d : Depot) : SaverName → Kind
  | memory i => (Depot.memory i d).stored.kind
  | monitored i => (Depot.monitored i d).memory.stored.kind
  | queued _ inner => inner.kind d

def memory? (d : Depot) : SaverName → Option Memory
  | memory i => some (Depot.memory i d)
  | monitored i => some (Depot.monitored i d).memory
  | queued .. => none

def log? (d : Depot) : SaverName → Option (List String)
  | monitored i => some (Depot.monitored i d).log
  | _ => none

def modifyMemory (f : Memory → Memory) (d : Depot) : SaverName → Depot
  | memory i => Depot.setMemory i (f (Depot.memory i d)) d
  | monitored i =>
      let m := Depot.monitored i d
      Depot.setMonitored i { m with memory := f m.memory } d
  | queued .. => d

def modifyMonitored (f : Monitored → Monitored) (d : Depot) : SaverName → Depot
  | monitored i => Depot.setMonitored i (f (Depot.monitored i d)) d
  | _ => d

end SaverName

end Hyperslab
