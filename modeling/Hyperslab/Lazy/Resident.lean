import Hyperslab.Lazy.Writeable
import Hyperslab.Saver.Depot

/-!
# Lazy datasets over data in memory

A dataset behind the lazy interface: its data is kept as storage in memory of a depot.
-/
namespace Hyperslab

/-- Keeps data in memory; the number of the storage and the depot afterwards. -/
def Depot.keep (data : Block) (depot : Depot) : Nat × Depot :=
  (depot.memories.size, (depot.addMemory (.of data)).2)

/-- The loader of storage in memory over exact integers. -/
def Depot.memoryLoader (i : Nat) : Loader Depot where
  isReadable _ := true
  read r depot := (((depot.memory i).stored.slice r).mapError Memory.refusal, depot)

def Lazy.ofBlock (data : Block) : Task Depot (Lazy Depot) := do
  let i ← modifyGet (Depot.keep data)
  return .of (some (Depot.memoryLoader i)) data.kind data.name data.itemSize data.shape

def Writeable.ofBlock (data : Block) (maxShape : Option Shape) : Task Depot (Writeable Depot) := do
  let i ← modifyGet (Depot.keep data)
  Writeable.ofSaver (Depot.memorySaver i) data.kind data.name data.itemSize data.shape maxShape none

end Hyperslab
