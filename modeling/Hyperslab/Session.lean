import Hyperslab.InWords
import Hyperslab.Json.Reader
import Hyperslab.Text.Debug

/-!
# Sessions

A session holds values under names, together with the state that they share: the buffers of
datasets, the storage behind savers, and the listeners. A step of a session may fail; what it did
before that stays.
-/
namespace Hyperslab

/-- A value of a session. -/
inductive Item where
  | dataset (h : Handle)
  | region (r : Region)
  | lazy (l : Lazy Depot)
  | writeable (w : Writeable Depot)
  | saver (s : SaverName)

/-- Named values and the state that they share. -/
structure Session where
  store : Store
  depot : Depot
  board : Switchboard
  items : List (String × Item)

/-- Why a step of a session fails. -/
inductive Failure where
  | refused (e : Error)
  | storage (e : IoFailure)
  | unreadable (e : Json.ReadError)
  /-- There is no value of the expected kind. -/
  | missing (what : String)

abbrev SessionM := ExceptT Failure (StateM Session)

namespace Item

/-- The metadata of a dataset of any kind; other values have none. -/
def metadata : Item → Metadata
  | dataset h => h.metadata
  | lazy l => l.metadata
  | writeable w => w.lazy.metadata
  | _ => .empty

def withMetadata (m : Metadata) : Item → Item
  | dataset h => dataset { h with metadata := m }
  | lazy l => lazy { l with metadata := m }
  | writeable w => writeable { w with lazy := { w.lazy with metadata := m } }
  | i => i

def shape : Item → Shape
  | dataset h => h.shape
  | region r => r.shape
  | lazy l => l.shape
  | writeable w => w.shape
  | saver _ => []

def lazy? : Item → Option (Lazy Depot)
  | lazy l => some l
  | writeable w => some w.lazy
  | _ => none

end Item

namespace Session

def empty : Session := ⟨.empty, .empty, .empty, []⟩

/-! ## Steps of the parts -/

def ofExcept {α : Type} : Except Error α → SessionM α
  | .ok a => pure a
  | .error e => throw (.refused e)

def ofText {α : Type} : Except Json.ReadError α → SessionM α
  | .ok a => pure a
  | .error e => throw (.unreadable e)

/-- A step on the buffers. -/
def onStore {α : Type} (x : StoreM α) : SessionM α := do
  let s ← get
  let (out, store) := x.run s.store
  set { s with store := store }
  ofExcept out

/-- A step on the storage behind savers. -/
def onDepot {α : Type} (x : Task Depot α) : SessionM α := do
  let s ← get
  let (out, depot) := x.run s.depot
  set { s with depot := depot }
  ofExcept out

/-- An action of a saver itself. A fault of the storage is a fault of the step. -/
def onSaver {α : Type} (a : Action Depot α) : SessionM α := do
  let s ← get
  let (out, depot) := a s.depot
  set { s with depot := depot }
  match out with
  | .ok x => pure x
  | .error ⟨.stopped f, _⟩ => throw (.refused (.fault f))
  | .error e => throw (.storage e)

instance : MonadLift (Except Error) SessionM := ⟨ofExcept⟩

instance : MonadLift (Except Json.ReadError) SessionM := ⟨ofText⟩

instance : MonadLift StoreM SessionM := ⟨onStore⟩

instance : MonadLift (Task Depot) SessionM := ⟨onDepot⟩

/-- The state of a step is the session, and not one of its parts. -/
instance (priority := 2000) : MonadStateOf Session SessionM :=
  inferInstanceAs (MonadStateOf Session (ExceptT Failure (StateT Session Id)))

/-- Changes the storage behind savers. -/
def modifyDepot (f : Depot → Depot) : SessionM Unit :=
  modify fun s => { s with depot := f s.depot }

def modifyBoard (f : Switchboard → Switchboard) : SessionM Unit :=
  modify fun s => { s with board := f s.board }

/-! ## Named values -/

def item (name : String) : SessionM Item := do
  match (← get).items.lookup name with
  | some i => return i
  | none => throw (.missing ("no register " ++ name))

/-- Gives a value a name, which it takes from any other. -/
def setItem (name : String) (i : Item) : SessionM Unit :=
  modify fun s => { s with items := (name, i) :: s.items.filter fun p => p.1 != name }

def dataset (name : String) : SessionM Handle := do
  match ← item name with
  | .dataset h => return h
  | _ => throw (.missing name)

def region (name : String) : SessionM Region := do
  match ← item name with
  | .region r => return r
  | _ => throw (.missing name)

def lazy (name : String) : SessionM (Lazy Depot) := do
  match (← item name).lazy? with
  | some l => return l
  | none => throw (.missing name)

def writeable (name : String) : SessionM (Writeable Depot) := do
  match ← item name with
  | .writeable w => return w
  | _ => throw (.missing name)

def saver (name : String) : SessionM SaverName := do
  match ← item name with
  | .saver s => return s
  | _ => throw (.missing name)

/-- What the reductions read of the dataset of a name, of any kind. -/
def source (name : String) : SessionM (Source Depot) := do
  match ← item name with
  | .dataset h => return (← h.peek).sourceInWords
  | _ => return (← lazy name).sourceInWords

def modifyMetadata (name : String) (f : Metadata → Metadata) : SessionM Unit := do
  let i ← item name
  setItem name (i.withMetadata (f i.metadata))

def setErrors (name : String) (errors : Handle) : SessionM Unit := do
  match ← item name with
  | .dataset h => setItem name (.dataset (← h.setErrorsInWords errors))
  | .lazy l => setItem name (.lazy (← l.setErrors (← errors.peek).field))
  | .writeable w =>
      setItem name (.writeable { w with lazy := ← w.lazy.setErrors (← errors.peek).field })
  | _ => throw (.missing name)

/-- Puts what a write made of the dataset of a name in its place. The step fails if the write was
stopped. -/
def keepWritten (name : String) (w : Written BufferId) : SessionM Handle := do
  setItem name (.dataset w.dataset)
  w.finish

def debugText (name : String) : SessionM String := do
  match ← item name with
  | .dataset h => return Text.ofDataset (← h.read)
  | .region r => return Text.ofRegion r
  | .lazy l => return Text.ofLazy l
  | .writeable w => return Text.ofWriteable w
  | .saver _ => throw (.missing name)

/-- A write to the dataset of a name. What it did before it was refused stays. -/
def write (name : String) (step : Writeable.StageM Depot Unit) : SessionM (Writeable Depot) := do
  let w ← writeable name
  let (out, x) := step.run ⟨w, (← get).depot, []⟩
  modifyDepot fun _ => x.state
  modifyBoard (·.callAll x.calls)
  setItem name (.writeable x.handle)
  ofExcept out
  return x.handle

end Session

end Hyperslab
