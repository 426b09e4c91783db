import Hyperslab.Shape

/-!
# Listeners

Listeners are known by name. A listener may be registered more than once and then hears of an
event as often.
-/
namespace Hyperslab

/-- What listeners are told after a write. -/
structure Event where
  name : String
  shape : Shape
  deriving DecidableEq, Repr

/-- The listeners of one dataset, in the order in which they were registered. -/
structure Listeners where
  names : List String
  deriving DecidableEq, Repr

namespace Listeners

def empty : Listeners := ⟨[]⟩

def add (l : Listeners) (name : String) : Listeners := ⟨l.names ++ [name]⟩

def remove (l : Listeners) (name : String) : Listeners := ⟨l.names.filter (· ≠ name)⟩

def hasListeners (l : Listeners) : Bool := !l.names.isEmpty

/-- The calls that an event leads to. -/
def fire (l : Listeners) (e : Event) : List (String × Event) := l.names.map fun name => (name, e)

end Listeners

/-- Listeners that may register others: a list of its own, which listeners that were made to do so
add to when they are called, and the log of all calls. -/
structure Switchboard where
  /-- For each known listener, whom it registers when it is called. -/
  known : List (String × Option String)
  listeners : Listeners
  log : List (String × Event)

namespace Switchboard

def empty : Switchboard := ⟨[], .empty, []⟩

def knows (b : Switchboard) (name : String) : Bool := b.known.any fun k => k.1 == name

/-- Makes a listener known that registers nobody; one that is known already stays as it is. -/
def meet (b : Switchboard) (name : String) : Switchboard :=
  if b.knows name then b else { b with known := b.known ++ [(name, none)] }

/-- Makes a listener known, and with it the one that it registers; one that is known already stays
as it is. -/
def know (b : Switchboard) (name : String) (adds : Option String) : Switchboard :=
  if b.knows name then b
  else adds.elim { b with known := b.known ++ [(name, none)] } fun other =>
    { b with known := b.known ++ [(name, some other)] }.meet other

/-- A listener is called. -/
def call (b : Switchboard) (c : String × Event) : Switchboard :=
  let b := { b with log := b.log ++ [c] }
  match (b.known.lookup c.1).join with
  | none => b
  | some other => { b with listeners := b.listeners.add other }

def callAll (b : Switchboard) (calls : List (String × Event)) : Switchboard := calls.foldl call b

end Switchboard

end Hyperslab
