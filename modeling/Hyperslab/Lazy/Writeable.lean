import Hyperslab.Dataset.InWords
import Hyperslab.Lazy
import Hyperslab.Lazy.Listeners

/-!
# Writeable lazy datasets

A writeable dataset passes writes to its saver, which also serves reads. A write to a region that
reaches past the current shape makes the dataset grow, up to its maximum shape. Listeners hear of
every write that stored something.
-/
namespace Hyperslab

/-- The length of an axis that may grow without bound. -/
def unlimited : Nat := Word.modulus - 1

/-- A lazy dataset that can be written to. -/
structure Writeable (σ : Type) where
  lazy : Lazy σ
  maxShape : Shape
  chunks : Option Shape
  fill : Scalar
  /-- Writes are handed over without waiting, if the saver can take them so. -/
  writesAsync : Bool
  saver : Option (Saver σ)
  listeners : Listeners

namespace Writeable

variable {σ : Type}

def shape (w : Writeable σ) : Shape := w.lazy.shape

def name (w : Writeable σ) : String := w.lazy.name

/-! ## Making -/

/-- Refuses a maximum shape below the shape, and chunks that do not fit it. -/
def checkShapes (s maxShape : Shape) (chunks : Option Shape) : Except Error Unit :=
  if ¬ Region.allows maxShape s then .error (.incompatibleShapes s maxShape)
  else
    match chunks.filter fun c => c.length ≠ s.length || c.any (· == 0) with
    | some c => .error (.incompatibleShapes s c)
    | none => .ok ()

/-- A dataset that has no saver yet. Without a maximum shape nothing can grow. -/
def withoutSaver (k : Kind) (name : String) (itemSize : Nat) (s : Shape)
    (maxShape chunks : Option Shape) : Except Error (Writeable σ) := do
  let maxShape := maxShape.getD s
  checkShapes s maxShape chunks
  return ⟨.of none k name itemSize s, maxShape, chunks, k.zero, false, none, .empty⟩

/-- Gives the dataset a saver, which also becomes its loader and learns the fill value. -/
def setSaver (w : Writeable σ) (saver : Saver σ) (state : σ) : Writeable σ × σ :=
  ({ w with lazy := { w.lazy with loader := some saver.toLoader }, saver := some saver },
    saver.setFill w.fill state)

/-- A dataset stored by a saver, which also serves reads. -/
def ofSaver (saver : Saver σ) (k : Kind) (name : String) (itemSize : Nat) (s : Shape)
    (maxShape chunks : Option Shape) : Task σ (Writeable σ) := do
  let w ← withoutSaver k name itemSize s maxShape chunks
  modifyGet (w.setSaver saver)

/-- Sets the value of elements that come into being without having been written. -/
def setFill (w : Writeable σ) (value : Scalar) (state : σ) : Writeable σ × σ :=
  ({ w with fill := value }, w.saver.elim state fun s => s.setFill value state)

/-! ## Writing -/

/-- Resolves slices against the current shape; they may reach up to the maximum shape. -/
def region (w : Writeable σ) (slices : List Slice) : Except Error Region :=
  Region.ofSlicesWithin w.shape w.maxShape slices

/-- An axis of the region's source is as long as the dataset's, or it grows within the limit. -/
def axisFits (expanded : Bool) (source length limit : Nat) : Bool :=
  source == length ||
    (expanded && length < source && (limit == unlimited || source ≤ limit))

def checkRegion (w : Writeable σ) (r : Region) : Except Error Unit :=
  if r.source.length = w.shape.length ∧
      ((r.source.zip w.shape).zip w.maxShape).all
        fun p => axisFits r.expanded p.1.1 p.1.2 p.2 then .ok ()
  else .error (.incompatibleShapes r.source w.shape)

def openSaver (w : Writeable σ) (state : σ) : Except Error (Saver σ) :=
  match w.saver with
  | none => .error (.notWritable (.noSaver w.name))
  | some saver =>
      if saver.isWriteable state then .ok saver else .error (.notWritable (.readOnly w.name))

/-- The data of a write as a packed dataset of the region's shape. -/
def packed (w : Writeable σ) (r : Region) (data : Block) : Except Error Block := do
  (← Dataset.zeros w.lazy.kind w.lazy.itemSize r.shape).setSliceInWords (Region.full r.shape) data

/-- Hands data to the saver, in the background if that is asked for and possible. -/
def store (saver : Saver σ) (isAsync : Bool) (r : Region) (data : Block) : Action σ Unit :=
  match (if isAsync then saver.background else none) with
  | some b => b.submit r data
  | none => saver.write r data

/-- A dataset with the state of its saver and the calls to listeners so far. -/
structure Stage (σ : Type) where
  handle : Writeable σ
  state : σ
  calls : List (String × Event)

/-- A step on a stage that may be refused; what it did before a refusal stays. -/
abbrev StageM (σ : Type) := ExceptT Error (StateM (Stage σ))

namespace Stage

/-- A step on the state of the saver. -/
def onState {α : Type} (step : Task σ α) : StageM σ α := do
  let x ← get
  let (out, state) := step.run x.state
  set { x with state }
  out

/-- The dataset takes on a shape. -/
def grow (s : Shape) : StageM σ Unit :=
  modify fun x => { x with handle := { x.handle with lazy := { x.handle.lazy with shape := s } } }

/-- Listeners are told of the shape. -/
def fire : StageM σ Unit :=
  modify fun x =>
    { x with calls := x.calls ++ x.handle.listeners.fire ⟨x.handle.name, x.handle.shape⟩ }

/-- Writes data to a region; an empty region stores nothing and nobody hears of it. -/
def write (isAsync : Bool) (r : Region) (data : Block) : StageM σ Unit := do
  let w := (← get).handle
  w.checkRegion r
  let saver ← w.openSaver (← get).state
  if (← r.shape.sizeWord) ≠ 0 then
    let dense ← w.packed r data
    onState (Task.ofAction ("writing " ++ w.name ++ r.text) (store saver isAsync r dense))
    if r.source ≠ w.shape then grow r.source
    fire

/-- Writes data to the region given by optional lists of starts, stops and steps. -/
def writeArrays (data : Block) (start stop step : Option (List Int)) : StageM σ Unit := do
  let w := (← get).handle
  let slices ← Region.slicesOfArrays w.lazy.rank start stop step
  write w.writesAsync (← w.region slices) data

end Stage

/-- Writes data to a region: the dataset afterwards and the calls to listeners. -/
def write (w : Writeable σ) (isAsync : Bool) (r : Region) (data : Block) :
    Task σ (Writeable σ × List (String × Event)) := do
  w.checkRegion r
  let saver ← w.openSaver (← get)
  if (← r.shape.sizeWord) = 0 then return (w, [])
  else
    let dense ← w.packed r data
    Task.ofAction ("writing " ++ w.name ++ r.text) (store saver isAsync r dense)
    let grown := { w with lazy := { w.lazy with shape := r.source } }
    return (grown, w.listeners.fire ⟨w.name, r.source⟩)

def writeArrays (w : Writeable σ) (data : Block) (start stop step : Option (List Int)) :
    Task σ (Writeable σ × List (String × Event)) := do
  let slices ← Region.slicesOfArrays w.lazy.rank start stop step
  w.write w.writesAsync (← w.region slices) data

def flush (w : Writeable σ) : Task σ Unit :=
  match w.saver.bind Saver.background with
  | some b => Task.ofAction ("flushing " ++ w.name) b.flush
  | none => return

end Writeable

end Hyperslab
