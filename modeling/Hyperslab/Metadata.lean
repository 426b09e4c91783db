import Hyperslab.Field

/-!
# Metadata

Metadata is attached to a dataset and follows it: when the dataset is sliced, reshaped or
transposed, the result carries a copy that went through the same change. Values that are marked
dirty, because the data they describe was written to, are not copied.
-/
namespace Hyperslab

/-! ## The values -/

/-- Values along each axis, any number of fields per axis. A field has the host's rank and length 1
on every axis but its own. -/
structure AxisValues where
  shape : Shape
  axes : List (List Field)

/-- A summary of the host's elements. `generation` is the number of writes that the host's buffer
had seen when it was made. -/
structure Statistics where
  max : Option Float
  min : Option Float
  sum : Float
  count : Nat
  isDirty : Bool
  generation : Nat

/-- Named fields of the host's rank, in the order of their names. -/
structure Auxiliary where
  entries : List (String × Field)

/-- A label with a log of what happened to its host. A volatile tag gets dirty by writes. -/
structure Tag where
  label : String
  log : List String
  isVolatile : Bool
  isDirty : Bool

/-- Everything attached to a dataset: any number of values of each kind. -/
structure Metadata where
  errors : List Field
  axes : List AxisValues
  statistics : List Statistics
  auxiliary : List Auxiliary
  tags : List Tag

/-! ## Axis values -/

namespace AxisValues

def empty (s : Shape) : AxisValues := ⟨s, s.map fun _ => []⟩

/-- Adds a field of values for one axis, one for each position or one for all. -/
def add (a : AxisValues) (axis : Int) (values : Field) : Except Error AxisValues := do
  let i ← Shape.normalizeAxis axis a.shape.length
  let n := a.shape.getD i 0
  if values.size ≠ n ∧ values.size ≠ 1 then .error (.incompatibleShapes values.shape [n])
  else
    values.checkRead
    let field ← (values.cast .double).reshape ((a.shape.map fun _ => 1).set i values.size)
    return { a with axes := a.axes.modify i (· ++ [field]) }

def replace (a : AxisValues) (axis : Int) (values : Field) : Except Error AxisValues := do
  let i ← Shape.normalizeAxis axis a.shape.length
  { a with axes := a.axes.set i [] }.add axis values

/-- The fields of one axis. A host of another rank may have left the axis without any list. -/
def axis (a : AxisValues) (axis : Int) : Except Error (List Field) := do
  Region.entry a.axes (← Shape.normalizeAxis axis a.shape.length)

/-- The fields of every axis. -/
def lists (a : AxisValues) : Except Error (List (List Field)) :=
  (List.range a.shape.length).mapM (Region.entry a.axes)

def copy (a : AxisValues) : AxisValues := { a with axes := a.axes.map (·.map Field.dense) }

def onSlice (a : AxisValues) (r : Region) (asView : Bool) : Except Error AxisValues := do
  let axes ← a.axes.mapM fun fields => fields.mapM (·.followSlice r asView)
  return ⟨r.shape, axes⟩

def onReshape (a : AxisValues) (map : Regrouping) : Except Error AxisValues := do
  let entries ← map.remapAxes (a.axes.map some)
  let axes ← entries.mapM fun entry => (entry.getD []).mapM (·.followReshape map)
  return ⟨map.target, axes⟩

def onTranspose (a : AxisValues) (perm : List Nat) : Except Error AxisValues := do
  let axes ← (← Permutation.applyChecked perm a.axes).mapM fun fields =>
    fields.mapM (·.followTranspose perm)
  return ⟨← Permutation.applyChecked perm a.shape, axes⟩

end AxisValues

/-! ## Statistics -/

namespace Statistics

/-- The extremum of the elements seen so far and one more; not-a-number is passed over. -/
def pick (better : Float → Float → Float) (best : Option Float) (x : Float) : Option Float :=
  if x.isNaN then best else some (best.elim x fun b => better b x)

/-- Takes one more element into account. -/
def absorb (s : Statistics) (x : Float) : Statistics :=
  { s with
    max := pick Number.maximum s.max x
    min := pick Number.minimum s.min x
    sum := s.sum + x
    count := s.count + 1 }

/-- The summary of elements, at a generation of their buffer. -/
def compute (elements : List Scalar) (generation : Nat) : Statistics :=
  elements.foldl (fun s v => s.absorb v.toFloat) ⟨none, none, 0.0, 0, false, generation⟩

/-- The summary still describes a buffer that has seen `generation` writes. -/
def isCurrent (s : Statistics) (generation : Nat) : Bool :=
  !s.isDirty && s.generation == generation

def mean (s : Statistics) : Option Float :=
  if s.count = 0 then none else some (s.sum / Number.ofNat s.count)

end Statistics

/-! ## Auxiliary fields -/

namespace Auxiliary

def empty : Auxiliary := ⟨[]⟩

/-- Puts an entry into a list that is in the order of names, in place of one of the same name. -/
def put (name : String) (field : Field) : List (String × Field) → List (String × Field)
  | [] => [(name, field)]
  | e :: rest =>
      if e.1 = name then (name, field) :: rest
      else if name < e.1 then (name, field) :: e :: rest
      else e :: put name field rest

def insert (a : Auxiliary) (name : String) (values : Field) : Except Error Auxiliary := do
  values.checkRead
  return ⟨put name (values.cast .double) a.entries⟩

def copy (a : Auxiliary) : Auxiliary := ⟨a.entries.map fun e => (e.1, e.2.dense)⟩

/-- Takes every field through a change. -/
def follow (a : Auxiliary) (change : Field → Except Error Field) : Except Error Auxiliary := do
  return ⟨← a.entries.mapM fun e => do return (e.1, ← change e.2)⟩

end Auxiliary

/-! ## Tags -/

namespace Tag

/-- A tag that has seen nothing yet. -/
def fresh (label : String) (isVolatile : Bool) : Tag := ⟨label, [], isVolatile, false⟩

/-- Notes an event. -/
def note (t : Tag) (event : String) : Tag := { t with log := t.log ++ [event] }

def onSlice (t : Tag) (r : Region) (asView : Bool) : Tag :=
  t.note ("slice " ++ r.text ++ (if asView then " true" else " false"))

def onReshape (t : Tag) (map : Regrouping) : Tag :=
  t.note ("reshape " ++ Text.ofNats map.source ++ " " ++ Text.ofNats map.target)

def onTranspose (t : Tag) (perm : List Nat) : Tag := t.note ("transpose " ++ Text.ofNats perm)

def onDirty (t : Tag) : Tag := { t.note "dirty" with isDirty := t.isVolatile }

end Tag

/-! ## All metadata of a dataset -/

namespace Metadata

def empty : Metadata := ⟨[], [], [], [], []⟩

def isEmpty (m : Metadata) : Bool :=
  m.errors.isEmpty && m.axes.isEmpty && m.statistics.isEmpty && m.auxiliary.isEmpty &&
    m.tags.isEmpty

/-- A list with one more value, or with that value alone. -/
def attach {α : Type} (replace : Bool) (values : List α) (v : α) : List α :=
  if replace then [v] else values ++ [v]

/-- A copy of every value that is not dirty, with packed fields. -/
def copy (m : Metadata) : Metadata :=
  { errors := m.errors.map Field.dense
    axes := m.axes.map AxisValues.copy
    statistics := m.statistics.filter fun s => !s.isDirty
    auxiliary := m.auxiliary.map Auxiliary.copy
    tags := m.tags.filter fun t => !t.isDirty }

/-- The copy for a slice of the host. Statistics of the whole say nothing about a part. -/
def onSlice (m : Metadata) (r : Region) (asView : Bool) : Except Error Metadata := do
  let m := m.copy
  return {
    errors := ← m.errors.mapM (·.followSlice r asView)
    axes := ← m.axes.mapM (·.onSlice r asView)
    statistics := m.statistics.map fun s => { s with isDirty := true }
    auxiliary := ← m.auxiliary.mapM (·.follow (·.followSlice r asView))
    tags := m.tags.map (·.onSlice r asView) }

def onReshape (m : Metadata) (map : Regrouping) : Except Error Metadata := do
  let m := m.copy
  return {
    errors := ← m.errors.mapM (·.followReshape map)
    axes := ← m.axes.mapM (·.onReshape map)
    statistics := m.statistics
    auxiliary := ← m.auxiliary.mapM (·.follow (·.followReshape map))
    tags := m.tags.map (·.onReshape map) }

def onTranspose (m : Metadata) (perm : List Nat) : Except Error Metadata := do
  let m := m.copy
  return {
    errors := ← m.errors.mapM (·.followTranspose perm)
    axes := ← m.axes.mapM (·.onTranspose perm)
    statistics := m.statistics
    auxiliary := ← m.auxiliary.mapM (·.follow (·.followTranspose perm))
    tags := m.tags.map (·.onTranspose perm) }

def onDirty (m : Metadata) : Metadata :=
  { m with
    statistics := m.statistics.map fun s => { s with isDirty := true }
    tags := m.tags.map Tag.onDirty }

def errors? (m : Metadata) : Option Field := m.errors.head?.map Field.dense

def errorsBroadcast? (m : Metadata) (s : Shape) : Option Field := do
  let e ← m.errors?
  let v ← (e.broadcast s).toOption
  return v.dense

/-- Attaches errors whose shape has been found to broadcast to a host of the given rank. -/
def setErrors (m : Metadata) (rank : Nat) (errors : Field) : Except Error Metadata := do
  errors.checkRead
  let e ← (errors.cast .double).reshape (errors.shape.pad rank)
  return { m with errors := [e] }

end Metadata

end Hyperslab
