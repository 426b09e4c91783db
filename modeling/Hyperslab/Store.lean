import Hyperslab.Dataset.Arrange

/-!
# Shared buffers

A store holds buffers that any number of datasets look at: what one of them writes, all of them
read. A `Handle` is such a dataset.

An operation that needs the elements reads them as a `Block`, works on that value and writes its
buffer back, or puts the result into a new buffer.
-/
namespace Hyperslab

/-- The number of a buffer in its store. -/
abbrev BufferId := Nat

/-- A dataset over a buffer of a store. -/
abbrev Handle := Dataset BufferId

/-- The buffers of all datasets. -/
structure Store where
  buffers : Array Buffer

/-- A step that may change a store and may be refused; what it did before a refusal stays. -/
abbrev StoreM := ExceptT Error (StateM Store)

namespace Store

def empty : Store := ⟨#[]⟩

/-- The buffer of the given number; one that was never made is empty. -/
def buffer (s : Store) (id : BufferId) : Buffer := s.buffers.getD id (.of #[])

def setBuffer (s : Store) (id : BufferId) (b : Buffer) : Store :=
  ⟨s.buffers.setIfInBounds id b⟩

/-- The dataset as a value, with the buffer it has now. -/
def read (s : Store) (h : Handle) : Block :=
  { h.toFrame with buffer := s.buffer h.buffer, metadata := h.metadata }

/-- How many writes the dataset's buffer has seen. -/
def generation (s : Store) (h : Handle) : Nat := (s.buffer h.buffer).generation

/-- Puts a dataset into a new buffer. -/
def adopt (s : Store) (d : Block) : Handle × Store :=
  ({ d.toFrame with buffer := s.buffers.size, metadata := d.metadata },
    ⟨s.buffers.push d.buffer⟩)

end Store

namespace Handle

/-- Whether two datasets read and write the same buffer. -/
def sharesBuffer (a b : Handle) : Bool := a.buffer == b.buffer

/-! ## Reading and making -/

/-- The dataset as a value, of which nothing is read yet. -/
def peek (h : Handle) : StoreM Block := do return (← get).read h

/-- The dataset as a value, all of which can be read. -/
def read (h : Handle) : StoreM Block := do
  let d ← h.peek
  d.checkRead
  return d

/-- A value as a dataset of its own. -/
def adopt (d : Block) : StoreM Handle := do
  let (h, s) := (← get).adopt d
  set s
  return h

def copy (h : Handle) : StoreM Handle := do adopt (← h.read).copy

def slice (h : Handle) (r : Region) : StoreM Handle := do adopt (← (← h.peek).slice r)

/-- The items in the same order under another shape; a new buffer only if the layout asks for it. -/
def reshape (h : Handle) (s : Shape) : StoreM Handle := do
  match ← h.reshapeView? s with
  | some v => return v
  | none => adopt (← (← h.peek).reshape s)

def setShape (h : Handle) (s : Shape) : StoreM Handle := do
  if s = h.shape then return h
  else
    let out ← h.reshape s
    return { out with isView := h.isView && out.sharesBuffer h }

def squeeze (h : Handle) : StoreM Handle := h.reshape h.shape.squeeze

def squeezeEnds (h : Handle) : StoreM Handle := h.reshape h.shape.squeezeEnds

def squeezeAxes (h : Handle) (axes : List Int) : StoreM Handle := do
  h.reshape (← h.shape.squeezeAxes axes)

def flatten (h : Handle) : StoreM Handle := h.reshape [h.size]

/-! ## Operands -/

/-- The dataset as an operand beside another one: a copy of it if the two share their buffer. -/
def beside (h other : Handle) : StoreM Block := do
  if h.sharesBuffer other then return (← h.read).dense else h.peek

/-- The operation on two datasets, as a packed dataset of kind `out`. -/
def binary (op : BinaryOp) (out : Kind) (a b : Handle) : StoreM Handle := do
  let b ← b.beside a
  adopt (← Dataset.binary op out (← a.peek) b)

/-! ## Writing -/

/-- The buffer counts a write that changed nothing. -/
def touch (h : Handle) : StoreM Unit :=
  modify fun s => s.setBuffer h.buffer (s.buffer h.buffer).touched

/-- Writes to a dataset. Nothing happens on a refusal; what a write that is stopped did before
stays. -/
def write (h : Handle) (f : Block → Except Error (Written Buffer)) : StoreM (Written BufferId) := do
  let w ← f (← h.peek)
  modify (·.setBuffer h.buffer w.dataset.buffer)
  return ⟨{ h with metadata := w.dataset.metadata }, w.stop⟩

/-- Writes to a dataset in one go. -/
def update (h : Handle) (f : Block → Except Error Block) : StoreM (Written BufferId) :=
  h.write fun d => do return ⟨← f d, none⟩

def set (h : Handle) (pos : Position) (value : Scalar) : StoreM (Written BufferId) :=
  h.write (·.writeElement pos value)

def setItem (h : Handle) (pos : Position) (item : List Scalar) : StoreM (Written BufferId) :=
  h.write (·.writeItem pos item)

/-- Sets the element at a buffer index. The buffer counts the attempt even if it is refused. -/
def setAbs (h : Handle) (i : Nat) (value : Scalar) : StoreM (Written BufferId) := do
  if (← h.peek).buffer.size ≤ i then h.touch
  h.update (·.setAbs i value)

def fill (h : Handle) (value : Scalar) : StoreM (Written BufferId) :=
  h.write fun d => .ok (d.writeFill value)

def fillSlice (h : Handle) (r : Region) (value : Scalar) : StoreM (Written BufferId) :=
  h.write (·.writeFillSlice r value)

def setSlice (h : Handle) (r : Region) (data : Handle) : StoreM (Written BufferId) := do
  let data ← data.peek
  h.write (·.writeSlice r data)

/-- Applies an operation with another dataset as its right operand. -/
def applyInPlace (h : Handle) (op : BinaryOp) (other : Handle) : StoreM (Written BufferId) := do
  let other ← other.beside h
  h.update (Dataset.applyInPlace op · other)

def put (h : Handle) (indices : List Nat) (values : Handle) : StoreM (Written BufferId) := do
  let values ← values.peek
  h.write (·.writePut indices values)

/-! ## Metadata -/

/-- Attaches errors. Errors that lie in the dataset's own buffer are passed over. -/
def setErrors (h errors : Handle) : StoreM Handle := do
  if errors.sharesBuffer h then return h
  else Dataset.setErrors h (← errors.peek).field

def setErrorValue (h : Handle) (error : Float) : StoreM Handle := do
  let e ← Dataset.full .double (h.shape.map fun _ => 1) (.double error)
  Dataset.setErrors h e.field

/-- The attached statistics are those of the elements as they are now. -/
def isCurrent (h : Handle) (s : Statistics) : StoreM Bool := do
  return s.isCurrent ((← get).generation h)

end Handle

end Hyperslab
