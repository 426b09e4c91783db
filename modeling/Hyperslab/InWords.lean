import Hyperslab.Lazy.Reduction
import Hyperslab.Lazy.Resident
import Hyperslab.Store

/-!
# Lazy datasets and handles in words

Lazy datasets and the datasets of a store, with operations that stop when a number on the way is not
a signed word.
-/
namespace Hyperslab

/-! ## Lazy datasets -/

def Dataset.sourceInWords {σ : Type} (d : Block) : Source σ :=
  ⟨d.shape, d.itemSize, fun r => d.sliceInWords r⟩

namespace Lazy

variable {σ : Type}

def toSourceInWords (l : Lazy σ) (r : Region) : Except Error Region := do
  if r.source ≠ l.shape then .error (.incompatibleShapes r.source l.shape)
  else
    let inner ← l.perm.elim (.ok r) fun p => r.permuted? (Permutation.inverse p)
    l.base.elim (.ok inner) fun b => b.composeInWords inner

/-- `arranged` in words. Data in another order of axes is walked to copy it. -/
def arrangedInWords (l : Lazy σ) (source : Region) (data : Block) : Except Error Block := do
  let data ← if data.shape = source.shape then pure data else data.reshapeInWords source.shape
  match l.perm with
  | none => return data
  | some p =>
      let data ← data.transposedInWords (p.map Int.ofNat)
      data.checkWalk
      return data.dense

/-- `slice` in words. What is met in reading the data is up to the loader. -/
def sliceInWords (l : Lazy σ) (r : Region) : Task σ Block := do
  let source ← l.toSourceInWords r
  l.load r source fun data => do
    let data ← l.arrangedInWords source data
    l.metadata.checkSlice r false
    return data

def allInWords (l : Lazy σ) : Task σ Block := l.sliceInWords (Region.full l.shape)

def sliceViewInWords (l : Lazy σ) (r : Region) : Except Error (Lazy σ) := do
  let _ ← l.toSourceInWords r
  l.metadata.checkSlice r true
  l.sliceView r

def transposedInWords (l : Lazy σ) (axes : List Int) : Except Error (Lazy σ) := do
  l.metadata.checkTranspose (← Permutation.ofAxes l.rank axes)
  l.transposed axes

def sourceInWords (l : Lazy σ) : Source σ := ⟨l.shape, l.itemSize, l.sliceInWords⟩

/-- A lazy dataset over data in memory, which is read in words. -/
def ofBlockInWords (data : Block) : Task Depot (Lazy Depot) := do
  let i ← modifyGet (Depot.keep data)
  return .of (some (Depot.memorySaver i).toLoader) data.kind data.name data.itemSize data.shape

end Lazy

/-! ## Sums over several axes -/

namespace Source

variable {σ : Type}

/-- The sums over the given axes of a dataset in memory, of which `done` have gone before. -/
def sumRest : Nat → Block → List Nat → Task σ Block
  | _, d, [] => return d
  | done, d, a :: rest => do sumRest (done + 1) (← d.sourceInWords.sum ((a - done : Nat) : Int)) rest

/-- The sums over several axes: the named ones, or all the others. -/
def sumAxes (src : Source σ) (ignore : Bool) (axes : List Int) : Task σ Block := do
  match ← summedAxes src.rank ignore axes with
  | [] => return (← src.read (Region.full src.shape)).cast .double
  | a :: rest => sumRest 1 (← src.sum a) rest

end Source

/-! ## Handles -/

namespace Handle

def readInWords (h : Handle) : StoreM Block := do
  h.checkWalk
  h.read

def sliceInWords (h : Handle) (r : Region) : StoreM Handle := do
  adopt (← (← h.peek).sliceInWords r)

def reshapeInWords (h : Handle) (s : Shape) : StoreM Handle := do
  h.checkRegrouped s
  h.reshape s

def setShapeInWords (h : Handle) (s : Shape) : StoreM Handle := do
  if s ≠ h.shape then h.checkRegrouped s
  h.setShape s

def squeezeInWords (h : Handle) : StoreM Handle := h.reshapeInWords h.shape.squeeze

def squeezeEndsInWords (h : Handle) : StoreM Handle := h.reshapeInWords h.shape.squeezeEnds

def squeezeAxesInWords (h : Handle) (axes : List Int) : StoreM Handle := do
  h.reshapeInWords (← h.shape.squeezeAxes axes)

def flattenInWords (h : Handle) : StoreM Handle := do h.reshapeInWords [← h.shape.sizeWord]

/-- `beside` in words. What is attached to the copy is copied with it. -/
def besideInWords (h other : Handle) : StoreM Block := do
  if h.sharesBuffer other then
    let d ← h.readInWords
    h.metadata.checkCopy
    return d.dense
  else h.peek

def binaryInWords (op : BinaryOp) (out : Kind) (a b : Handle) : StoreM Handle := do
  let b ← b.besideInWords a
  adopt (← Dataset.binaryInWords op out (← a.peek) b)

def setSliceInWords (h : Handle) (r : Region) (data : Handle) : StoreM (Written BufferId) := do
  let data ← data.peek
  h.write (·.writeSliceInWords r data)

/-- `setErrors` in words. The errors are copied, and get packed strides. -/
def setErrorsInWords (h errors : Handle) : StoreM Handle := do
  if errors.sharesBuffer h then return h
  else
    h.checkErrors errors.shape
    errors.checkWalk
    let _ ← (errors.shape.pad h.rank).stridesChecked errors.itemSize
    h.setErrors errors

/-- The statistics: the attached ones if they are current, and otherwise new ones, which are then
attached. -/
def statisticsInWords (h : Handle) : StoreM (Statistics × Handle) := do
  let compute : StoreM (Statistics × Handle) := do
    let s := Statistics.compute (← h.readInWords).toList ((← get).generation h)
    return (s, { h with metadata := { h.metadata with statistics := [s] } })
  match h.metadata.statistics.head? with
  | some s => if ← h.isCurrent s then return (s, h) else compute
  | none => compute

end Handle

end Hyperslab
