import Hyperslab.Saver

/-!
# Lazy datasets

A lazy dataset reads its data through a loader, one region at a time. Slicing and transposing it
read nothing: the region and the order of axes are remembered and applied when data is asked for.
-/
namespace Hyperslab

/-- A step on a state that may be refused; what it did before a refusal stays. -/
abbrev Task (σ : Type) := ExceptT Error (StateM σ)

namespace Task

variable {σ α : Type}

/-- A storage action whose failure is reported in a context; a fault stays a fault. -/
def ofAction (context : String) (a : Action σ α) : Task σ α := fun s =>
  match a s with
  | (.ok x, s) => (.ok x, s)
  | (.error e, s) => (.error (.ofIoFailure context e), s)

end Task

/-- A dataset whose data is read when it is needed. -/
structure Lazy (σ : Type) where
  kind : Kind
  name : String
  shape : Shape
  itemSize : Nat
  loader : Option (Loader σ)
  /-- The region of the loader's data, in the loader's coordinates; none is all of it. -/
  base : Option Region
  /-- Axis `i` shows axis `perm[i]` of the region; none keeps the order. -/
  perm : Option (List Nat)
  metadata : Metadata

namespace Lazy

variable {σ : Type}

/-- A lazy dataset of a shape, with a loader or still without one. -/
def of (loader : Option (Loader σ)) (k : Kind) (name : String) (itemSize : Nat) (s : Shape) :
    Lazy σ :=
  ⟨k, name, s, itemSize, loader, none, none, .empty⟩

def rank (l : Lazy σ) : Nat := l.shape.length

def size (l : Lazy σ) : Nat := l.shape.size

def copy (l : Lazy σ) : Lazy σ := { l with metadata := l.metadata.copy }

/-- The region of the loader's data that the dataset covers. -/
def covered (l : Lazy σ) : Region :=
  l.base.getD (Region.full
    (l.perm.elim l.shape fun p => Permutation.apply (Permutation.inverse p) l.shape))

/-- A region of the dataset as a region of the loader's data. -/
def toSource (l : Lazy σ) (r : Region) : Except Error Region := do
  if r.source ≠ l.shape then .error (.incompatibleShapes r.source l.shape)
  else
    let inner ← l.perm.elim (.ok r) fun p => r.permuted? (Permutation.inverse p)
    l.base.elim (.ok inner) fun b => b.compose inner

/-! ## Reading -/

/-- Data as the loader gave it, under the region's shape and in the order of the axes. -/
def arranged (l : Lazy σ) (source : Region) (data : Block) : Except Error Block := do
  let data ← if data.shape = source.shape then pure data else data.reshape source.shape
  match l.perm with
  | none => return data
  | some p => return (← data.transposed (p.map Int.ofNat)).dense

/-- Reads what a region stands for, and arranges it. -/
def load (l : Lazy σ) (r source : Region) (arrange : Block → Except Error Block) :
    Task σ Block := do
  let name := l.name ++ r.text
  match l.loader with
  | none => throw (.ioFailure ("reading " ++ name) .noLoader)
  | some loader =>
      let data ← Task.ofAction ("reading " ++ name) (loader.read source)
      let data ← arrange data
      return { data with name := name, metadata := ← l.metadata.onSlice r false }

def slice (l : Lazy σ) (r : Region) : Task σ Block := do
  let source ← l.toSource r
  l.load r source (l.arranged source)

def all (l : Lazy σ) : Task σ Block := l.slice (Region.full l.shape)

/-! ## Views -/

def sliceView (l : Lazy σ) (r : Region) : Except Error (Lazy σ) := do
  let source ← l.toSource r
  return { l with
    name := l.name ++ r.text
    shape := r.shape
    base := some source
    metadata := ← l.metadata.onSlice r true }

/-- A view with its axes in the order of axis names; none reverse the axes. -/
def transposed (l : Lazy σ) (axes : List Int) : Except Error (Lazy σ) := do
  let p ← Permutation.ofAxes l.rank axes
  if Permutation.isIdentity p then return l.copy
  else
    let perm ← l.perm.elim (.ok p) (Permutation.applyChecked p)
    return { l with
      shape := Permutation.apply p l.shape
      base := some l.covered
      perm := if Permutation.isIdentity perm then none else some perm
      metadata := ← l.metadata.onTranspose p }

/-! ## Errors -/

/-- Attaches errors, whose shape has to broadcast to the dataset's. -/
def setErrors (l : Lazy σ) (errors : Field) : Except Error (Lazy σ) := do
  if l.rank < errors.rank then .error (.incompatibleShapes errors.shape l.shape)
  else if (← Shape.broadcast errors.shape l.shape) ≠ l.shape then
    .error (.incompatibleShapes errors.shape l.shape)
  else return { l with metadata := ← l.metadata.setErrors l.rank errors }

end Lazy

end Hyperslab
