import Hyperslab.Scalar

/-!
# Buffers

A buffer holds scalar elements and counts its writes, so that a summary of its elements can tell
whether it still holds.
-/
namespace Hyperslab

abbrev Elements := Array Scalar

namespace Elements

def putFrom (elements : Elements) (i : Nat) : List Scalar → Elements
  | [] => elements
  | v :: rest => putFrom (elements.setIfInBounds i v) (i + 1) rest

def putItems (elements : Elements) (writes : List (Nat × List Scalar)) : Elements :=
  writes.foldl (fun e w => e.putFrom w.1 w.2) elements

/-- Puts one value into all of the items of `itemSize` elements at the given indices. -/
def fillItems (elements : Elements) (itemSize : Nat) (indices : List Nat) (value : Scalar) :
    Elements :=
  elements.putItems (indices.map fun i => (i, List.replicate itemSize value))

end Elements

/-- Elements that have been written to a number of times. -/
structure Buffer where
  elements : Elements
  /-- How many writes the buffer has seen. -/
  generation : Nat

namespace Buffer

def of (elements : Elements) : Buffer := ⟨elements, 0⟩

def size (b : Buffer) : Nat := b.elements.size

/-- The buffer after one more write, which changed its elements by `f`. -/
def modify (f : Elements → Elements) : Buffer → Buffer
  | ⟨elements, generation⟩ => ⟨f elements, generation + 1⟩

/-- The buffer after one more write that changed nothing. -/
def touched (b : Buffer) : Buffer := b.modify id

end Buffer

end Hyperslab
