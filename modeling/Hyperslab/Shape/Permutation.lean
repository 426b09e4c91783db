import Hyperslab.Shape

/-!
# Permutations of axes

A permutation lists, for each new axis, the old axis it shows.
-/
namespace Hyperslab.Permutation

/-- The permutation that axis names stand for. No names reverse the axes; otherwise every axis
must be named once. -/
def ofAxes (rank : Nat) (axes : List Int) : Except Error (List Nat) :=
  if axes.isEmpty then .ok (List.range rank).reverse
  else if axes.length ≠ rank then .error (.invalidPermutation axes rank)
  else
    match axes.mapM (Shape.normalizeAxis · rank) with
    | .ok perm => if perm.Nodup then .ok perm else .error (.invalidPermutation axes rank)
    | .error _ => .error (.invalidPermutation axes rank)

def isIdentity (perm : List Nat) : Bool := perm == List.range perm.length

def inverse (perm : List Nat) : List Nat := (List.range perm.length).map (perm.idxOf ·)

/-- The entries that a permutation selects, in its order. -/
def apply {α : Type} (perm : List Nat) (items : List α) : List α := perm.filterMap (items[·]?)

/-- `apply`, with a fault when an entry is not there. -/
def applyChecked {α : Type} (perm : List Nat) (items : List α) : Except Error (List α) :=
  if perm.all (· < items.length) then .ok (apply perm items) else .error (.fault .missingAxis)

end Hyperslab.Permutation
