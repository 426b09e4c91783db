import Hyperslab.Dataset

/-!
# Comparison

Datasets of different shape or item size are never equal, and nothing is read of them. Elements are
compared exactly, by their absolute difference, by their difference relative to the larger one, or
by how many values of the format lie between them.
-/
namespace Hyperslab

namespace Scalar

/-- The machine epsilon of the kind: the distance from 1 to the next value. -/
def epsilon : Kind → Scalar
  | .single => .single (Float32.ofBits 0x34000000)
  | .double => .double (Float.ofBits 0x3cb0000000000000)
  | k => k.zero

/-- The distance of two elements is at most `eps`. -/
def nearAbs (eps : Scalar) : Scalar → Scalar → Bool
  | single a, single b => match eps with | single e => (a - b).abs ≤ e | _ => false
  | double a, double b => match eps with | double e => (a - b).abs ≤ e | _ => false
  | int a, int b => match eps with | int e => (a - b).natAbs ≤ e | _ => false
  | _, _ => false

def larger32 (a b : Float32) : Float32 := if a < b then b else a

def larger (a b : Float) : Float := if a < b then b else a

/-- Equal, or finite and at most `eps` apart, or at most `rel` times the larger of the two apart. -/
def nearRel (eps rel : Scalar) : Scalar → Scalar → Bool
  | single a, single b =>
      match eps, rel with
      | single e, single r =>
          a == b || (!a.isInf && !b.isInf &&
            ((a - b).abs ≤ e || (a - b).abs ≤ larger32 a.abs b.abs * r))
      | _, _ => false
  | double a, double b =>
      match eps, rel with
      | double e, double r =>
          a == b || (!a.isInf && !b.isInf &&
            ((a - b).abs ≤ e || (a - b).abs ≤ larger a.abs b.abs * r))
      | _, _ => false
  | _, _ => false

/-- At most `eps` apart, or of the same sign with at most `ulps` values between them. A value that
is not a number has no sign. -/
def nearUlps (eps : Scalar) (ulps : Nat) : Scalar → Scalar → Bool
  | single a, single b =>
      nearAbs eps (single a) (single b) || (!a.isNaN && !b.isNaN &&
        (a.toBits >>> 31 == b.toBits >>> 31) &&
        ((a.toBits.toNat : Int) - b.toBits.toNat).natAbs ≤ ulps)
  | double a, double b =>
      nearAbs eps (double a) (double b) || (!a.isNaN && !b.isNaN &&
        (a.toBits >>> 63 == b.toBits >>> 63) &&
        ((a.toBits.toNat : Int) - b.toBits.toNat).natAbs ≤ ulps)
  | _, _ => false

end Scalar

namespace Dataset

/-- Same shape and item size, and a relation between all corresponding elements. -/
def agree (rel : Scalar → Scalar → Bool) (a b : Block) : Except Error Bool := do
  if a.shape ≠ b.shape ∨ a.itemSize ≠ b.itemSize then return false
  else
    a.checkRead
    b.checkRead
    return (a.toList.zip b.toList).all fun p => rel p.1 p.2

/-- Same shape, item size and elements. -/
def same (a b : Block) : Except Error Bool := agree Scalar.same a b

end Dataset

end Hyperslab
