import Hyperslab.Number.Binary
import Hyperslab.Word

/-!
# Scalar kinds and values

A dataset holds scalars of one kind: booleans, integers of a width and sign, or floating point
values. Every scalar can be read as a signed 64-bit word and as a double, and every kind can be
made from both, so kinds convert into each other.
-/
namespace Hyperslab

inductive Width where
  | w8
  | w16
  | w32
  | w64
  deriving DecidableEq, Repr

def Width.bits : Width → Nat
  | w8 => 8
  | w16 => 16
  | w32 => 32
  | w64 => 64

/-- What the scalars of a dataset are. -/
inductive Kind where
  | bool
  | int (isSigned : Bool) (width : Width)
  | single
  | double
  deriving DecidableEq, Repr

/-- A scalar value. Integers lie in the range of their kind. -/
inductive Scalar where
  | bool (b : Bool)
  | int (z : Int)
  | single (x : Float32)
  | double (x : Float)

instance : Inhabited Scalar := ⟨.int 0⟩

namespace Scalar

/-- Floating point values. -/
def isFloat : Scalar → Bool
  | single _ | double _ => true
  | bool _ | int _ => false

/-- The scalar as a signed 64-bit word: integers wrap, floating point values lose their fraction
and are cut back to the range. -/
def toInt : Scalar → Int
  | bool b => if b then 1 else 0
  | int z => Int.bmod z Word.modulus
  | single x => (Binary.ofFloat32 x).truncate (-(Word.half : Int)) (Word.half - 1)
  | double x => (Binary.ofFloat x).truncate (-(Word.half : Int)) (Word.half - 1)

/-- The double nearest to a 64-bit integer of either sign. -/
def floatOfInt (z : Int) : Float :=
  if 0 ≤ z then Number.ofNat z.toNat else 0.0 - Number.ofNat z.natAbs

def toFloat : Scalar → Float
  | bool b => if b then 1.0 else 0.0
  | int z => floatOfInt z
  | single x => x.toFloat
  | double x => x

/-- Equality of values: not-a-number differs from itself, and the zeros are equal. -/
def same : Scalar → Scalar → Bool
  | bool a, bool b => a == b
  | int a, int b => a == b
  | single a, single b => a == b
  | double a, double b => a == b
  | _, _ => false

end Scalar

namespace Kind

/-- Whether arithmetic on this kind runs in double precision. -/
def isFloat : Kind → Bool
  | single | double => true
  | bool | int .. => false

/-- The least integer of a sign and width. -/
def lower (isSigned : Bool) (w : Width) : Int := if isSigned then -Int.pow 2 (w.bits - 1) else 0

/-- The greatest integer of a sign and width. -/
def upper (isSigned : Bool) (w : Width) : Int :=
  if isSigned then Int.pow 2 (w.bits - 1) - 1 else Int.pow 2 w.bits - 1

/-- An integer reduced modulo the width to the range of the sign. -/
def wrap (isSigned : Bool) (w : Width) (z : Int) : Int :=
  if isSigned then Int.bmod z (Nat.pow 2 w.bits) else z % Int.pow 2 w.bits

def zero : Kind → Scalar
  | bool => .bool false
  | int .. => .int 0
  | single => .single 0
  | double => .double 0

/-- A signed 64-bit word as a scalar of the kind: integers wrap, floating point rounds to the
nearest, and a boolean says whether it is nonzero. -/
def ofInt (k : Kind) (z : Int) : Scalar :=
  match k with
  | bool => .bool (z ≠ 0)
  | int isSigned w => .int (wrap isSigned w z)
  | single => .single (Int64.ofInt z).toFloat32
  | double => .double (Int64.ofInt z).toFloat

/-- A double as a scalar of the kind: integers lose the fraction and are cut back to the range of
the kind, and a boolean says whether it is nonzero. -/
def ofFloat (k : Kind) (x : Float) : Scalar :=
  match k with
  | bool => .bool (x != 0.0)
  | int isSigned w => .int ((Binary.ofFloat x).truncate (lower isSigned w) (upper isSigned w))
  | single => .single x.toFloat32
  | double => .double x

/-- A scalar of any kind as one of this kind, through doubles for floating point values and
through 64-bit words otherwise. A double holds every single, so a single is left as it is. -/
def cast (k : Kind) (v : Scalar) : Scalar :=
  match k, v with
  | single, .single x => .single x
  | k, v => if v.isFloat then k.ofFloat v.toFloat else k.ofInt v.toInt

end Kind

end Hyperslab
