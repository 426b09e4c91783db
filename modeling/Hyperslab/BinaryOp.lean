import Hyperslab.Error
import Hyperslab.Scalar

/-!
# Binary operations on scalars

Operations run in doubles when an operand is floating point, and otherwise in signed 64-bit words
that wrap around. Integer division and remainder go toward zero and refuse a zero divisor.
-/
namespace Hyperslab

inductive BinaryOp where
  | add
  | subtract
  | multiply
  | divide
  | remainder
  | power
  deriving DecidableEq, Repr

namespace BinaryOp

/-- Operations whose result may have a fraction: they run in doubles whenever the output can hold
one. -/
def promotes : BinaryOp → Bool
  | divide | power => true
  | _ => false

def onFloats : BinaryOp → Float → Float → Float
  | add, x, y => x + y
  | subtract, x, y => x - y
  | multiply, x, y => x * y
  | divide, x, y => x / y
  | remainder, x, y => Binary.remainder x y
  | power, x, y => Float.pow x y

/-- A value reduced to a signed 64-bit word. -/
def word (z : Int) : Int := Int.bmod z Word.modulus

/-- The power `x ^ n` reduced to a signed 64-bit word, by repeated squaring. -/
def wordPower (x : Int) (n : Nat) : Int :=
  if n = 0 then 1
  else
    let root := wordPower x (n / 2)
    let square := word (root * root)
    if n % 2 = 0 then square else word (square * x)
termination_by n
decreasing_by omega

/-- The largest exponent that a power of integers is raised to; a larger one counts as this. -/
def exponentLimit : Nat := Nat.pow 2 32 - 1

/-- The operation on signed 64-bit words. A negative exponent goes through doubles. -/
def onInts : BinaryOp → Int → Int → Except Error Int
  | add, x, y => .ok (word (x + y))
  | subtract, x, y => .ok (word (x - y))
  | multiply, x, y => .ok (word (x * y))
  | divide, x, y => if y = 0 then .error .divideByZero else .ok (word (x.tdiv y))
  | remainder, x, y => if y = 0 then .error .divideByZero else .ok (word (x.tmod y))
  | power, x, y =>
      if 0 ≤ y then .ok (wordPower x (min y.toNat exponentLimit))
      else
        let z := Float.pow (Scalar.floatOfInt x) (Scalar.floatOfInt y)
        .ok ((Scalar.double z).toInt)

/-- The operation on scalars, in doubles or in words, as a scalar of kind `out`. -/
def apply (op : BinaryOp) (isDouble : Bool) (out : Kind) (x y : Scalar) : Except Error Scalar :=
  if isDouble then .ok (out.ofFloat (op.onFloats x.toFloat y.toFloat))
  else do return out.ofInt (← op.onInts x.toInt y.toInt)

end BinaryOp

end Hyperslab
