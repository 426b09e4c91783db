/-!
# Binary floating point values

A finite value of a binary format is a natural mantissa times a power of two, with a sign. The
operations here work on that form with exact integers; only the last step goes back to `Float`.
-/
namespace Hyperslab

/-- A binary interchange format: the widths of its fraction and exponent fields. -/
structure BinaryFormat where
  fractionBits : Nat
  exponentBits : Nat

namespace BinaryFormat

def double : BinaryFormat := ⟨52, 11⟩

def single : BinaryFormat := ⟨23, 8⟩

/-- The exponent of the last fraction bit of the smallest values. -/
def minExponent (f : BinaryFormat) : Int :=
  2 - Int.pow 2 (f.exponentBits - 1) - (f.fractionBits : Int)

end BinaryFormat

/-- What the bits of a floating point value say. -/
inductive Binary where
  | nan
  | infinite (isNegative : Bool)
  /-- The value `mantissa * 2 ^ exponent`, with a sign that zero has too. -/
  | finite (isNegative : Bool) (mantissa : Nat) (exponent : Int)
  deriving DecidableEq, Repr

namespace Binary

def ofBits (f : BinaryFormat) (bits : Nat) : Binary :=
  let fraction := bits % Nat.pow 2 f.fractionBits
  let biased := bits / Nat.pow 2 f.fractionBits % Nat.pow 2 f.exponentBits
  let isNegative := bits / Nat.pow 2 (f.fractionBits + f.exponentBits) % 2 == 1
  if biased = Nat.pow 2 f.exponentBits - 1 then
    if fraction = 0 then infinite isNegative else nan
  else if biased = 0 then finite isNegative fraction f.minExponent
  else finite isNegative (fraction + Nat.pow 2 f.fractionBits) (f.minExponent + (biased - 1 : Nat))

def ofFloat (x : Float) : Binary := ofBits .double x.toBits.toNat

def ofFloat32 (x : Float32) : Binary := ofBits .single x.toBits.toNat

/-- A natural number with a sign. -/
def withSign (isNegative : Bool) (n : Nat) : Int := if isNegative then -(n : Int) else n

def whole (m : Nat) (e : Int) : Nat :=
  if 0 ≤ e then m * Nat.pow 2 e.toNat else m / Nat.pow 2 (-e).toNat

/-- The value without its fraction, cut back to the range from `lo` to `hi`. Not-a-number is 0. -/
def truncate (lo hi : Int) : Binary → Int
  | nan => 0
  | infinite isNegative => if isNegative then lo else hi
  | finite isNegative m e => max lo (min hi (withSign isNegative (whole m e)))

/-- The value of `n * 2 ^ e`, for an `n` of at most 53 bits and an `e` that a double can hold. -/
def scale (isNegative : Bool) (n : Nat) (e : Int) : Float :=
  let x := Float.scaleB n.toUInt64.toFloat e
  if isNegative then -x else x

/-- The remainder of the division that rounds its quotient toward zero; it is exact and has the
sign of `x`. -/
def remainder (x y : Float) : Float :=
  match ofFloat x, ofFloat y with
  | finite isNegative m e, finite _ n f =>
      if n = 0 then 0.0 / 0.0
      else
        let g := min e f
        scale isNegative (m * Nat.pow 2 (e - g).toNat % (n * Nat.pow 2 (f - g).toNat)) g
  | finite .., infinite _ => x
  | _, _ => 0.0 / 0.0

end Binary

namespace Number

/-- The larger of two doubles; not-a-number gives way to the other. -/
def maximum (x y : Float) : Float :=
  if x.isNaN then y else if y.isNaN then x else if x < y then y else x

/-- The smaller of two doubles; not-a-number gives way to the other. -/
def minimum (x y : Float) : Float :=
  if x.isNaN then y else if y.isNaN then x else if y < x then y else x

def nan : Float := 0.0 / 0.0

def infinity : Float := 1.0 / 0.0

/-- A natural number below `2 ^ 64` as the nearest double. -/
def ofNat (n : Nat) : Float := n.toUInt64.toFloat

end Number

end Hyperslab
