import Hyperslab.Number.Binary

/-!
# Decimal texts of floating point values

A value is written with the fewest decimal digits that read back to it, and among those with the
digits nearest to it. `shortest` finds the digits by exact arithmetic: for coarser and then finer
decimal grids it looks at the two neighbours of the value and takes the first that rounds to the
value. `DecimalStyle` says how the digits are then laid out.
-/
namespace Hyperslab

/-- The decimal value `digits * 10 ^ exponent`. -/
structure Decimal where
  digits : Nat
  exponent : Int
  deriving DecidableEq, Repr

/-- Which of two equally near digits is taken. -/
inductive Tie where
  | up
  | even
  deriving DecidableEq, Repr

/-- The reals that round to a binary value, all in units of one common denominator: the value lies
at `center` and they reach from `low` to `high`. -/
structure RoundingInterval where
  low : Nat
  center : Nat
  high : Nat
  unit : Nat
  isClosed : Bool

namespace RoundingInterval

/-- The interval of `m * 2 ^ e`. The gap below a power of two is half as wide as the one above,
unless the value is the least of its format's normal range. -/
def of (f : BinaryFormat) (m : Nat) (e : Int) : RoundingInterval :=
  let narrow := m = Nat.pow 2 f.fractionBits ∧ f.minExponent < e
  let up := Nat.pow 2 (e - 2).toNat
  { low := (4 * m - if narrow then 1 else 2) * up
    center := 4 * m * up
    high := (4 * m + 2) * up
    unit := Nat.pow 2 (2 - e).toNat
    isClosed := m % 2 = 0 }

/-- The interval measured in units of `10 ^ k`. -/
def scaled (r : RoundingInterval) (k : Int) : RoundingInterval :=
  let finer := Nat.pow 10 (-k).toNat
  { r with
    low := r.low * finer
    center := r.center * finer
    high := r.high * finer
    unit := r.unit * Nat.pow 10 k.toNat }

/-- The whole number `d` lies in the interval. -/
def has (r : RoundingInterval) (d : Nat) : Bool :=
  let x := d * r.unit
  if r.isClosed then r.low ≤ x && x ≤ r.high else r.low < x && x < r.high

/-- The whole number in the interval that is nearest to the center, if one of the center's two
neighbours lies in it. -/
def nearest (tie : Tie) (r : RoundingInterval) : Option Nat :=
  let below := r.center / r.unit
  let rest := 2 * (r.center % r.unit)
  let takeBelow := rest < r.unit || (rest == r.unit && tie == .even && below % 2 == 0)
  match r.has below, r.has (below + 1) with
  | true, true => some (if takeBelow then below else below + 1)
  | true, false => some below
  | false, true => some (below + 1)
  | false, false => none

end RoundingInterval

namespace Decimal

/-- The first hit on grids from `10 ^ k` down, tried `fuel` times. -/
def search (tie : Tie) (r : RoundingInterval) : Nat → Int → Option Decimal
  | 0, _ => none
  | fuel + 1, k =>
      match (r.scaled k).nearest tie with
      | some d => some ⟨d, k⟩
      | none => search tie r fuel (k - 1)

/-- The shortest decimal of a nonzero binary value. The first grid is coarser than the value; some
twenty finer ones always have a hit. -/
def shortest (tie : Tie) (f : BinaryFormat) (m : Nat) (e : Int) : Decimal :=
  let top := ((m.log2 : Int) + e + 1) * 30103 / 100000 + 1
  (search tie (.of f m e) 24 top).getD ⟨m, e⟩

def digitText (d : Decimal) : String := d.digits.repr

/-- The exponent of the first digit. -/
def leading (d : Decimal) : Int := d.exponent + d.digitText.length - 1

end Decimal

/-- How a decimal is laid out. Values whose first digit has an exponent from `least` up to, and
without, `bound` are written positionally with at least one digit on either side of the point. -/
structure DecimalStyle where
  least : Int
  bound : Int
  /-- A positive exponent has a sign. -/
  showsPlus : Bool
  tie : Tie

namespace DecimalStyle

def zeros (n : Nat) : String := String.ofList (List.replicate n '0')

def positional (d : Decimal) : String :=
  let text := d.digitText
  if 0 ≤ d.exponent then text ++ zeros d.exponent.toNat ++ ".0"
  else if 0 ≤ d.leading then
    let whole := (d.leading + 1).toNat
    String.ofList (text.toList.take whole) ++ "." ++ String.ofList (text.toList.drop whole)
  else "0." ++ zeros (-d.leading - 1).toNat ++ text

/-- Text with an exponent. -/
def scientific (showsPlus : Bool) (d : Decimal) : String :=
  let exponent := (if showsPlus && 0 ≤ d.leading then "+" else "") ++ d.leading.repr
  match d.digitText.toList with
  | [c] => String.ofList [c] ++ "e" ++ exponent
  | c :: rest => String.ofList (c :: '.' :: rest) ++ "e" ++ exponent
  | [] => "0"

/-- The text of a finite value. -/
def render (style : DecimalStyle) (f : BinaryFormat) (isNegative : Bool) (m : Nat) (e : Int) :
    String :=
  let magnitude :=
    if m = 0 then "0.0"
    else
      let d := Decimal.shortest style.tie f m e
      if style.least ≤ d.leading ∧ d.leading < style.bound then positional d
      else scientific style.showsPlus d
  if isNegative then "-" ++ magnitude else magnitude

end DecimalStyle

end Hyperslab
