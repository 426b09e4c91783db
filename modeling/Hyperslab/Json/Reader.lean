import Hyperslab.Number.Binary
import Hyperslab.Word

/-!
# Reading JSON

A reader takes characters from the front of a text. Values are read as what they are expected to
be, in the order of the text, so the first thing that is wrong is what is reported: malformed text,
a text that ends early, or a well-formed value that is not the expected one.
-/
namespace Hyperslab.Json

inductive ReadError where
  /-- The text is not well-formed. -/
  | malformed
  /-- The text ends early. -/
  | ended
  /-- The text holds something unexpected; the wording, where there is one of its own. -/
  | unexpected (message : Option String)
  deriving DecidableEq, Repr

/-- Reads a value from the front of a text and leaves the rest. -/
abbrev Reader (α : Type) := StateT (List Char) (Except ReadError) α

namespace Reader

/-! ## Characters -/

def isBlank (c : Char) : Bool := c == ' ' || c == '\n' || c == '\t' || c == '\r'

/-- The next character that is not a blank, which stays in the text. -/
def peek? : Reader (Option Char) := fun cs =>
  let cs := cs.dropWhile isBlank
  .ok (cs.head?, cs)

/-- The next character, blanks included, which stays in the text. -/
def peekRaw : Reader (Option Char) := do return (← get).head?

def skip : Reader Unit := modify List.tail

def nextRaw : Reader (Option Char) := do
  let c ← peekRaw
  skip
  return c

/-- The next character that is not a blank; the text must not end here. -/
def peek : Reader Char := do
  match ← peek? with
  | some c => return c
  | none => throw .ended

def wrongType {α : Type} : Reader α := throw (.unexpected none)

/-- Takes the given characters. -/
def word : List Char → Reader Unit
  | [] => return
  | c :: rest => do
      match ← nextRaw with
      | none => throw .ended
      | some d => if d = c then word rest else throw .malformed

/-! ## Strings -/

def hexDigit? (c : Char) : Option Nat :=
  if '0' ≤ c ∧ c ≤ '9' then some (c.toNat - '0'.toNat)
  else if 'a' ≤ c ∧ c ≤ 'f' then some (c.toNat - 'a'.toNat + 10)
  else if 'A' ≤ c ∧ c ≤ 'F' then some (c.toNat - 'A'.toNat + 10)
  else none

/-- Four hexadecimal digits. A text ends early here if it has less than four bytes left. -/
def hexEscape : Reader Nat := do
  match ← get with
  | a :: b :: c :: d :: rest =>
      set rest
      match hexDigit? a, hexDigit? b, hexDigit? c, hexDigit? d with
      | some a, some b, some c, some d => return ((a * 16 + b) * 16 + c) * 16 + d
      | _, _, _, _ => throw .malformed
  | rest => if (rest.map Char.utf8Size).foldr (· + ·) 0 < 4 then throw .ended else throw .malformed

/-- The character that is written by its number: one code, or a high and a low half in a row. -/
def numberedChar : Reader Char := do
  let n ← hexEscape
  if 0xdc00 ≤ n ∧ n ≤ 0xdfff then throw .malformed
  else if n < 0xd800 ∨ 0xdbff < n then return Char.ofNat n
  else
    word ['\\', 'u']
    let low ← hexEscape
    if low < 0xdc00 ∨ 0xdfff < low then throw .malformed
    else return Char.ofNat ((n - 0xd800) * 0x400 + (low - 0xdc00) + 0x10000)

def escapedChar : Reader Char := do
  match ← nextRaw with
  | none => throw .ended
  | some '"' => return '"'
  | some '\\' => return '\\'
  | some '/' => return '/'
  | some 'b' => return Char.ofNat 8
  | some 'f' => return Char.ofNat 12
  | some 'n' => return '\n'
  | some 'r' => return '\r'
  | some 't' => return '\t'
  | some 'u' => numberedChar
  | some _ => throw .malformed

/-- The characters of a string up to its closing quote. `fuel` bounds their number. -/
def stringBody : Nat → Reader (List Char)
  | 0 => throw .ended
  | fuel + 1 => do
      match ← nextRaw with
      | none => throw .ended
      | some '"' => return []
      | some '\\' => do
          let c ← escapedChar
          return c :: (← stringBody fuel)
      | some c => if c.toNat < 0x20 then throw .malformed else return c :: (← stringBody fuel)

def quotedText : Reader String := do
  skip
  return String.ofList (← stringBody ((← get).length + 1))

/-! ## Numbers -/

end Reader

/-- A number of a text: an unsigned or a negative word, or else a double. -/
inductive Num where
  | word (n : Nat)
  | negative (z : Int)
  | float (x : Float)

namespace Reader

def digit? (c : Option Char) : Option Nat :=
  c.bind fun c => if '0' ≤ c ∧ c ≤ '9' then some (c.toNat - '0'.toNat) else none

def digitRun : Reader (List Char) := do
  return (← get).takeWhile fun c => '0' ≤ c && c ≤ '9'

/-- Takes decimal digits for as long as the number stays a word; the digits that follow are counted
and dropped. Returns the number, how many digits it took and how many it dropped. -/
def digitsFrom : (fuel n taken : Nat) → Reader (Nat × Nat × Nat)
  | 0, n, taken => return (n, taken, 0)
  | fuel + 1, n, taken => do
      match digit? (← peekRaw) with
      | none => return (n, taken, 0)
      | some d =>
          if n * 10 + d < Word.modulus then do
            skip
            digitsFrom fuel (n * 10 + d) (taken + 1)
          else do
            let run ← digitRun
            modify fun cs => cs.drop run.length
            return (n, taken, run.length)

def digits (n : Nat) : Reader (Nat × Nat × Nat) := do
  digitsFrom ((← digitRun).length + 1) n 0

/-- The double `n * 10 ^ e`, by one multiplication or by divisions; none if it is too large. -/
def scaleFloat : (fuel : Nat) → Float → Int → Option Float
  | 0, x, _ => some x
  | fuel + 1, x, e =>
      if e.natAbs ≤ 308 then
        let power := Float.ofScientific 1 false e.natAbs
        if 0 ≤ e then
          let y := x * power
          if y.isInf then none else some y
        else some (x / power)
      else if x == 0.0 then some x
      else if 0 ≤ e then none
      else scaleFloat fuel (x / Float.ofScientific 1 false 308) (e + 308)

/-- The number with the given digits and decimal exponent. -/
def ofParts (isNegative : Bool) (n : Nat) (e : Int) : Reader Num :=
  match scaleFloat 64 (Number.ofNat n) e with
  | none => throw .malformed
  | some x => return .float (if isNegative then -x else x)

/-- The largest exponent that can be written. -/
def maxExponent : Nat := Nat.pow 2 31 - 1

/-- A number behind its exponent mark; `e` is the exponent that its digits have already. -/
def exponentPart (isNegative : Bool) (n : Nat) (e : Int) : Reader Num := do
  skip
  let sign ← peekRaw
  let isDown := sign == some '-'
  if isDown || sign == some '+' then skip
  match ← peekRaw with
  | none => throw .ended
  | some c =>
      if (digit? (some c)).isNone then throw .malformed
      else
        let run ← digitRun
        modify fun cs => cs.drop run.length
        let written := run.foldl (fun k c => k * 10 + (c.toNat - '0'.toNat)) 0
        if maxExponent < written then
          if n ≠ 0 ∧ ¬ isDown then throw .malformed
          else return .float (if isNegative then -0.0 else 0.0)
        else
          let e := if isDown then e - written else e + written
          ofParts isNegative n (max (-(maxExponent : Int) - 1) (min maxExponent e))

/-- A number behind its point; `e` is the exponent that its digits have already. -/
def fractionPart (isNegative : Bool) (n : Nat) (e : Int) : Reader Num := do
  skip
  let (m, taken, dropped) ← digits n
  if taken = 0 ∧ dropped = 0 then
    match ← peekRaw with
    | none => throw .ended
    | some _ => throw .malformed
  else
    let c ← peekRaw
    if c == some 'e' || c == some 'E' then exponentPart isNegative m (e - taken)
    else ofParts isNegative m (e - taken)

def number (isNegative : Bool) : Reader Num := do
  match ← peekRaw with
  | none => throw .ended
  | some c =>
      if (digit? (some c)).isNone then throw .malformed
      else
        let (n, dropped) ←
          if c = '0' then do
            skip
            if (digit? (← peekRaw)).isSome then throw .malformed
            pure (0, 0)
          else do
            let (n, _, dropped) ← digits 0
            pure (n, dropped)
        let c ← peekRaw
        if c == some '.' then fractionPart isNegative n dropped
        else if c == some 'e' || c == some 'E' then exponentPart isNegative n dropped
        else if dropped ≠ 0 then ofParts isNegative n dropped
        else if ¬ isNegative then return .word n
        else if n = 0 ∨ Word.half < n then return .float (-Number.ofNat n)
        else return .negative (-n)

/-- A value that is not of the expected type; malformed text is reported as such. -/
def notExpected {α : Type} : Reader α := do
  match ← peek with
  | 'n' => word ['n', 'u', 'l', 'l']; wrongType
  | 't' => word ['t', 'r', 'u', 'e']; wrongType
  | 'f' => word ['f', 'a', 'l', 's', 'e']; wrongType
  | '"' => let _ ← quotedText; wrongType
  | '[' | '\x7b' => wrongType
  | '-' => skip; let _ ← number true; wrongType
  | c =>
      if (digit? (some c)).isSome then
        let _ ← number false
        wrongType
      else throw .malformed

def text : Reader String := do
  if (← peek) = '"' then quotedText else notExpected

/-- Whether a list goes on. The next element's first character is then next. -/
def moreElements (isFirst : Bool) : Reader Bool := do
  match ← peek with
  | ']' => return false
  | c =>
      if isFirst then return true
      else if c = ',' then
        skip
        if (← peek) = ']' then throw .malformed else return true
      else throw .malformed

def endList : Reader Unit := do
  if (← peek) = ']' then skip else throw .malformed

/-- The elements of a list up to its end; `fuel` bounds their number. -/
def elements {α : Type} (value : Reader α) : Nat → Bool → Reader (List α)
  | 0, _ => throw .ended
  | fuel + 1, isFirst => do
      if ← moreElements isFirst then
        let v ← value
        return v :: (← elements value fuel false)
      else return []

/-- Whether an object goes on. The next key's quote is then next. -/
def moreKeys (isFirst : Bool) : Reader Bool := do
  match ← peek with
  | '\x7d' => return false
  | c =>
      if isFirst then if c = '"' then return true else throw .malformed
      else if c = ',' then
        skip
        if (← peek) = '"' then return true else throw .malformed
      else throw .malformed

def colon : Reader Unit := do
  if (← peek) = ':' then skip else throw .malformed

def endObject : Reader Unit := do
  if (← peek) = '\x7d' then skip else throw .malformed

/-- Takes in an object's entries one after the other; `fuel` bounds their number. `entry` is given
what has been read so far and a key, and reads the key's value. -/
def entries {α : Type} (entry : α → String → Reader α) : Nat → Bool → α → Reader α
  | 0, _, _ => throw .ended
  | fuel + 1, isFirst, a => do
      if ← moreKeys isFirst then
        let key ← quotedText
        entries entry fuel false (← entry a key)
      else return a

/-- An object or a list: `entry` takes in the entries of an object, starting from `init`, and
`elements` reads the elements of a list. -/
def record {α β : Type} (init : α) (entry : α → String → Reader α) (finish : α → Reader β)
    (elements : Reader β) : Reader β := do
  match ← peek with
  | '[' =>
      skip
      let b ← elements
      endList
      return b
  | '\x7b' =>
      skip
      let a ← entries entry ((← get).length + 1) true init
      let b ← finish a
      endObject
      return b
  | _ => notExpected

/-- The next element of a list that has to be there: otherwise the list is too short, and `expected`
is what it should have been. -/
def element {α : Type} (value : Reader α) (index : Nat) (expected : String) : Reader α := do
  if ← moreElements (index = 0) then value
  else throw (.unexpected (some
    ("invalid length " ++ index.repr ++ ", expected " ++ expected)))

/-! ## Values that are passed over -/

def skipString : Nat → Reader Unit
  | 0 => throw .ended
  | fuel + 1 => do
      match ← nextRaw with
      | none => throw .ended
      | some '"' => return
      | some '\\' => do
          match ← nextRaw with
          | none => throw .ended
          | some 'u' => let _ ← hexEscape; skipString fuel
          | some c =>
              if c ∈ ['"', '\\', '/', 'b', 'f', 'n', 'r', 't'] then skipString fuel
              else throw .malformed
      | some c => if c.toNat < 0x20 then throw .malformed else skipString fuel

def skipDigits : Reader Unit := do
  let run ← digitRun
  if run.isEmpty then throw .malformed
  modify fun cs => cs.drop run.length

def skipNumber : Reader Unit := do
  if (← peekRaw) == some '0' then
    skip
    if (digit? (← peekRaw)).isSome then throw .malformed
  else skipDigits
  if (← peekRaw) == some '.' then
    skip
    skipDigits
  let c ← peekRaw
  if c == some 'e' || c == some 'E' then
    skip
    let sign ← peekRaw
    if sign == some '-' || sign == some '+' then skip
    skipDigits

mutual

/-- A value that is passed over; `fuel` is more than twice the number of characters left. -/
def skipValue : Nat → Reader Unit
  | 0 => throw .ended
  | fuel + 1 => do
      match ← peek with
      | 'n' => word ['n', 'u', 'l', 'l']
      | 't' => word ['t', 'r', 'u', 'e']
      | 'f' => word ['f', 'a', 'l', 's', 'e']
      | '"' => skip; skipString fuel
      | '[' =>
          skip
          if (← peek) = ']' then skip else skipMembers fuel true
      | '\x7b' =>
          skip
          if (← peek) = '\x7d' then skip else skipMembers fuel false
      | '-' => skip; skipNumber
      | c => if (digit? (some c)).isSome then skipNumber else throw .malformed

/-- The members of a list, or of an object, of which at least one is left, and the closing
bracket. -/
def skipMembers : Nat → Bool → Reader Unit
  | 0, _ => throw .ended
  | fuel + 1, isList => do
      if ¬ isList then
        if (← peek) ≠ '"' then throw .malformed
        skip
        skipString fuel
        colon
      skipValue fuel
      let c ← peek
      if c = ',' then
        skip
        skipMembers fuel isList
      else if c = (if isList then ']' else '\x7d') then skip
      else throw .malformed

end

def read {α : Type} (value : Reader α) (source : String) : Except ReadError α := do
  let (a, rest) ← StateT.run value source.toList
  if rest.all isBlank then return a else throw .malformed

end Reader

end Hyperslab.Json
