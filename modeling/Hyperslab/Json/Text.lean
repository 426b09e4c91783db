import Hyperslab.Number.Decimal
import Hyperslab.Scalar

/-!
# Writing JSON

Texts have no blanks. Strings escape quotes, backslashes and control characters; floating point
values that are not finite are written as `null`.
-/
namespace Hyperslab.Json

def hexPair (n : Nat) : List Char := [Nat.digitChar (n / 16), Nat.digitChar (n % 16)]

def writeChar (c : Char) : List Char :=
  if c = '"' then ['\\', '"']
  else if c = '\\' then ['\\', '\\']
  else if c = '\n' then ['\\', 'n']
  else if c = '\r' then ['\\', 'r']
  else if c = '\t' then ['\\', 't']
  else if c = Char.ofNat 8 then ['\\', 'b']
  else if c = Char.ofNat 12 then ['\\', 'f']
  else if c.toNat < 0x20 then '\\' :: 'u' :: '0' :: '0' :: hexPair c.toNat
  else [c]

def writeString (s : String) : String :=
  "\"" ++ String.ofList (s.toList.flatMap writeChar) ++ "\""

def writeObject (fields : List (String × String)) : String :=
  "\x7b" ++ String.intercalate "," (fields.map fun f => writeString f.1 ++ ":" ++ f.2) ++ "\x7d"

def writeBool (b : Bool) : String := if b then "true" else "false"

def writeOption {α : Type} (write : α → String) : Option α → String
  | none => "null"
  | some a => write a

end Hyperslab.Json
