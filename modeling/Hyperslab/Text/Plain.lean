/-!
# Plain texts of lists

Messages and names write a list between square brackets, its entries divided by a comma and a
blank: `[2, 3]`, `[]`.
-/
namespace Hyperslab.Text

def bracketed (entries : List String) : String :=
  "[" ++ String.intercalate ", " entries ++ "]"

/-- A list of natural numbers, as in `[2, 3]`. -/
def ofNats (l : List Nat) : String := bracketed (l.map Nat.repr)

/-- A list of integers, as in `[2, -3]`. -/
def ofInts (l : List Int) : String := bracketed (l.map Int.repr)

end Hyperslab.Text
