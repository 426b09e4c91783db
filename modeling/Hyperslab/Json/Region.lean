import Hyperslab.Json.Dataset

/-!
# JSON of slices, regions and layouts

Slices and regions are objects or lists of their fields. Fields that nobody expects are passed
over, and none may be repeated.
-/
namespace Hyperslab.Json

def duplicateField (key : String) : String := "duplicate field `" ++ key ++ "`"

/-- Reads a field that must not have been read before. -/
def once {α : Type} (key : String) (seen : Option α) (value : Reader α) : Reader (Option α) := do
  match seen with
  | some _ => throw (.unexpected (some (duplicateField key)))
  | none =>
      Reader.colon
      return some (← value)

def writeSlice (s : Slice) : String :=
  writeObject
    [("start", writeOption Int.repr s.start), ("stop", writeOption Int.repr s.stop),
      ("step", s.step.repr), ("index", writeBool s.isIndex)]

/-- A region as a text gives it: fields of any lengths. -/
structure RegionText where
  source : Shape
  limits : Option Shape
  start : List Int
  stop : List Int
  step : List Int
  counts : List Nat
  expanded : Bool

def spansOf (start stop step : List Int) (counts : List Nat) : List Span :=
  List.zipWith (fun (a, b) (c, n) => ⟨a, b, c, n⟩) (start.zip stop) (step.zip counts)

/-- The region that a text gives. Each count needs bounds and a step; what there is more of these is
to spare. -/
def RegionText.region (t : RegionText) : Except Error Region :=
  let rank := t.counts.length
  if [t.start, t.stop, t.step].any (·.length < rank) then .error (.fault .missingAxis)
  else .ok {
    source := t.source
    limits := t.limits
    spans := spansOf t.start t.stop t.step t.counts
    expanded := t.expanded
    spare := ⟨t.start.drop rank, t.stop.drop rank, t.step.drop rank⟩ }

end Hyperslab.Json
