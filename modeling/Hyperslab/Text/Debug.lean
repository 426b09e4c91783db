import Hyperslab.Number.Decimal
import Hyperslab.Lazy.Writeable
import Hyperslab.Text.Hidden

/-!
# Display and debug texts

The display text of a dataset shows its name, shape and elements. Debug texts show every field of a
value as `Name { field: value, ... }`, strings in quotes and absent values as `None`.
-/
namespace Hyperslab.Text

/-! ## Values -/

/-- Floats are positional from `1e-4` up to `1e16`. -/
def floatStyle : DecimalStyle := ⟨-4, 16, false, .up⟩

/-- The text of a floating point value. -/
def ofBinary (f : BinaryFormat) : Binary → String
  | .nan => "NaN"
  | .infinite isNegative => if isNegative then "-inf" else "inf"
  | .finite isNegative m e => floatStyle.render f isNegative m e

def ofFloat (x : Float) : String := ofBinary .double (.ofFloat x)

def ofBool (b : Bool) : String := if b then "true" else "false"

def ofScalar : Scalar → String
  | .bool b => ofBool b
  | .int z => z.repr
  | .single x => ofBinary .single (.ofFloat32 x)
  | .double x => ofFloat x

def hex (n : Nat) : String := String.ofList (Nat.toDigits 16 n)

def quotedChar (c : Char) : String :=
  if c = '"' then "\\\""
  else if c = '\\' then "\\\\"
  else if c = '\n' then "\\n"
  else if c = '\r' then "\\r"
  else if c = '\t' then "\\t"
  else if c = Char.ofNat 0 then "\\0"
  else if isHidden c then "\\u\x7b" ++ hex c.toNat ++ "\x7d"
  else String.singleton c

def quoted (s : String) : String := "\"" ++ String.join (s.toList.map quotedChar) ++ "\""

def option {α : Type} (render : α → String) : Option α → String
  | none => "None"
  | some a => "Some(" ++ render a ++ ")"

/-- A named list of fields. -/
def record (name : String) (fields : List (String × String)) : String :=
  name ++ " \x7b " ++ String.intercalate ", " (fields.map fun f => f.1 ++ ": " ++ f.2) ++ " \x7d"

/-! ## Datasets -/

def ofScalars (l : List Scalar) : String := bracketed (l.map ofScalar)

def ofLayout : Layout → String
  | .dense => "Dense"
  | .strided strides => "Strided(" ++ ofInts strides ++ ")"

def ofFrame (f : Frame) (elements : List Scalar) (metadata : List String) : String :=
  record "Dataset"
    [("name", quoted f.name), ("shape", ofNats f.shape), ("item_size", f.itemSize.repr),
      ("offset", f.offset.repr), ("layout", ofLayout f.layout), ("data", ofScalars elements),
      ("metadata", bracketed metadata)]

def ofField (f : Field) : String := ofFrame f.toFrame f.toList []

def ofAxisValues (a : AxisValues) : String :=
  record "AxesMetadata"
    [("shape", ofNats a.shape),
      ("axes", bracketed (a.axes.map fun fields => bracketed (fields.map ofField)))]

def ofStatistics (s : Statistics) : String :=
  record "StatisticsMetadata"
    [("max", option ofFloat s.max), ("min", option ofFloat s.min), ("sum", ofFloat s.sum),
      ("count", s.count.repr), ("dirty", ofBool s.isDirty), ("generation", s.generation.repr)]

def ofAuxiliary (a : Auxiliary) : String :=
  record "AuxiliaryMetadata"
    [("entries", "\x7b" ++
      String.intercalate ", " (a.entries.map fun e => quoted e.1 ++ ": " ++ ofField e.2) ++ "\x7d")]

def ofTag (t : Tag) : String :=
  record "Tag"
    [("label", quoted t.label), ("log", bracketed (t.log.map quoted)),
      ("volatile", ofBool t.isVolatile), ("dirty", ofBool t.isDirty)]

def ofMetadata (m : Metadata) : List String :=
  m.errors.map (fun e => record "ErrorMetadata" [("errors", ofField e)]) ++
    m.axes.map ofAxisValues ++ m.statistics.map ofStatistics ++ m.auxiliary.map ofAuxiliary ++
    m.tags.map ofTag

def ofDataset (d : Block) : String := ofFrame d.toFrame d.toList (ofMetadata d.metadata)

def display (d : Block) : String := d.name ++ ofNats d.shape ++ " " ++ ofScalars d.toList

/-! ## Regions and lazy datasets -/

def ofRegion (r : Region) : String :=
  record "SliceND"
    [("source_shape", ofNats r.source), ("max_shape", option ofNats r.limits),
      ("start", ofInts r.starts), ("stop", ofInts r.stops), ("step", ofInts r.steps),
      ("shape", ofNats r.shape), ("expanded", ofBool r.expanded)]

def ofLazy {σ : Type} (l : Lazy σ) : String :=
  record "LazyDataset"
    [("name", quoted l.name), ("shape", ofNats l.shape), ("item_size", l.itemSize.repr),
      ("base", option ofRegion l.base), ("perm", option ofNats l.perm)]

def ofListeners (l : Listeners) : String :=
  record "ListenerDelegate" [("listeners", l.names.length.repr)]

def ofWriteable {σ : Type} (w : Writeable σ) : String :=
  record "LazyWriteableDataset"
    [("name", quoted w.lazy.name), ("shape", ofNats w.lazy.shape), ("max_shape", ofNats w.maxShape),
      ("chunks", option ofNats w.chunks), ("write_async", ofBool w.writesAsync),
      ("listeners", ofListeners w.listeners)]

end Hyperslab.Text
