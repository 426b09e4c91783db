import Hyperslab.Dataset.InWords
import Hyperslab.Json.Reader
import Hyperslab.Json.Text

/-!
# JSON of datasets

A dataset is written with a format version, its name, shape and item size, and its elements in
row-major order; metadata and layout are not written. It can be read from an object with its fields
in any order or from the list of the fields.
-/
namespace Hyperslab.Json

end Hyperslab.Json
