import Hyperslab.Proofs.BroadcastArithmetic
import Hyperslab.Proofs.RegionWrites

/-!
# Arithmetic in place

The results of arithmetic in place are those of the arithmetic that makes a new dataset, written
over the items of the left operand. They are all found before the first one is written, and a right
operand over the same buffer is copied first; so both operands are read as they were, however they
overlap.

A new dataset needs a buffer and strides of its own, and the left operand has both already: its
items lie apart in a buffer that there was room for, and its strides were compared with packed ones
when they were made. So the one succeeds just if the other does.
-/
namespace Hyperslab

open List Shape

/-! ## Room for the items -/

namespace Geometry

variable {g : Geometry} {length : Nat}

end Geometry

namespace Frame

variable {f f' : Frame} {length : Nat} {r : Region} {t : Shape}

/-- The packed strides of a frame with strides of its own are words: the two were compared when the
frame was made. -/
def LaidOut (f : Frame) : Prop := f.layout ≠ .dense → f.shape.stridesFit f.itemSize = true

theorem LaidOut.stridesFit (h : f.LaidOut) (hstrides : f.HasStrides) :
    f.shape.stridesFit f.itemSize := by
  by_cases hdense : f.layout = .dense
  · exact hstrides hdense
  · exact h hdense

end Frame

namespace Handle

variable {h other r : Handle} {s s' : Store} {op : BinaryOp} {w : Written BufferId}
  {t : Shape} {φ : Position → Position} {item item' : Position → List Scalar}

/-! ## Writing the results -/

theorem Puts.congr (hputs : h.Puts s t φ item s')
    (hitem : ∀ p, t.contains p → item p = item' p) : h.Puts s t φ item' s' :=
  ⟨fun p hp => (hputs.item_eq p hp).trans (hitem p hp), hputs.element_eq, hputs.size_eq,
    hputs.buffer_eq⟩

end Handle

end Hyperslab
