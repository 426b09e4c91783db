import Hyperslab.Proofs.Contents

/-!
# Fields through a change

A field is an array with a buffer of its own. Whatever is made of a field by packing, slicing,
reshaping, transposing or repeating shows it: each of its items is an item of the field, at the
position that a map leads to.
-/
namespace Hyperslab.Field

open Dataset Permutation Shape

variable {f g g' : Field} {φ ψ : Position → Position}

/-- All items of a field are in its buffer. -/
def Sound (f : Field) : Prop := f.toFrame.Sound f.buffer.size

def item (f : Field) (p : Position) : List Scalar := f.toFrame.item f.buffer p

@[simp] theorem length_item (f : Field) (p : Position) : (f.item p).length = f.itemSize :=
  Frame.length_item ..

theorem toList_eq (f : Field) : f.toList = (f.shape.positions.map f.item).flatten :=
  Frame.elements_eq ..

theorem length_of_mem_items (f : Field) :
    ∀ l ∈ f.shape.positions.map f.item, l.length = f.itemSize := by
  intro l hl
  obtain ⟨p, -, rfl⟩ := List.mem_map.mp hl
  exact length_item ..

/-- The field `g` has the items of `f` that `φ` leads to. -/
structure Shows (g f : Field) (φ : Position → Position) : Prop where
  sound : g.Sound
  kind_eq : g.kind = f.kind
  itemSize_eq : g.itemSize = f.itemSize
  contains : ∀ q, g.shape.contains q = true → f.shape.contains (φ q) = true
  item_eq : ∀ q, g.shape.contains q = true → g.item q = f.item (φ q)

namespace Shows

theorem trans (h' : g'.Shows g ψ) (h : g.Shows f φ) : g'.Shows f fun q => φ (ψ q) where
  sound := h'.sound
  kind_eq := h'.kind_eq.trans h.kind_eq
  itemSize_eq := h'.itemSize_eq.trans h.itemSize_eq
  contains q hq := h.contains _ (h'.contains q hq)
  item_eq q hq := (h'.item_eq q hq).trans (h.item_eq _ (h'.contains q hq))

theorem congr (h : g.Shows f φ) (hφψ : ∀ q, g.shape.contains q → φ q = ψ q) : g.Shows f ψ where
  sound := h.sound
  kind_eq := h.kind_eq
  itemSize_eq := h.itemSize_eq
  contains q hq := hφψ q hq ▸ h.contains q hq
  item_eq q hq := hφψ q hq ▸ h.item_eq q hq

end Shows

/-! ## Through another frame -/

theorem shows_withFrame {frame : Frame} (h : f.Sound) (hframe : frame.Sound f.buffer.size)
    (hkind : frame.kind = f.kind) (hshows : frame.geometry.Shows f.geometry φ) :
    (f.withFrame frame).Shows f φ where
  sound := hframe
  kind_eq := hkind
  itemSize_eq := hshows.itemSize_eq
  contains := hshows.contains
  item_eq _ hq := Frame.item_of_shows h hframe hkind hshows hq

theorem shows_view (h : f.Sound) : (f.withFrame f.view).Shows f id := by
  refine shows_withFrame h (Frame.Sound.view h) rfl ?_
  rw [Frame.geometry_view]
  exact ⟨rfl, h.inside.length_strides, fun _ hq => hq, fun _ _ => rfl⟩

theorem shows_sliceView {r : Region} (h : f.Sound) (hr : r.Valid) (hg : f.sliceView r = .ok g) :
    g.Shows f r.sourcePosition ∧ g.shape = r.shape := by
  simp only [sliceView, bind_eq_ok, pure_eq_ok] at hg
  obtain ⟨frame, hframe, rfl⟩ := hg
  obtain ⟨-, hgeometry, hkind, -⟩ := Frame.slice_eq_ok hframe
  exact ⟨shows_withFrame h (Frame.Sound.slice h hr hframe) hkind (Frame.slice_shows h hr hframe),
    congrArg Geometry.shape hgeometry⟩

theorem shows_transposed {perm : List Nat} (h : f.Sound) (hperm : Orders perm f.rank)
    (hg : f.transposed (perm.map Int.ofNat) = .ok g) :
    g.Shows f (apply (inverse perm)) ∧ g.shape = apply perm f.shape := by
  simp only [transposed, ofAxes_map_ofNat hperm, bind_eq_ok, pure_eq_ok, Except.ok.injEq] at hg
  obtain ⟨_, rfl, rfl⟩ := hg
  by_cases hid : isIdentity perm
  · have hrange : perm = List.range f.shape.length := by
      rw [isIdentity_iff.mp hid, hperm.length_eq]
      rfl
    rw [if_pos hid]
    refine ⟨(shows_view h).congr fun q hq => ?_, ?_⟩
    · have hq : f.shape.contains q := hq
      rw [hrange, apply_inverse_range (length_of_contains hq), id]
    · rw [hrange, apply_range]
      rfl
  · rw [if_neg hid]
    exact ⟨shows_withFrame h (Frame.Sound.permuted h hperm) rfl (Frame.permuted_shows h hperm), rfl⟩

theorem shows_broadcast {s : Shape} (h : f.Sound) (hg : f.broadcast s = .ok g) :
    g.Shows f f.shape.project ∧ g.shape = s := by
  simp only [broadcast, bind_eq_ok, pure_eq_ok] at hg
  obtain ⟨frame, hframe, rfl⟩ := hg
  obtain ⟨ts, -, -, hts⟩ := Frame.broadcast_eq_ok hframe
  have hkind : frame.kind = f.kind := hts ▸ rfl
  exact ⟨shows_withFrame h (Frame.Sound.broadcast h hframe) hkind (Frame.broadcast_shows h hframe),
    hts ▸ rfl⟩

/-! ## In a packed buffer -/

/-- Items that are packed in their row-major order are found again by their number. -/
theorem shows_packed (name : String) {s : Shape} (h : f.Sound) (hsize : f.shape.size = s.size) :
    (ofList f.kind name s f.itemSize f.toList).Shows f fun q => unravel (s.ravel q) f.shape where
  sound := by
    have hlength : f.toList.length = s.size * f.itemSize := by
      rw [toList, length_elements, ← hsize]
      rfl
    have hlist : f.kind.bytes * (s.size * f.itemSize) < Word.half := hsize ▸ h.listable
    have hbuffer : (ofList f.kind name s f.itemSize f.toList).buffer.size = s.size * f.itemSize :=
      hlength
    rw [Sound, hbuffer]
    exact Frame.sound_packed h.inside.itemSize_pos hlist
  kind_eq := rfl
  itemSize_eq := rfl
  contains q hq := contains_unravel (hsize ▸ size_pos_of_contains hq) _
  item_eq q hq := by
    have hq : s.contains q := hq
    have hlt : s.ravel q < f.shape.size := hsize ▸ ravel_lt hq
    have hitem : (f.shape.positions.map f.item)[s.ravel q]? =
        some (f.item (unravel (s.ravel q) f.shape)) := by
      simp [positions_eq, hlt]
    have hbytes : s.size * f.itemSize < Word.half := hsize ▸ h.inside.size_lt
    change (Frame.packed f.kind name s f.itemSize).item f.toList.toArray q = _
    rw [toList_eq]
    exact Frame.item_packed h.inside.itemSize_pos hbytes f.length_of_mem_items hq hitem

theorem shows_dense (h : f.Sound) : f.dense.Shows f id :=
  (shows_packed _ h rfl).congr fun _ hq => unravel_ravel hq

theorem shows_slice {r : Region} (h : f.Sound) (hr : r.Valid) (hg : f.slice r = .ok g) :
    g.Shows f r.sourcePosition ∧ g.shape = r.shape := by
  simp only [slice, bind_eq_ok, pure_eq_ok] at hg
  obtain ⟨v, hv, -, -, -, -, rfl⟩ := hg
  obtain ⟨hshows, hshape⟩ := shows_sliceView h hr hv
  exact ⟨(shows_dense hshows.sound).trans hshows, hshape⟩

/-- A field under another shape has its items in the same order, moved or not. -/
theorem shows_reshape {s : Shape} (h : f.Sound) (hg : f.reshape s = .ok g) :
    g.Shows f (fun q => unravel (s.ravel q) f.shape) ∧ g.shape = s ∧ f.shape.size = s.size := by
  simp only [reshape, bind_eq_ok, pure_eq_ok] at hg
  obtain ⟨map, hmap, rfl⟩ := hg
  obtain ⟨hsize, -, htarget, -⟩ := Regrouping.of_eq_ok hmap
  cases hframe : f.regrouped? map with
  | some frame =>
    obtain ⟨hshape, hkind, -⟩ := Frame.regrouped_eq_some hframe
    have hg : f.regrouped map = f.withFrame frame := by simp only [regrouped, hframe]
    rw [hg]
    exact ⟨shows_withFrame h (Frame.Sound.regrouped h hmap hframe) hkind
      (Frame.regrouped_shows h hmap hframe), hshape.trans htarget, hsize⟩
  | none =>
    have hg : f.regrouped map = ofList f.kind f.name s f.itemSize f.toList := by
      simp only [regrouped, hframe, htarget]
      rfl
    rw [hg]
    exact ⟨shows_packed _ h hsize, rfl, hsize⟩

/-- A field of another kind is packed, with each element converted. -/
theorem ofField_cast (f : Field) (k : Kind) : ofField (f.cast k) .empty =
    ofItems k f.name f.shape f.itemSize fun p => (f.item p).map k.cast := by
  have helements : f.toList.map k.cast =
      (f.shape.positions.map fun p => (f.item p).map k.cast).flatten := by
    rw [toList_eq, List.map_flatten, List.map_map]
    rfl
  rw [cast, helements, ofItems]

section cast

variable {k : Kind} (h : f.Sound) (hlist : k.bytes * (f.size * f.itemSize) < Word.half)
include h hlist

theorem sound_cast : (f.cast k).Sound := by
  have hpos : 0 < f.itemSize := h.inside.itemSize_pos
  have hsound : (ofField (f.cast k) .empty).Sound := by
    rw [ofField_cast]
    exact sound_ofItems hpos (fun p _ => by simp) hlist
  exact hsound

theorem item_cast {q : Position} (hq : f.shape.contains q) :
    (f.cast k).item q = (f.item q).map k.cast := by
  have hpos : 0 < f.itemSize := h.inside.itemSize_pos
  change (ofField (f.cast k) .empty).item q = _
  rw [ofField_cast, item_ofItems hpos (fun p _ => by simp) hlist hq]

end cast

end Hyperslab.Field
