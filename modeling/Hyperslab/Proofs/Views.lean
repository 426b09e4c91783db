import Hyperslab.Proofs.Frame
import Hyperslab.Dataset.Access
import Hyperslab.Dataset.Make

/-!
# Datasets over a buffer

A dataset lies over a buffer of `length` elements when its frame is sound for it. Each operation
that makes a new frame over the same buffer keeps this, and each operation that packs items into a
buffer of their own makes a dataset that lies over that buffer.
-/
namespace Hyperslab

open List

namespace Dataset

variable {d : Block} {s : Shape} {n : Nat}

section Over

variable {β : Type} {d d' : Dataset β} {b : β} {length : Nat}

/-- The dataset looks at the buffer `b` of `length` elements, and all of its items are in it. -/
structure Over (d : Dataset β) (b : β) (length : Nat) : Prop where
  buffer_eq : d.buffer = b
  sound : d.toFrame.Sound length

section

variable (h : d.Over b length)
include h

theorem Over.through {f : Frame} (hf : f.Sound length) (m : Metadata) :
    (d.through f m).Over b length := ⟨h.buffer_eq, hf⟩

theorem Over.view : d.view.Over b length := h.through h.sound.view _

theorem Over.sliceView {r : Region} (hr : r.Valid)
    (hd : d.sliceView r = .ok d') : d'.Over b length := by
  simp only [Dataset.sliceView, bind_eq_ok, pure_eq_ok] at hd
  obtain ⟨frame, hframe, m, -, rfl⟩ := hd
  exact h.through (h.sound.slice hr hframe) m

theorem Over.transposed {axes : List Int} (hd : d.transposed axes = .ok d') : d'.Over b length := by
  simp only [Dataset.transposed, bind_eq_ok] at hd
  obtain ⟨perm, hperm, hd⟩ := hd
  split at hd
  · simp only [pure_eq_ok] at hd
    exact hd ▸ h.view
  · simp only [bind_eq_ok, pure_eq_ok] at hd
    obtain ⟨-, -, m, -, rfl⟩ := hd
    exact h.through (h.sound.permuted (Permutation.orders_of_ofAxes hperm)) m

theorem Over.swapAxes {i j : Int} (hd : d.swapAxes i j = .ok d') : d'.Over b length := by
  simp only [Dataset.swapAxes, bind_eq_ok] at hd
  obtain ⟨axes, -, hd⟩ := hd
  exact h.transposed hd

theorem Over.rollAxis {axis start : Int}
    (hd : d.rollAxis axis start = .ok d') : d'.Over b length := by
  simp only [Dataset.rollAxis, bind_eq_ok] at hd
  obtain ⟨axes, -, hd⟩ := hd
  exact h.transposed hd

theorem Over.flip {axis : Int} (hd : d.flip axis = .ok d') : d'.Over b length := by
  simp only [Dataset.flip, bind_eq_ok] at hd
  obtain ⟨r, hr, hd⟩ := hd
  exact h.sliceView ((Region.valid_full _).flip hr) hd

theorem Over.rot90 {k : Int} (hd : d.rot90 k = .ok d') : d'.Over b length := by
  simp only [Dataset.rot90, bind_eq_ok] at hd
  obtain ⟨-, -, hd⟩ := hd
  split at hd
  · simp only [pure_eq_ok] at hd
    exact hd ▸ h.view
  · simp only [bind_eq_ok] at hd
    obtain ⟨e, he, hd⟩ := hd
    exact (h.swapAxes he).flip hd
  · simp only [bind_eq_ok] at hd
    obtain ⟨e, he, hd⟩ := hd
    exact (h.flip he).flip hd
  · simp only [bind_eq_ok] at hd
    obtain ⟨e, he, hd⟩ := hd
    exact (h.swapAxes he).flip hd

theorem Over.broadcastView {s : Shape} (hd : d.broadcastView s = .ok d') : d'.Over b length := by
  simp only [Dataset.broadcastView, bind_eq_ok, pure_eq_ok] at hd
  obtain ⟨f, hf, rfl⟩ := hd
  exact h.through (h.sound.broadcast hf) _

theorem Over.reshapeView {s : Shape}
    (hd : d.reshapeView? s = .ok (some d')) : d'.Over b length := by
  simp only [reshapeView?, bind_eq_ok] at hd
  obtain ⟨map, hmap, -, -, hd⟩ := hd
  split at hd
  · rename_i f hf
    simp only [bind_eq_ok, pure_eq_ok, Option.some.injEq] at hd
    obtain ⟨m, -, rfl⟩ := hd
    exact h.through (h.sound.regrouped hmap hf) m
  · simp at hd

end

end Over

/-! ## Datasets with a buffer of their own -/

/-- All items of a block are in its own buffer. -/
def Sound (d : Block) : Prop := d.toFrame.Sound d.buffer.size

instance (d : Block) : Decidable d.Sound := inferInstanceAs (Decidable (d.toFrame.Sound _))

theorem Sound.itemSize_pos (h : d.Sound) : 0 < d.itemSize := h.inside.itemSize_pos

theorem length_elements (f : Frame) (buffer : Elements) :
    (f.elements buffer).length = f.size * f.itemSize := by
  have hitem : ∀ l ∈ f.items buffer, l.length = f.itemSize := by
    intro l hl
    obtain ⟨i, -, rfl⟩ := mem_map.mp hl
    simp [Frame.itemAt]
  rw [Frame.elements, length_flatten, map_congr_left hitem, map_const',
    sum_replicate_nat, Frame.items, length_map, Geometry.indices_eq,
    length_map, Shape.length_positions]
  rfl

theorem sound_ofList {k : Kind} {name : String} {l : List Scalar} {m : Metadata} (hn : 0 < n)
    (hlength : l.length = s.size * n) (hlist : k.bytes * (s.size * n) < Word.half) :
    Sound (ofField (Field.ofList k name s n l) m) := by
  have hsize : (ofField (Field.ofList k name s n l) m).buffer.size = s.size * n := hlength
  rw [Sound, hsize]
  exact Frame.sound_packed hn hlist

@[simp] theorem checkItemSize_eq_ok {u : Unit} : checkItemSize n = .ok u ↔ 0 < n := by
  unfold checkItemSize
  split <;> simp_all; omega

theorem sound_fullOf {k : Kind} {v : Scalar} (hn : 0 < n)
    (h : fullOf k n s v = .ok d) : d.Sound := by
  simp only [fullOf, bind_eq_ok, pure_eq_ok] at h
  obtain ⟨m, hm, rfl⟩ := h
  obtain ⟨rfl, hmax⟩ := elementCount_eq_ok (reserve_eq_ok hm)
  have hsize : (Array.replicate (s.size * n) v).size = s.size * n := Array.size_replicate
  rw [Sound]
  simp only [ofField, Buffer.of, Buffer.size, hsize]
  exact Frame.sound_packed hn (bytes_mul_lt hmax)

theorem Sound.dense (h : d.Sound) (m : Metadata) : Sound (ofField d.field.dense m) :=
  sound_ofList h.inside.itemSize_pos (length_elements _ _) h.listable

theorem Sound.slice {e : Block} {r : Region} (h : d.Sound) (hr : r.Valid)
    (he : d.slice r = .ok e) : e.Sound := by
  simp only [Dataset.slice, Field.slice, Field.sliceView, bind_eq_ok, pure_eq_ok] at he
  obtain ⟨f, ⟨v, ⟨frame, hframe, rfl⟩, n, -, -, -, rfl⟩, m, -, rfl⟩ := he
  have hsound : frame.Sound d.buffer.size := Frame.Sound.slice h hr hframe
  exact sound_ofList hsound.inside.itemSize_pos (length_elements _ _) hsound.listable

/-- A dataset under another shape is sound, whether its items were moved or not. -/
theorem Sound.reshape {e : Block} (h : d.Sound) (he : d.reshape s = .ok e) : e.Sound := by
  simp only [Dataset.reshape, bind_eq_ok] at he
  obtain ⟨map, hmap, -, -, he⟩ := he
  split at he
  · rename_i f hf
    simp only [bind_eq_ok, pure_eq_ok] at he
    obtain ⟨m, -, rfl⟩ := he
    exact Frame.Sound.regrouped h hmap hf
  · simp only [bind_eq_ok, pure_eq_ok] at he
    obtain ⟨-, -, m, -, rfl⟩ := he
    obtain ⟨hsize, -, -, -⟩ := Regrouping.of_eq_ok hmap
    have hlist : d.kind.bytes * (s.size * d.itemSize) < Word.half := by
      rw [← hsize]
      exact h.listable
    have hlength : (d.toFrame.elements d.buffer.elements).length = s.size * d.itemSize := by
      rw [length_elements, ← hsize]
      rfl
    exact sound_ofList (s := s) h.inside.itemSize_pos hlength hlist

end Dataset

end Hyperslab
