import Hyperslab.Proofs.FieldsFit
import Hyperslab.Proofs.WalksInWords

/-!
# Slices in words

Slicing a dataset inside a buffer meets few numbers that could leave the words. The way to the first
item of a region leads from item to item, so all of it stays inside the buffer. What is left are the
strides of the region, which are the strides of the dataset times the steps, the strides that the
region would have if it were packed, and the walk that reads it.
-/
namespace Hyperslab

open List Shape Word

/-! ## Conditions in front of a step -/

namespace Word

/-- Goes on where a condition holds, and stops as at a number that is no word where it does not. -/
def ensure (P : Prop) [Decidable P] : Except Error Unit :=
  if P then .ok () else .error (.fault .overflow)

variable {P Q : Prop} [Decidable P] [Decidable Q]

theorem ensure_of (h : P) : ensure P = .ok () := if_pos h

theorem ensure_of_not (h : ¬ P) : ensure P = .error (.fault .overflow) := if_neg h

@[simp] theorem ensure_eq_ok {u : Unit} : ensure P = .ok u ↔ P := by
  by_cases h : P <;> simp [ensure]

theorem ensure_congr (h : P ↔ Q) : ensure P = ensure Q := if_congr h rfl rfl

theorem ensure_and {α : Type} (x : Except Error α) :
    (do ensure P; ensure Q; x) = (do ensure (P ∧ Q); x) := by
  by_cases hP : P <;> by_cases hQ : Q <;> simp [ensure, hP, bind, Except.bind]

theorem forM_ensure {α : Type} (l : List α) (P : α → Prop) [DecidablePred P] :
    (l.forM fun a => ensure (P a)) = ensure (∀ a ∈ l, P a) := by
  induction l with
  | nil => exact (ensure_of (by simp)).symm
  | cons a l ih =>
    have hrest : (do ensure (P a); ensure (∀ b ∈ l, P b)) = ensure (P a ∧ ∀ b ∈ l, P b) := by
      simpa using ensure_and (pure ())
    rw [ensure_congr List.forall_mem_cons, ← hrest, ← ih]
    rfl

theorem check_eq_ensure (zs : List Int) : check zs = ensure (AllFit zs) := check_eq zs

/-- What is computed in words is what is computed over exact integers, or stops at a number that is
no word. -/
def Follows {α : Type} (x y : Except Error α) : Prop := x = y ∨ x = .error (.fault .overflow)

variable {α γ : Type}

theorem follows_ensure (P : Prop) [Decidable P] (x : Except Error α) :
    Follows (do ensure P; x) x := by
  by_cases h : P
  · exact .inl (by rw [ensure_of h]; rfl)
  · exact .inr (by rw [ensure_of_not h]; rfl)

theorem Follows.after_ensure {x y : Except Error α} (h : Follows x y) (P : Prop) [Decidable P] :
    Follows (do ensure P; x) y := by
  by_cases hP : P
  · rwa [ensure_of hP]
  · exact .inr (by rw [ensure_of_not hP]; rfl)

theorem Follows.bind {x y : Except Error α} {f g : α → Except Error γ} (h : Follows x y)
    (hstep : ∀ a, y = .ok a → Follows (f a) (g a)) : Follows (x >>= f) (y >>= g) := by
  rcases h with rfl | rfl
  · cases x with
    | error err => exact .inl rfl
    | ok a => exact hstep a rfl
  · exact .inr rfl

end Word

theorem Shape.size_of_sizeWord {s : Shape} {n : Nat} (h : s.sizeWord = .ok n) : s.size = n := by
  rw [sizeWord] at h
  split at h
  · next hc =>
    cases h
    exact size_of_sizeChecked hc
  · cases h

theorem Shape.sizeWord_bind {α : Type} (s : Shape) (x : Except Error α) :
    (do let _ ← s.sizeWord; x) = (do ensure (s.sizeChecked.isSome); x) := by
  cases h : s.sizeChecked <;> simp [sizeWord, ensure, h, bind, Except.bind]

theorem Shape.stridesChecked_bind {α : Type} (s : Shape) (itemSize : Nat) (x : Except Error α) :
    (do let _ ← s.stridesChecked itemSize; x) =
      (do ensure (s.stridesFit itemSize); x) := by
  by_cases h : s.stridesFit itemSize = true <;> simp [stridesChecked, ensure, h, bind, Except.bind]

/-! ## The way to a region -/

namespace Geometry

variable {g : Geometry} {length : Nat} {r : Region}

/-- The way from one item to another leads along the axes one by one, past items only. -/
theorem allFit_way {s : Shape} {ts : Strides} {q : Position} (hq : s.contains q) {first sum : Int}
    (hlength : length ≤ half) (hfirst : 0 ≤ first ∧ first < length) (hinside : ∀ p, s.contains p →
      0 ≤ first + sum + ts.offset p ∧ first + sum + ts.offset p < length) :
    AllFit (zipWith (· * ·) (q.map Int.ofNat) ts) ∧
      AllFit (sums sum (zipWith (· * ·) (q.map Int.ofNat) ts)) := by
  induction s generalizing ts q sum with
  | nil =>
    rw [contains_nil.mp hq]
    simp [sums]
  | cons d s ih =>
    obtain ⟨k, q, rfl, hk, hq⟩ := exists_of_contains_cons hq
    cases ts with
    | nil => simp [sums]
    | cons t ts =>
      have hrest (p : Position) (hp : contains s p) :
          0 ≤ first + (sum + k * t) + Strides.offset ts p ∧
            first + (sum + k * t) + Strides.offset ts p < length := by
        have := hinside (k :: p) (contains_cons.mpr ⟨hk, hp⟩)
        rw [Strides.offset_cons] at this
        omega
      have hhere := hinside _ (contains_origin (size_pos_of_contains (contains_cons.mpr ⟨hk, hq⟩)))
      have hnext := hrest _ (contains_origin (size_pos_of_contains hq))
      rw [Strides.offset_origin] at hhere hnext
      have hfits := ih hq hrest
      simp only [map_cons, zipWith_cons_cons, sums, allFit_cons, fits_iff, Int.ofNat_eq_natCast]
      exact ⟨⟨by omega, hfits.1⟩, by omega, hfits.2⟩

/-- Of the numbers met in slicing, only the strides may leave the words. -/
theorem Inside.allFit_sliceNumbers_iff (h : g.Inside length) (hr : r.Valid)
    (hsource : r.source = g.shape) : AllFit (g.sliceNumbers r) ↔ AllFit (g.slice r).strides := by
  simp only [sliceNumbers, allFit_append, and_iff_right_iff_imp]
  intro _
  split
  · exact allFit_nil
  · rename_i hsize
    have hpos : 0 < r.size := Nat.pos_of_ne_zero hsize
    have hs : 0 < g.shape.size := hsource ▸ hpos.trans_le hr.size_le
    have hsmall : ∀ d ∈ r.source, d ≤ modulus := fun d hd => h.small hs (hsource ▸ hd)
    have horigin := contains_origin hpos
    have hitem := h.itemSize_pos
    have hlength := h.length_lt
    -- A region that selects something starts at a position.
    have hstarts : r.starts = (r.sourcePosition r.shape.origin).map Int.ofNat := by
      rw [hr.cast_sourcePosition hsmall horigin, hr.starts_eq]
      simp [Region.coords, Region.shape, origin, zipWith_map_right, Span.coord]
    have hplace (p : Position) (hp : g.shape.contains p) :
        0 ≤ (g.offset : Int) + 0 + g.strides.offset p ∧
          (g.offset : Int) + 0 + g.strides.offset p < length := by
      have := h.place_inside p hp
      rw [place] at this
      omega
    have hcontains := hsource ▸ hr.contains_sourcePosition hsmall horigin
    have hfirst := hplace _ (contains_origin hs)
    rw [Strides.offset_origin] at hfirst
    have hway := allFit_way hcontains hlength.le (by omega) hplace
    rw [← hstarts] at hway
    simp only [allFit_append, allFit_cons, allFit_nil, and_true]
    refine ⟨hway, ?_⟩
    have hlast := hplace _ hcontains
    rw [offset_sourcePosition hr hsmall horigin, Strides.offset_origin, sum_eq_foldr] at hlast
    rw [signed_of_lt (h.offset_lt hs), fits_iff]
    omega

/-- A region of a geometry inside a buffer is sliced in words just if its size and its strides are
words. -/
theorem Inside.sliceInWords_eq (h : g.Inside length) (hr : r.Valid)
    (hsource : r.source = g.shape) : g.sliceInWords r = do
      ensure (r.shape.sizeChecked.isSome ∧ AllFit (g.slice r).strides)
      return g.slice r := by
  rw [sliceInWords, sizeWord_bind, check_eq_ensure,
    ensure_congr (h.allFit_sliceNumbers_iff hr hsource), ensure_and]

end Geometry

/-! ## Frames -/

namespace Frame

variable {f : Frame} {length : Nat} {r : Region}

/-- The strides of the frame are words, if they have to be computed. -/
def HasStrides (f : Frame) : Prop := f.layout = .dense → f.shape.stridesFit f.itemSize = true

instance (f : Frame) : Decidable f.HasStrides := inferInstanceAs (Decidable (_ → _))

theorem stridesInWords_bind {α : Type} (f : Frame) (x : Except Error α) :
    (do let _ ← f.stridesInWords; x) = (do ensure f.HasStrides; x) := by
  unfold stridesInWords
  split
  · rename_i hdense
    rw [stridesChecked_bind, ensure_congr (Q := f.HasStrides)]
    exact ⟨fun h _ => h, fun h => h hdense⟩
  · rename_i ts hstrided
    have h : f.HasStrides := fun hdense => by simp [hstrided] at hdense
    rw [ensure_of h]
    rfl

/-- A frame is walked in words just if its strides and the turns of the walk are words. -/
theorem checkWalk_eq (f : Frame) :
    f.checkWalk = ensure (f.HasStrides ∧ AllFit f.geometry.walkNumbers) := by
  rw [checkWalk, stridesInWords_bind, check_eq_ensure]
  simpa using ensure_and (pure ())

theorem Sound.hasStrides (h : f.Sound length) (hpos : 0 < f.size) : f.HasStrides :=
  fun _ => stridesFit_of_pos h.inside.itemSize_pos hpos h.inside.size_lt

/-- The numbers met in viewing a region of a frame are words. -/
structure ViewsInWords (f : Frame) (r : Region) : Prop where
  own : f.HasStrides
  size : r.shape.sizeChecked.isSome = true
  strides : Word.AllFit (f.geometry.slice r).strides
  packed : r.shape.stridesFit f.itemSize = true

/-- The numbers met in copying a region of a frame are words. -/
def LoadsInWords (f : Frame) (r : Region) : Prop :=
  f.HasStrides ∧ r.shape.sizeChecked.isSome ∧
    Word.AllFit (f.geometry.slice r).strides ∧ Word.AllFit (f.geometry.slice r).walkNumbers

instance (f : Frame) (r : Region) : Decidable (f.LoadsInWords r) :=
  inferInstanceAs (Decidable (_ ∧ _))

/-- The numbers met in viewing a region of a frame and in reading the view are words. -/
structure ReadsInWords (f : Frame) (r : Region) : Prop extends f.ViewsInWords r where
  walk : Word.AllFit (f.geometry.slice r).walkNumbers

theorem viewsInWords_iff : f.ViewsInWords r ↔ f.HasStrides ∧ r.shape.sizeChecked.isSome ∧
    AllFit (f.geometry.slice r).strides ∧ r.shape.stridesFit f.itemSize :=
  ⟨fun h => ⟨h.own, h.size, h.strides, h.packed⟩, fun h => ⟨h.1, h.2.1, h.2.2.1, h.2.2.2⟩⟩

theorem readsInWords_iff : f.ReadsInWords r ↔
    f.ViewsInWords r ∧ AllFit (f.geometry.slice r).walkNumbers :=
  ⟨fun h => ⟨h.toViewsInWords, h.walk⟩, fun h => ⟨h.1, h.2⟩⟩

instance (f : Frame) (r : Region) : Decidable (f.ViewsInWords r) :=
  decidable_of_iff _ viewsInWords_iff.symm

instance (f : Frame) (r : Region) : Decidable (f.ReadsInWords r) :=
  decidable_of_iff _ readsInWords_iff.symm

section

variable (h : f.Sound length) (hr : r.Valid) (hsource : r.source = f.shape)
include h hr hsource

theorem Sound.regionInWords_eq : f.regionInWords r = do
      ensure (f.HasStrides ∧ r.shape.sizeChecked.isSome ∧
        AllFit (f.geometry.slice r).strides)
      return f.geometry.slice r := by
  rw [regionInWords, checkRegion, if_pos hsource, ok_bind, stridesInWords_bind,
    h.inside.sliceInWords_eq hr hsource, ensure_and]

theorem Sound.sliceInWords_eq : f.sliceInWords r = (do ensure (f.ViewsInWords r); f.slice r) := by
  rw [sliceInWords, h.regionInWords_eq hr hsource]
  simp only [bind_assoc, pure_bind, stridesChecked_bind]
  rw [ensure_and, ensure_congr viewsInWords_iff]
  simp only [and_assoc]
  rfl

/-- Of the numbers met with a region that selects something, only those of the walk may leave the
words. -/
theorem Sound.readsInWords_iff_of_pos (hpos : 0 < r.size) :
    f.ReadsInWords r ↔ AllFit (f.geometry.slice r).walkNumbers := by
  have hle : r.size ≤ f.size := by
    rw [Frame.size, ← hsource]
    exact hr.size_le
  have hslice := h.inside.slice hr hsource
  have hlt : r.shape.size < modulus := by
    have hitem : r.shape.size ≤ r.shape.size * f.itemSize :=
      Nat.le_mul_of_pos_right _ h.inside.itemSize_pos
    have hhalf : half ≤ modulus := by decide
    exact hitem.trans_lt (hslice.size_lt.trans_le hhalf)
  refine ⟨ReadsInWords.walk, fun hwalk => ⟨⟨?_, ?_, ?_, ?_⟩, hwalk⟩⟩
  · exact h.hasStrides (hpos.trans_le hle)
  · rw [sizeChecked_of_pos hpos hlt]
    rfl
  · exact Geometry.allFit_strides_of_walkNumbers hpos hslice.length_strides hwalk
  · exact stridesFit_of_pos h.inside.itemSize_pos hpos hslice.size_lt

end

section

variable (h : f.Sound length) (hdense : f.layout = .dense)
include h hdense

/-- Items next to each other lie in row-major order. -/
theorem Sound.indexOf_of_dense {p : Position} (hp : f.shape.contains p) :
    f.geometry.indexOf p = f.offset + f.shape.ravel p * f.itemSize := by
  have hk : 0 < f.itemSize := h.inside.itemSize_pos
  have hsize : f.shape.size * f.itemSize < half := h.inside.size_lt
  have hstrides : f.geometry.strides = f.shape.strides f.itemSize := by
    simp [geometry, Frame.strides, hdense, Layout.strides]
  have hcast := h.inside.cast_indexOf hp
  rw [Geometry.place, hstrides, offset_strides hk hp hsize] at hcast
  exact_mod_cast hcast

theorem Sound.end_le_of_dense (hpos : 0 < f.size) : f.offset + f.size * f.itemSize ≤ length := by
  have hlast : f.size - 1 < f.size := Nat.sub_lt hpos Nat.one_pos
  have hcontains := contains_unravel hpos (f.size - 1)
  have hinside := h.inside.indexOf_add_le hcontains
  have hitem : f.geometry.itemSize = f.itemSize := rfl
  have hitems : (f.size - 1) * f.itemSize + f.itemSize = f.size * f.itemSize := by
    rw [← Nat.succ_mul, Nat.succ_eq_add_one, Nat.sub_add_cancel hpos]
  rw [h.indexOf_of_dense hdense hcontains, ravel_unravel hlast] at hinside
  omega

/-- Items next to each other are walked within the elements that they have. -/
theorem Sound.allFit_walkNumbers_of_dense : AllFit f.geometry.walkNumbers := by
  have hstrides : f.geometry.strides = f.shape.strides f.itemSize := by
    simp [geometry, Frame.strides, hdense, Layout.strides]
  rw [Geometry.walkNumbers]
  split
  · exact allFit_nil
  · rename_i hsize
    have hpos : 0 < f.size := Nat.pos_of_ne_zero hsize
    have hend : f.geometry.offset + f.shape.size * f.itemSize ≤ length :=
      h.end_le_of_dense hdense hpos
    have hlength := h.inside.length_lt
    rw [signed_of_lt (h.inside.offset_lt hpos), hstrides]
    exact Geometry.allFit_turns_strides (s := f.shape) h.inside.itemSize_pos hpos (by omega) le_rfl
      (by omega)

end

end Frame

/-! ## Metadata -/

namespace Metadata

/-- The numbers met in copying what is attached are words. -/
def CopiesInWords (m : Metadata) : Prop :=
  ∀ f ∈ m.fields, f.HasStrides ∧ AllFit f.geometry.walkNumbers

instance (m : Metadata) : Decidable m.CopiesInWords := List.decidableBAll _ _

theorem checkCopy_eq (m : Metadata) : m.checkCopy = ensure m.CopiesInWords := by
  simp only [checkCopy, Frame.checkWalk_eq]
  exact forM_ensure ..

@[simp] theorem copiesInWords_empty : Metadata.empty.CopiesInWords := fun _ hf => nomatch hf

@[simp] theorem checkCopy_empty : Metadata.empty.checkCopy = .ok () := rfl

@[simp] theorem checkSlice_empty (r : Region) (asView : Bool) :
    Metadata.empty.checkSlice r asView = .ok () := rfl

@[simp] theorem checkReshape_empty (map : Regrouping) :
    Metadata.empty.checkReshape map = .ok () := rfl

@[simp] theorem checkTranspose_empty (perm : List Nat) :
    Metadata.empty.checkTranspose perm = .ok () := by
  rw [checkTranspose]
  split <;> rfl

end Metadata

/-! ## Datasets -/

namespace Dataset

/-- The numbers met in copying a dataset with what is attached to it are words. -/
structure CopiesInWords {β : Type} (d : Dataset β) : Prop where
  own : d.HasStrides
  walk : Word.AllFit d.geometry.walkNumbers
  attached : d.metadata.CopiesInWords

theorem sliceViewInWords_eq {β : Type} {d : Dataset β} {length : Nat} {r : Region}
    (h : d.toFrame.Sound length) (hr : r.Valid) (hsource : r.source = d.shape) :
    d.sliceViewInWords r = (do
      ensure (d.ViewsInWords r)
      d.metadata.checkSlice r true
      d.sliceView r) := by
  obtain ⟨frame, hframe⟩ := d.toFrame.exists_slice hsource
  rw [sliceViewInWords, h.sliceInWords_eq hr hsource, hframe]
  simp only [bind_assoc, ok_bind]

theorem sliceViewInWords_of_empty {β : Type} {d : Dataset β} {length : Nat} {r : Region}
    (h : d.toFrame.Sound length) (hmeta : d.metadata = .empty) (hr : r.Valid)
    (hsource : r.source = d.shape) :
    d.sliceViewInWords r = (do ensure (d.ViewsInWords r); d.sliceView r) := by
  rw [sliceViewInWords_eq h hr hsource, hmeta]
  rfl

/-- Nothing has to follow to another shape where nothing is attached. -/
theorem checkRegrouped_of_empty {β : Type} {d : Dataset β} (hmeta : d.metadata = .empty)
    (s : Shape) : d.checkRegrouped s = d.checkReshape s := by
  rw [checkRegrouped, hmeta, Frame.checkReshape]
  cases Regrouping.of d.shape s with
  | error err => rfl
  | ok map =>
    exact bind_pure_unit

variable {d : Block} {n : Nat} {r : Region}

theorem Sound.sliceInWords_eq (h : d.Sound) (hmeta : d.metadata = .empty) (hr : r.Valid)
    (hsource : r.source = d.shape) (hreserve : reserve d.kind r.shape d.itemSize = .ok n) :
    d.sliceInWords r = (do ensure (d.LoadsInWords r); d.slice r) := by
  rw [sliceInWords, Frame.checkCopied, h.regionInWords_eq hr hsource, hmeta]
  simp only [bind_assoc, pure_bind, hreserve, ok_bind, check_eq_ensure]
  rw [ensure_and]
  simp only [and_assoc]
  rfl

theorem Sound.toListInWords_eq (h : d.Sound) :
    d.toListInWords = do
      ensure (d.HasStrides ∧ AllFit d.geometry.walkNumbers)
      return d.toList := by
  have hread : d.checkRead = .ok () := check_eq_ok.mpr h.fault_eq_none
  simp only [toListInWords, hread, ok_bind, Frame.checkWalk_eq]

end Dataset

end Hyperslab
