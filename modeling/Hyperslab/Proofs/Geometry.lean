import Hyperslab.Proofs.Region
import Hyperslab.Walk.Region

/-!
# Geometries inside a buffer

`place` is the buffer index of a position over exact integers. A geometry is `Inside` a buffer when
the item at each of its positions is all in the buffer. Then machine words lose nothing: every index
that is computed or walked is the exact one, and no walk is stopped.

Each way of deriving a geometry comes with a lemma that says which old position a new one shows.
-/
namespace Hyperslab

open List Region Shape Word

/-! ## The first position -/

namespace Shape

/-- The first position of a shape. -/
def origin (s : Shape) : Position := s.map fun _ => 0

@[simp] theorem origin_cons (d : Nat) (s : Shape) : origin (d :: s) = 0 :: origin s := rfl

theorem contains_origin {s : Shape} (h : 0 < s.size) : s.contains s.origin := by
  induction s with
  | nil => rfl
  | cons d s ih =>
    exact contains_cons.mpr ⟨Nat.pos_of_mul_pos_right h, ih (Nat.pos_of_mul_pos_left h)⟩

end Shape

namespace Strides

@[simp] theorem offset_origin (ts : Strides) (s : Shape) : ts.offset s.origin = 0 := by
  induction ts generalizing s with
  | nil => cases s <;> rfl
  | cons t ts ih =>
    cases s with
    | nil => rfl
    | cons d s => simp [ih]

/-- A step along one axis displaces a position by that axis's stride. -/
theorem offset_set (ts : Strides) (p : Position) {j : Nat} (hj : j < p.length) (i : Nat) :
    ts.offset (p.set j i) = ts.offset p + (i - (p[j] : Int)) * (ts[j]?).getD 0 := by
  induction ts generalizing p j with
  | nil =>
    cases h : p.set j i with
    | nil => cases p <;> simp [offset]
    | cons => cases p <;> simp [offset]
  | cons t ts ih =>
    cases p with
    | nil => simp at hj
    | cons k p =>
      cases j with
      | zero => simp; ring
      | succ j =>
        have := ih p (by simpa using hj)
        simp only [set_cons_succ, offset_cons, this, getElem_cons_succ, getElem?_cons_succ]
        ring

/-- A displacement that each axis adds nothing or its last stride to is that of a position. -/
theorem exists_offset_eq {s : Shape} {ts : Strides} {f : Nat → Int → Int}
    (hf : ∀ d t, f d t = 0 ∨ f d t = (d - 1 : Nat) * t) (hs : 0 < s.size)
    (hlength : ts.length = s.length) : ∃ p, s.contains p ∧ ts.offset p = (zipWith f s ts).sum := by
  induction s generalizing ts with
  | nil => exact ⟨[], rfl, by simp⟩
  | cons d s ih =>
    obtain ⟨t, ts, rfl⟩ := exists_cons_of_length_eq_add_one hlength
    have hd : 0 < d := Nat.pos_of_mul_pos_right hs
    obtain ⟨p, hp, hoffset⟩ := @ih ts (Nat.pos_of_mul_pos_left hs) (by simpa using hlength)
    rcases hf d t with hfirst | hlast
    · refine ⟨0 :: p, contains_cons.mpr ⟨hd, hp⟩, ?_⟩
      simp [hoffset, hfirst]
    · refine ⟨(d - 1) :: p, contains_cons.mpr ⟨by omega, hp⟩, ?_⟩
      rw [offset_cons, zipWith_cons_cons, sum_cons, hoffset, hlast]

end Strides

/-! ## Indices -/

namespace Geometry

variable {g g' : Geometry} {φ : Position → Position} {length : Nat} {p : Position} {r : Region}

/-- The exact buffer index of the item at a position. -/
def place (g : Geometry) (p : Position) : Int := g.offset + g.strides.offset p

/-- All items lie in a buffer of `length` elements, and both have sizes that are words. -/
structure Inside (g : Geometry) (length : Nat) : Prop where
  itemSize_pos : 0 < g.itemSize
  length_strides : g.strides.length = g.shape.length
  place_inside : ∀ p, g.shape.contains p = true →
    0 ≤ g.place p ∧ g.place p + g.itemSize ≤ length
  size_lt : g.shape.size * g.itemSize < Word.half
  length_lt : length < Word.half

instance (g : Geometry) (length : Nat) : Decidable (g.Inside length) :=
  decidable_of_iff (0 < g.itemSize ∧ g.strides.length = g.shape.length ∧
      (∀ p ∈ g.shape.positions, 0 ≤ g.place p ∧ g.place p + g.itemSize ≤ length) ∧
      g.shape.size * g.itemSize < Word.half ∧ length < Word.half)
    ⟨fun ⟨hpos, hrank, hplace, hsize, hlength⟩ =>
        ⟨hpos, hrank, fun p hp => hplace p (mem_positions.mpr hp), hsize, hlength⟩,
      fun h => ⟨h.itemSize_pos, h.length_strides,
        fun p hp => h.place_inside p (mem_positions.mp hp), h.size_lt, h.length_lt⟩⟩

theorem sweep_eq (base : Int) (s : Shape) (ts : Strides) :
    sweep base s ts = s.enumerate.map fun p => base + ts.offset p := by
  induction s generalizing base ts with
  | nil => simp [sweep, enumerate]
  | cons d s ih =>
    simp only [sweep, enumerate, map_flatMap, ih, map_map]
    refine flatMap_congr fun i _ => map_congr_left fun p _ => ?_
    cases ts with
    | nil => simp [Strides.offset]
    | cons t ts => simp [Int.add_assoc]

theorem indices_eq (g : Geometry) : g.indices = g.shape.positions.map g.indexOf := by
  unfold indices positions
  split
  · rfl
  · rw [sweep_eq, map_map]; rfl

namespace Inside

variable {g : Geometry} {length : Nat}

variable (h : g.Inside length)
include h

theorem lt_half (hs : 0 < g.shape.size) {d : Nat} (hd : d ∈ g.shape) : d < half := by
  have hle : d ≤ g.shape.size := le_size_of_mem hs hd
  have hitem : g.shape.size ≤ g.shape.size * g.itemSize := Nat.le_mul_of_pos_right _ h.itemSize_pos
  have := h.size_lt
  omega

theorem small (hs : 0 < g.shape.size) {d : Nat} (hd : d ∈ g.shape) : d ≤ modulus := by
  have hhalf : half ≤ modulus := by decide
  have := h.lt_half hs hd
  omega

theorem offset_lt (hs : 0 < g.shape.size) : g.offset < half := by
  have hplace := h.place_inside _ (contains_origin hs)
  have := h.length_lt
  simp only [place, Strides.offset_origin] at hplace
  omega

theorem cast_indexOf {p : Position} (hp : g.shape.contains p) :
    (g.indexOf p : Int) = g.place p := by
  have hplace := h.place_inside p hp
  have hlength := h.length_lt
  have hhalf : (half : Int) ≤ (modulus : Nat) := by decide
  have hoffset := h.offset_lt (size_pos_of_contains hp)
  simp only [place] at hplace ⊢
  rw [indexOf, signed_of_lt hoffset, unsigned_of_nonneg hplace.1 (by omega)]
  omega

theorem indexOf_add_le {p : Position} (hp : g.shape.contains p) :
    g.indexOf p + g.itemSize ≤ length := by
  have hcast := h.cast_indexOf hp
  have hplace := h.place_inside p hp
  omega

theorem fault_eq_none : g.fault? length = none := by
  unfold fault?
  split
  · rfl
  rename_i hs
  have hs : 0 < g.shape.size := Nat.pos_of_ne_zero hs
  have hsigned := signed_of_lt (h.offset_lt hs)
  have hrank : ¬ g.strides.length < g.shape.length := by rw [h.length_strides]; omega
  obtain ⟨p, hp, hmin⟩ := Strides.exists_offset_eq (fun _ _ => min_choice _ _) hs h.length_strides
  obtain ⟨q, hq, hmax⟩ := Strides.exists_offset_eq (fun _ _ => max_choice _ _) hs h.length_strides
  have hlow := h.place_inside p hp
  have hhigh := h.place_inside q hq
  rw [place, hmin, sum_eq_foldr] at hlow
  rw [place, hmax, sum_eq_foldr] at hhigh
  rw [if_neg hrank, if_neg]
  simp only [lowest, highest]
  omega

theorem reach_eq : g.reach length = ⟨g.indices, none, none⟩ := by
  simp only [reach, h.fault_eq_none]

end Inside

/-! ## Geometries that show another one -/

/-- Each position of `g'` shows the item of `g` at the position that `φ` leads to. -/
structure Shows (g' g : Geometry) (φ : Position → Position) : Prop where
  itemSize_eq : g'.itemSize = g.itemSize
  length_strides : g'.strides.length = g'.shape.length
  contains : ∀ p, g'.shape.contains p = true → g.shape.contains (φ p) = true
  place_eq : ∀ p, g'.shape.contains p = true → g'.place p = g.place (φ p)

theorem Shows.trans {g'' : Geometry} {ψ : Position → Position} (h' : g''.Shows g' ψ)
    (h : g'.Shows g φ) : g''.Shows g fun p => φ (ψ p) where
  itemSize_eq := h'.itemSize_eq.trans h.itemSize_eq
  length_strides := h'.length_strides
  contains p hp := h.contains _ (h'.contains p hp)
  place_eq p hp := (h'.place_eq p hp).trans (h.place_eq _ (h'.contains p hp))

theorem Shows.congr {ψ : Position → Position} (h : g'.Shows g φ)
    (hφψ : ∀ p, g'.shape.contains p → φ p = ψ p) : g'.Shows g ψ where
  itemSize_eq := h.itemSize_eq
  length_strides := h.length_strides
  contains p hp := hφψ p hp ▸ h.contains p hp
  place_eq p hp := hφψ p hp ▸ h.place_eq p hp

theorem Inside.of_shows (h : g.Inside length) (hshows : g'.Shows g φ)
    (hsize : g'.shape.size * g'.itemSize < half) : g'.Inside length where
  itemSize_pos := hshows.itemSize_eq ▸ h.itemSize_pos
  length_strides := hshows.length_strides
  place_inside p hp := by
    rw [hshows.place_eq p hp, hshows.itemSize_eq]
    exact h.place_inside _ (hshows.contains p hp)
  size_lt := hsize
  length_lt := h.length_lt

theorem Shows.indexOf_eq (hshows : g'.Shows g φ) (h : g.Inside length) (h' : g'.Inside length)
    (hp : g'.shape.contains p) : g'.indexOf p = g.indexOf (φ p) := by
  have hcast := h.cast_indexOf (hshows.contains p hp)
  have hcast' := h'.cast_indexOf hp
  rw [hshows.place_eq p hp] at hcast'
  omega

/-- Different positions have items that do not overlap. -/
def Separate (g : Geometry) : Prop :=
  ∀ p q, g.shape.contains p = true → g.shape.contains q = true → p ≠ q →
    g.place p + g.itemSize ≤ g.place q ∨ g.place q + g.itemSize ≤ g.place p

theorem Separate.of_shows (h : g.Separate) (hshows : g'.Shows g φ)
    (hinj : ∀ p q, g'.shape.contains p → g'.shape.contains q → φ p = φ q → p = q) :
    g'.Separate := by
  intro p q hp hq hpq
  rw [hshows.place_eq p hp, hshows.place_eq q hq, hshows.itemSize_eq]
  exact h _ _ (hshows.contains p hp) (hshows.contains q hq) fun heq => hpq (hinj p q hp hq heq)

/-! ## Regions -/

private theorem sum_coords {spans : List Span} {ts : Strides} (hlength : p.length = spans.length) :
    (zipWith (· * ·) (spans.map Span.start) ts).sum +
        Strides.offset (zipWith (· * ·) ts (spans.map Span.step)) p =
      (zipWith (· * ·) (zipWith Span.coord spans p) ts).sum := by
  induction spans generalizing ts p with
  | nil => simp [Strides.offset]
  | cons s spans ih =>
    obtain ⟨i, p, rfl⟩ := exists_cons_of_length_eq_add_one hlength
    cases ts with
    | nil => simp [Strides.offset]
    | cons t ts =>
      have := @ih p ts (by simpa using hlength)
      simp only [map_cons, zipWith_cons_cons, sum_cons, Strides.offset_cons, Span.coord, ← this]
      ring

private theorem offset_map_toNat {zs : List Int} (h : ∀ z ∈ zs, 0 ≤ z) (ts : Strides) :
    ts.offset (zs.map Int.toNat) = (zipWith (· * ·) zs ts).sum := by
  induction zs generalizing ts with
  | nil => simp
  | cons z zs ih =>
    cases ts with
    | nil => simp [Strides.offset]
    | cons t ts =>
      rw [map_cons, Strides.offset_cons, ih fun z hz => h z (mem_cons_of_mem _ hz),
        Int.toNat_of_nonneg (h z mem_cons_self), zipWith_cons_cons, sum_cons]

/-- The displacement of a position that a region selects, from those of the region's start and of
the position in the region. -/
theorem offset_sourcePosition (hr : r.Valid) {ts : Strides}
    (hsmall : ∀ d ∈ r.source, d ≤ modulus) (hp : r.shape.contains p) :
    ts.offset (r.sourcePosition p) = (zipWith (· * ·) r.starts ts).sum +
      Strides.offset (zipWith (· * ·) ts r.steps) p := by
  have hlength : p.length = r.spans.length := by
    rw [length_of_contains hp, length_shape, rank]
  rw [hr.sourcePosition_eq hsmall hp, hr.starts_eq, hr.steps_eq, sum_coords hlength,
    offset_map_toNat fun z hz => (mem_coords_inside (hr.coords_inside hp) hz).1]
  rfl

section

variable (h : g.Inside length) (hr : r.Valid) (hsource : r.source = g.shape)
include h hr hsource

/-- **An item of a region lies where the item of the whole lies that it selects.** -/
theorem Inside.place_slice
    (hp : r.shape.contains p) : (g.slice r).place p = g.place (r.sourcePosition p) := by
  have hpos : 0 < r.size := size_pos_of_contains hp
  have hs : 0 < g.shape.size := hsource ▸ hpos.trans_le hr.size_le
  have hsmall : ∀ d ∈ r.source, d ≤ modulus := fun d hd => h.small hs (hsource ▸ hd)
  -- The start of a region that selects something is a position, so its index is exact.
  have horigin := contains_origin hpos
  have hstart := h.place_inside _ (hsource ▸ hr.contains_sourcePosition hsmall horigin)
  rw [place, offset_sourcePosition hr hsmall horigin, Strides.offset_origin, add_zero] at hstart
  have hhalf : (half : Int) ≤ (modulus : Nat) := by decide
  have hlength := h.length_lt
  have hoffset : ((g.slice r).offset : Int) =
      g.offset + (zipWith (· * ·) r.starts g.strides).sum := by
    simp only [slice, if_neg hpos.ne']
    rw [sum_eq_foldr] at hstart ⊢
    rw [signed_of_lt (h.offset_lt hs), unsigned_of_nonneg hstart.1 (by omega)]
    omega
  rw [place, place, offset_sourcePosition hr hsmall hp, hoffset]
  simp only [slice]
  ring

theorem Inside.contains_sourcePosition
    (hp : r.shape.contains p) : g.shape.contains (r.sourcePosition p) := by
  have hs : 0 < g.shape.size :=
    hsource ▸ (size_pos_of_contains hp).trans_le hr.size_le
  rw [← hsource]
  exact hr.contains_sourcePosition (fun d hd => h.small hs (hsource ▸ hd)) hp

theorem Inside.sourcePosition_inj {q : Position} (hp : r.shape.contains p) (hq : r.shape.contains q)
    (hpq : r.sourcePosition p = r.sourcePosition q) : p = q := by
  have hs : 0 < g.shape.size :=
    hsource ▸ (size_pos_of_contains hp).trans_le hr.size_le
  exact hr.sourcePosition_inj (fun d hd => h.small hs (hsource ▸ hd)) hp hq hpq

theorem Inside.shows_slice : (g.slice r).Shows g r.sourcePosition where
  itemSize_eq := rfl
  length_strides := by
    have hrank := hr.length_source
    simp [slice, hr.steps_eq, h.length_strides, ← hsource, hrank, rank]
  contains _ hp := h.contains_sourcePosition hr hsource hp
  place_eq _ hp := h.place_slice hr hsource hp

theorem Inside.slice : (g.slice r).Inside length := by
  refine h.of_shows (h.shows_slice hr hsource) ?_
  have hle : r.shape.size ≤ g.shape.size := hsource ▸ hr.size_le
  exact (Nat.mul_le_mul_right _ hle).trans_lt h.size_lt

end

end Geometry

end Hyperslab
