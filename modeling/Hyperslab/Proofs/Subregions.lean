import Hyperslab.Proofs.RegionSlices
import Hyperslab.Walk.Position

/-!
# Parts of a region

Some axes of a region are held. A part of the region has all of the held axes and a single index on
every other, free axis. There is one part for each position of the free axes, and a position of the
region lies in the part of its own free coordinates, and in no other.

Positions of the free axes are walked as positions of the whole shape with one index on the held
axes. That changes neither their number nor their order.
-/
namespace Hyperslab

open List Shape

/-! ## Free axes -/

namespace PositionWalk

/-- The entries of the axes that are not held. -/
def free {α : Type} (held : List Bool) (entries : List α) : List α :=
  ((entries.zip held).filter fun x => !x.2).map Prod.fst

/-- The lengths of the axes, where a held axis counts as 1. -/
def lengths (held : List Bool) (s : Shape) : Shape :=
  List.zipWith (fun d h => if h then 1 else d) s held

/-- The lengths of a part: all of the held axes, and one index of the others. -/
def spanned (held : List Bool) (s : Shape) : Shape :=
  List.zipWith (fun d h => if h then d else 1) s held

/-- The coordinates of a position, where those on held axes are 0. -/
def origin (held : List Bool) (p : Position) : Position :=
  List.zipWith (fun i h => if h then 0 else i) p held

@[simp] theorem free_nil {α : Type} : free [] ([] : List α) = [] := rfl

@[simp] theorem free_cons {α : Type} (h : Bool) (held : List Bool) (x : α) (l : List α) :
    free (h :: held) (x :: l) = if h then free held l else x :: free held l := by
  cases h <;> rfl

@[simp] theorem lengths_cons (h : Bool) (held : List Bool) (d : Nat) (s : Shape) :
    lengths (h :: held) (d :: s) = (if h then 1 else d) :: lengths held s := rfl

variable {held : List Bool} {s : Shape} {p q : Position}

@[simp] theorem spanned_cons (h : Bool) (held : List Bool) (d : Nat) (s : Shape) :
    spanned (h :: held) (d :: s) = (if h then d else 1) :: spanned held s := rfl

section

variable (hlength : held.length = s.length)
include hlength

theorem length_lengths : (lengths held s).length = s.length := by
  simp [lengths, hlength]

theorem size_lengths : (lengths held s).size = size (free held s) := by
  induction s generalizing held with
  | nil => simp [lengths, free]
  | cons d s ih =>
    obtain ⟨h, held, rfl⟩ := exists_cons_of_length_eq_add_one hlength
    have hrest : held.length = s.length := by simpa using hlength
    cases h <;> simp [ih hrest]

/-- **The order of positions does not depend on the held axes.** -/
theorem free_unravel (i : Nat) :
    free held (unravel i (lengths held s)) = unravel i (free held s) := by
  induction s generalizing held with
  | nil => simp [lengths, free, unravel]
  | cons d s ih =>
    obtain ⟨h, held, rfl⟩ := exists_cons_of_length_eq_add_one hlength
    have hrest : held.length = s.length := by simpa using hlength
    cases h with
    | true => simpa [unravel] using ih hrest
    | false => simp [unravel, ih hrest, size_lengths hrest]

/-- The walked positions have the free coordinates of all positions of the free axes, in order. -/
theorem map_free_positions :
    (lengths held s).positions.map (free held) = positions (free held s) := by
  rw [positions_eq, positions_eq, map_map, size_lengths hlength]
  exact map_congr_left fun i _ => free_unravel hlength i

theorem free_inj (hp : (lengths held s).contains p)
    (hq : (lengths held s).contains q) (h : free held p = free held q) : p = q := by
  induction s generalizing held p q with
  | nil =>
    have hnil : lengths held [] = [] := rfl
    rw [hnil, contains_nil] at hp hq
    rw [hp, hq]
  | cons d s ih =>
    obtain ⟨b, held, rfl⟩ := exists_cons_of_length_eq_add_one hlength
    rw [lengths_cons] at hp hq
    obtain ⟨i, p, rfl, hi, hp'⟩ := exists_of_contains_cons hp
    obtain ⟨j, q, rfl, hj, hq'⟩ := exists_of_contains_cons hq
    have hrest : held.length = s.length := by simpa using hlength
    cases b with
    | true =>
      rw [ih hrest hp' hq' h, Nat.lt_one_iff.mp hi, Nat.lt_one_iff.mp hj]
    | false =>
      simp only [free_cons, Bool.false_eq_true, if_false, cons.injEq] at h
      rw [h.1, ih hrest hp' hq' h.2]

theorem contains_origin (hp : s.contains p) :
    (lengths held s).contains (origin held p) ∧ free held (origin held p) = free held p := by
  induction s generalizing held p with
  | nil =>
    rw [contains_nil.mp hp]
    simp [lengths, origin]
  | cons d s ih =>
    obtain ⟨h, held, rfl⟩ := exists_cons_of_length_eq_add_one hlength
    obtain ⟨i, p, rfl, hi, hp⟩ := exists_of_contains_cons hp
    have hrest : held.length = s.length := by simpa using hlength
    obtain ⟨hcontains, hfree⟩ := ih hrest hp
    have horigin : origin (h :: held) (i :: p) = (if h then 0 else i) :: origin held p := rfl
    rw [horigin, lengths_cons, contains_cons, free_cons, hfree]
    cases h with
    | true => exact ⟨⟨Nat.one_pos, hcontains⟩, rfl⟩
    | false => exact ⟨⟨hi, hcontains⟩, rfl⟩

end

theorem size_spanned_pos (held : List Bool) (hs : 0 < s.size) : 0 < (spanned held s).size := by
  induction s generalizing held with
  | nil => simp [spanned]
  | cons d s ih =>
    cases held with
    | nil => simp [spanned]
    | cons h held =>
      have hd : 0 < d := Nat.pos_of_mul_pos_right hs
      rw [spanned_cons]
      refine Nat.mul_pos ?_ (ih held (Nat.pos_of_mul_pos_left hs))
      split <;> omega

end PositionWalk

/-! ## Parts of spans -/

namespace Span

/-- What a part of a region has of one axis: all of it, or a single index. -/
def inner (length : Nat) (held : Bool) (i : Nat) : Span :=
  if held then full length else ⟨i, i + 1, 1, 1⟩

/-- What a part of a region has of its axes. -/
def inners (s : Shape) (held : List Bool) (p : Position) : List Span :=
  List.zipWith (fun y i => inner y.1 y.2 i) (s.zip held) p

@[simp] theorem inners_cons (n : Nat) (s : Shape) (h : Bool) (held : List Bool) (i : Nat)
    (p : Position) : inners (n :: s) (h :: held) (i :: p) = inner n h i :: inners s held p := rfl

/-- A part of a span. -/
def part (s : Span) (held : Bool) (i : Nat) : Span := compose s (inner s.count held i)

theorem compose_inner (s : Span) (held : Bool) (i : Nat) :
    compose s (inner s.count held i) = s.part held i := rfl

variable {s : Span} {held : Bool} {i n : Nat}

theorem within_inner (hi : i < if held then 1 else n) : (inner n held i).Within n := by
  cases held with
  | true => exact within_full n
  | false =>
    have hi : i < n := hi
    refine ⟨Int.one_ne_zero, fun k hk => ?_⟩
    obtain rfl := Nat.lt_one_iff.mp hk
    simp only [coord, inner, Bool.false_eq_true, if_false]
    omega

@[simp] theorem count_part : (s.part held i).count = if held then s.count else 1 := by
  cases held <;> rfl

@[simp] theorem coord_part_held (k : Nat) : (s.part true i).coord k = s.coord k := by
  simp [part, inner, full, compose, coord]

@[simp] theorem coord_part_free : (s.part false i).coord 0 = s.coord i := by
  simp [part, inner, compose, coord]

end Span

/-! ## Parts of regions -/

namespace Region

open PositionWalk (free lengths)

variable {r : Region} {held : List Bool} {p : Position} {x : Position}

@[simp] theorem rank_full (s : Shape) : (full s).rank = s.length := by simp [rank, full]

/-- All of the held axes of a shape, and the one index of a position on every other axis. -/
def inner (s : Shape) (held : List Bool) (p : Position) : Region :=
  ⟨s, none, Span.inners s held p, false, .none⟩

/-- The part of a region at a position: all of the held axes, and one index on every other axis. -/
def part (r : Region) (held : List Bool) (p : Position) : Region :=
  ⟨r.source, none, List.zipWith Span.compose r.spans (Span.inners r.shape held p), false, .none⟩

/-- The region selects a position of its source. -/
def Selects (r : Region) (x : Position) : Prop :=
  ∃ q, r.shape.contains q = true ∧ r.coords q = x.map Int.ofNat

/-- A part has the positions of the region with its own free coordinates. -/
private theorem exists_coords_part {spans : List Span} {held : List Bool} {p : Position}
    (hlength : held.length = spans.length)
    (hp : (lengths held (spans.map Span.count)).contains p) (zs : List Int) :
    (∃ q, Shape.contains ((List.zipWith Span.compose spans
        (Span.inners (spans.map Span.count) held p)).map Span.count) q ∧
      List.zipWith Span.coord (List.zipWith Span.compose spans
        (Span.inners (spans.map Span.count) held p)) q = zs) ↔
    ∃ y, Shape.contains (spans.map Span.count) y ∧ free held y = free held p ∧
      List.zipWith Span.coord spans y = zs := by
  induction spans generalizing held p zs with
  | nil =>
    have hnil : held = [] := List.eq_nil_of_length_eq_zero hlength
    obtain rfl : p = [] := by simpa [lengths] using hp
    simp
  | cons s spans ih =>
    obtain ⟨h, held, rfl⟩ := List.exists_cons_of_length_eq_add_one hlength
    obtain ⟨i, p, rfl, hi, hp⟩ := exists_of_contains_cons hp
    have hrest := @ih held p (by simpa using hlength) hp
    simp only [List.map_cons, Span.inners_cons, List.zipWith_cons_cons, Span.compose_inner]
    constructor
    · rintro ⟨q, hq, rfl⟩
      obtain ⟨k, q, rfl, hk, hq⟩ := exists_of_contains_cons hq
      obtain ⟨y, hy, hfree, hcoords⟩ := (hrest _).mp ⟨q, hq, rfl⟩
      cases h with
      | true => exact ⟨k :: y, by simpa [hy] using hk, by simpa using hfree, by simp [hcoords]⟩
      | false =>
        -- The only index that the part has on this axis is that of its own position.
        obtain rfl : k = 0 := by simpa using hk
        exact ⟨i :: y, by simpa [hy] using hi, by simpa using hfree, by simp [hcoords]⟩
    · rintro ⟨y, hy, hfree, rfl⟩
      obtain ⟨j, y, rfl, hj, hy⟩ := exists_of_contains_cons hy
      cases h with
      | true =>
        obtain ⟨q, hq, hcoords⟩ := (hrest _).mpr ⟨y, hy, by simpa using hfree, rfl⟩
        exact ⟨j :: q, contains_cons.mpr ⟨hj, hq⟩, by simp [hcoords]⟩
      | false =>
        simp only [PositionWalk.free_cons, Bool.false_eq_true, if_false, List.cons.injEq] at hfree
        obtain ⟨rfl, hfree⟩ := hfree
        obtain ⟨q, hq, hcoords⟩ := (hrest _).mpr ⟨y, hy, hfree, rfl⟩
        exact ⟨0 :: q, contains_cons.mpr ⟨Nat.one_pos, hq⟩, by simp [hcoords]⟩

/-- The region is the part of `r` at a position: all of the held axes in the order of `r`, and the
one index of the position on every other axis. -/
structure PartOf (sub r : Region) (held : List Bool) (p : Position) : Prop where
  valid : sub.Valid
  source_eq : sub.source = r.source
  rank_eq : sub.rank = r.rank
  spanned : ∀ (i : Nat) (s : Span), held[i]? = some true → r.spans[i]? = some s →
    ∃ t, sub.spans[i]? = some t ∧ t.count = s.count ∧ ∀ k, t.coord k = s.coord k
  single : ∀ (i : Nat) (s : Span), held[i]? = some false → r.spans[i]? = some s →
    ∃ t j, sub.spans[i]? = some t ∧ p[i]? = some j ∧ t.count = 1 ∧ t.coord 0 = s.coord j

section

variable (hlength : held.length = r.shape.length) (hp : (lengths held r.shape).contains p = true)
include hlength hp

theorem length_of_walked : p.length = r.shape.length := by
  rw [length_of_contains hp, PositionWalk.length_lengths hlength]

/-- **A part selects what the region selects at its own free coordinates.** -/
theorem selects_part_iff : (r.part held p).Selects x ↔ ∃ y, r.shape.contains y ∧
    free held y = free held p ∧ r.coords y = x.map Int.ofNat :=
  exists_coords_part (hlength.trans (length_shape r)) hp (x.map Int.ofNat)

omit hlength hp in
theorem valid_inner {s : Shape} (hlength : held.length = s.length)
    (hp : (lengths held s).contains p) : (inner s held p).Valid := by
  refine ⟨?_, by simp [inner], rfl⟩
  simp only [inner]
  induction s generalizing held p with
  | nil => simp [Span.inners]
  | cons n s ih =>
    obtain ⟨h, held, rfl⟩ := exists_cons_of_length_eq_add_one hlength
    obtain ⟨i, p, rfl, hi, hp⟩ := exists_of_contains_cons hp
    exact .cons (Span.within_inner hi) (ih (by simpa using hlength) hp)

theorem Valid.compose_inner (hr : r.Valid) :
    r.compose (inner r.shape held p) = .ok (r.part held p) :=
  hr.compose_eq (valid_inner hlength hp) rfl

omit hlength hp in
theorem shape_inner {s : Shape} (hlength : held.length = s.length)
    (hp : (lengths held s).contains p) : (inner s held p).shape = PositionWalk.spanned held s := by
  simp only [shape, inner]
  induction s generalizing held p with
  | nil => simp [Span.inners, PositionWalk.spanned]
  | cons n s ih =>
    obtain ⟨h, held, rfl⟩ := exists_cons_of_length_eq_add_one hlength
    obtain ⟨i, p, rfl, -, hp'⟩ := exists_of_contains_cons hp
    have hrest := @ih held p (by simpa using hlength) hp'
    have hcount : (Span.inner n h i).count = if h then n else 1 := by cases h <;> rfl
    rw [Span.inners_cons, map_cons, hrest, hcount]
    rfl

theorem Valid.shape_part (hr : r.Valid) :
    (r.part held p).shape = PositionWalk.spanned held r.shape := by
  rw [(hr.shape_compose (valid_inner hlength hp) (hr.compose_inner hlength hp)).2,
    shape_inner hlength hp]

theorem getElem?_part {i : Nat} {s : Span} {h : Bool} (hh : held[i]? = some h)
    (hs : r.spans[i]? = some s) :
    ∃ j, p[i]? = some j ∧ (r.part held p).spans[i]? = some (s.part h j) := by
  have hi : i < p.length := by
    rw [length_of_walked hlength hp, length_shape]
    exact (List.getElem?_eq_some_iff.mp hs).1
  simp [part, Span.part, Span.inners, shape, getElem?_zipWith, zip, hs, hh, getElem?_eq_getElem hi]

theorem Valid.partOf (hr : r.Valid) : (r.part held p).PartOf r held p where
  valid := hr.compose (valid_inner hlength hp) (hr.compose_inner hlength hp)
  source_eq := rfl
  rank_eq := by
    simp [Region.part, Span.inners, rank, length_of_walked hlength hp, hlength]
  spanned i s hh hs := by
    obtain ⟨j, -, hj⟩ := getElem?_part hlength hp hh hs
    exact ⟨_, hj, by simp, fun k => Span.coord_part_held k⟩
  single i s hh hs := by
    obtain ⟨j, hpj, hj⟩ := getElem?_part hlength hp hh hs
    exact ⟨_, j, hj, hpj, by simp, Span.coord_part_free⟩

/-- **Parts at different positions select nothing in common.** -/
theorem Valid.eq_of_selects_part {q : Position} (hr : r.Valid)
    (hq : (lengths held r.shape).contains q) (h : (r.part held p).Selects x)
    (h' : (r.part held q).Selects x) : p = q := by
  obtain ⟨y, hy, hfree, hcoords⟩ := (selects_part_iff hlength hp).mp h
  obtain ⟨z, hz, hfree', hcoords'⟩ := (selects_part_iff hlength hq).mp h'
  obtain rfl := hr.coords_inj hy hz (hcoords.trans hcoords'.symm)
  exact PositionWalk.free_inj hlength hp hq (hfree.symm.trans hfree')

end

/-- **What a region selects, one of its parts selects.** -/
theorem selects_iff_part (hlength : held.length = r.shape.length) :
    r.Selects x ↔ ∃ p, (lengths held r.shape).contains p ∧ (r.part held p).Selects x := by
  constructor
  · rintro ⟨y, hy, hcoords⟩
    obtain ⟨hp, hfree⟩ := PositionWalk.contains_origin hlength hy
    exact ⟨_, hp, (selects_part_iff hlength hp).mpr ⟨y, hy, hfree.symm, hcoords⟩⟩
  · rintro ⟨p, hp, h⟩
    obtain ⟨y, hy, -, hcoords⟩ := (selects_part_iff hlength hp).mp h
    exact ⟨y, hy, hcoords⟩

end Region

end Hyperslab
