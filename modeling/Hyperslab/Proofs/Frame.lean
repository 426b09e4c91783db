import Hyperslab.Frame
import Hyperslab.Proofs.Geometry

/-!
# Frames over the same buffer

A frame is `Sound` for a buffer when its geometry lies inside it and all its items can be listed.
Every frame that is derived over the same buffer is sound again; for each, `Shows` says which
position of the old frame a position of the new one stands for.
-/
namespace Hyperslab

open List Permutation Shape Word

variable {s : Shape} {n : Nat}

/-! ## Regrouped axes -/

namespace AxisGroup

theorem matchProducts_ne {p q : Nat} {source target : Shape} {m n : Nat} (hpq : p ≠ q)
    (h : matchProducts p q source target = .ok (m, n)) : m ≠ 0 ∨ n ≠ 0 := by
  unfold matchProducts at h
  rw [if_neg hpq] at h
  split at h <;> split at h
  case h_1 => cases h
  case h_1 => cases h
  all_goals
    simp only [bind_eq_ok, pure_eq_ok, Prod.mk.injEq] at h
    omega

/-- The steps of the pass over the axes of two shapes. -/
inductive Passes : (i j : Nat) → (source target : Shape) → List AxisGroup → Prop where
  | nil (i j) : Passes i j [] [] []
  | goes {i j source target groups} : Passes (i + 1) j source target groups →
      Passes i j (1 :: source) target (⟨i, 1, j, 0⟩ :: groups)
  | comes {i j source target groups} : Passes i (j + 1) source target groups →
      Passes i j source (1 :: target) (⟨i, 0, j, 1⟩ :: groups)
  | stays {i j source target groups} (d) : Passes (i + 1) (j + 1) source target groups →
      Passes i j (d :: source) (d :: target) (⟨i, 1, j, 1⟩ :: groups)
  | regroups {i j d e m n source target groups} : d ≠ 1 → e ≠ 1 → d ≠ e →
      matchProducts d e source target = .ok (m, n) → m = 0 ∨ n = 0 →
      Passes (i + (m + 1)) (j + (n + 1)) (source.drop m) (target.drop n) groups →
      Passes i j (d :: source) (e :: target) (⟨i, m + 1, j, n + 1⟩ :: groups)

variable {i j : Nat} {source target : Shape} {groups : List AxisGroup}

theorem passes_of_between (h : between i j source target = .ok groups) :
    Passes i j source target groups := by
  fun_induction between i j source target generalizing groups with
  | case1 i j =>
    cases h
    exact .nil i j
  | case3 | case5 => cases h
  | case2 _ _ _ ih | case4 _ _ _ ih | case6 _ _ _ _ _ ih | case7 _ _ _ _ _ _ ih
  | case8 _ _ _ _ _ _ _ ih =>
    simp only [bind_eq_ok, pure_eq_ok] at h
    obtain ⟨rest, hrest, rfl⟩ := h
    constructor
    exact ih hrest
  | case9 i j d source e target hde hd he ih =>
    simp only [bind_eq_ok] at h
    obtain ⟨⟨m, n⟩, hmatch, h⟩ := h
    split at h
    · cases h
    · simp only [bind_eq_ok, pure_eq_ok] at h
      obtain ⟨rest, hrest, rfl⟩ := h
      exact .regroups hd he hde hmatch (by omega) (ih m n hrest)

/-- The strides of the target of groups that only let unit axes come and go. -/
def unitStrides (groups : List AxisGroup) (ts : Strides) : Strides :=
  groups.flatMap fun g =>
    if g.targetLength = 0 then [] else if g.sourceLength = 0 then [0] else g.source ts

/-- At most one axis on each side. -/
def isUnit (g : AxisGroup) : Bool := g.sourceLength ≤ 1 && g.targetLength ≤ 1

/-- Walking `target` with strides `us` visits what walking `source` with strides `ts` visits, in
the same order. -/
structure SameWalk (source : Shape) (ts : Strides) (target : Shape) (us : Strides) : Prop where
  length_eq : us.length = target.length
  size_eq : source.size = target.size
  offset_eq : ∀ q, target.contains q = true → ∃ p, source.contains p = true ∧
    source.ravel p = target.ravel q ∧ us.offset q = ts.offset p

namespace SameWalk

variable {ts us : Strides}

variable (h : SameWalk source ts target us)
include h

theorem unit_goes (t : Int) : SameWalk (1 :: source) (t :: ts) target us where
  length_eq := h.length_eq
  size_eq := by simpa using h.size_eq
  offset_eq q hq := by
    obtain ⟨p, hp, hravel, hoffset⟩ := h.offset_eq q hq
    exact ⟨0 :: p, by simpa using hp, by simpa using hravel, by simpa using hoffset⟩

theorem unit_comes (t : Int) : SameWalk source ts (1 :: target) (t :: us) where
  length_eq := by simpa using h.length_eq
  size_eq := by simpa using h.size_eq
  offset_eq q hq := by
    obtain ⟨k, q, rfl, hk, hq⟩ := exists_of_contains_cons hq
    obtain ⟨p, hp, hravel, hoffset⟩ := h.offset_eq q hq
    obtain rfl : k = 0 := by omega
    exact ⟨p, hp, by simpa using hravel, by simpa using hoffset⟩

theorem axis_stays (d : Nat) (t : Int) :
    SameWalk (d :: source) (t :: ts) (d :: target) (t :: us) where
  length_eq := by simpa using h.length_eq
  size_eq := by simp [h.size_eq]
  offset_eq q hq := by
    obtain ⟨k, q, rfl, hk, hq⟩ := exists_of_contains_cons hq
    obtain ⟨p, hp, hravel, hoffset⟩ := h.offset_eq q hq
    exact ⟨k :: p, contains_cons.mpr ⟨hk, hp⟩, by simp [hravel, h.size_eq], by simp [hoffset]⟩

end SameWalk

private theorem drop_eq_cons {i n : Nat} {ts : Strides} (h : (ts.drop i).length = n + 1) :
    ∃ t, ts.drop i = t :: ts.drop (i + 1) ∧ (ts.drop (i + 1)).length = n := by
  have hi : i < ts.length := by rw [length_drop] at h; omega
  refine ⟨ts[i], drop_eq_getElem_cons hi, ?_⟩
  rw [length_drop] at h ⊢
  omega

/-- Groups that only let unit axes come and go keep the walk. -/
theorem Passes.sameWalk {ts : Strides} (h : Passes i j source target groups)
    (hunit : groups.all isUnit) (hts : (ts.drop i).length = source.length) :
    SameWalk source (ts.drop i) target (unitStrides groups ts) := by
  induction h with
  | nil i j =>
    refine ⟨rfl, rfl, fun q hq => ⟨[], rfl, rfl, ?_⟩⟩
    rw [contains_nil.mp hq]; simp
  | goes _ ih =>
    obtain ⟨t, hdrop, hlength⟩ := drop_eq_cons hts
    simp only [all_cons, Bool.and_eq_true] at hunit
    rw [hdrop]
    exact (ih hunit.2 hlength).unit_goes t
  | comes _ ih =>
    simp only [all_cons, Bool.and_eq_true] at hunit
    exact (ih hunit.2 hts).unit_comes 0
  | @stays i j source target rest d _ ih =>
    obtain ⟨t, hdrop, hlength⟩ := drop_eq_cons hts
    simp only [all_cons, Bool.and_eq_true] at hunit
    have hcons : unitStrides (⟨i, 1, j, 1⟩ :: rest) ts = t :: unitStrides rest ts := by
      simp [unitStrides, AxisGroup.source, hdrop]
    rw [hcons, hdrop]
    exact (ih hunit.2 hlength).axis_stays d t
  | regroups _ _ hde hmatch _ _ _ =>
    -- An axis that is merged or split is in a group of more than one axis.
    have := matchProducts_ne hde hmatch
    simp only [all_cons, isUnit, Bool.and_eq_true, decide_eq_true_eq] at hunit
    omega

end AxisGroup

theorem Shape.size_of_sizeChecked (h : s.sizeChecked = some n) : s.size = n := by
  suffices ∀ m, s.foldlM (fun n d => if n * d < modulus then some (n * d) else none) m =
      some n → m * s.size = n by simpa using this 1 h
  clear h
  induction s with
  | nil => intro m h; simpa using h
  | cons d s ih =>
    intro m h
    simp only [foldlM_cons, Option.bind_eq_bind, Option.bind_eq_some_iff] at h
    obtain ⟨m', hm', h⟩ := h
    split at hm'
    · simp only [Option.some.injEq] at hm'
      rw [size_cons, ← Nat.mul_assoc, hm']
      exact ih m' h
    · simp at hm'

namespace Regrouping

theorem of_eq_ok {source target : Shape} {map : Regrouping} (h : of source target = .ok map) :
    source.size = target.size ∧ map.source = source ∧ map.target = target ∧
      ∀ groups, map.found = .ok groups → AxisGroup.between 0 0 source target = .ok groups := by
  unfold of at h
  split at h
  · rename_i m n hm hn
    split at h
    · rename_i hmn
      simp only [Except.ok.injEq] at h
      subst h
      refine ⟨?_, rfl, rfl, fun groups hgroups => ?_⟩
      · rw [size_of_sizeChecked hm, size_of_sizeChecked hn, hmn]
      · split at hgroups
        · simp at hgroups
        · exact hgroups
    · simp at h
  · simp at h

/-- Strides that are carried over to the target keep the walk. -/
theorem sameWalk_of_unitStrides {source target : Shape} {map : Regrouping} {ts us : Strides}
    (h : of source target = .ok map) (hus : map.unitStrides ts = some us)
    (hts : ts.length = source.length) : AxisGroup.SameWalk source ts target us := by
  obtain ⟨-, -, -, hbetween⟩ := of_eq_ok h
  unfold unitStrides at hus
  split at hus
  · rename_i groups hfound
    split at hus
    · rename_i hones
      simp only [Option.some.injEq] at hus
      simp only [isOnesOnly, hfound] at hones
      subst hus
      exact (AxisGroup.passes_of_between (hbetween groups hfound)).sameWalk hones (by simpa using hts)
    · simp at hus
  · simp at hus

end Regrouping

/-! ## Broadcast axes -/

namespace Shape

/-- The position of `s` that is repeated at position `q` of a shape that `s` is broadcast to. -/
def project (s : Shape) (q : Position) : Position :=
  List.zipWith (fun d i => if d = 1 then 0 else i) s (q.drop (q.length - s.length))

private theorem alignStrides_eq_some {s : Shape} {ts : Strides} {target : Shape} {us : Strides}
    (h : alignStrides s ts target = some us) (hts : ts.length = s.length)
    (htarget : target.length = s.length) : us.length = target.length ∧ ∀ q, target.contains q →
        s.contains (zipWith (fun d i => if d = 1 then 0 else i) s q) ∧
        us.offset q = ts.offset (zipWith (fun d i => if d = 1 then 0 else i) s q) := by
  induction s generalizing ts target us with
  | nil =>
    obtain rfl : target = [] := eq_nil_of_length_eq_zero htarget
    obtain rfl : us = [] := by simpa [alignStrides] using h.symm
    exact ⟨rfl, fun q hq => by simp [Strides.offset]⟩
  | cons d s ih =>
    obtain ⟨t, ts, rfl⟩ := exists_cons_of_length_eq_add_one hts
    obtain ⟨n, target, rfl⟩ := exists_cons_of_length_eq_add_one htarget
    simp only [alignStrides, Option.bind_eq_bind, Option.bind_eq_some_iff] at h
    obtain ⟨rest, hrest, h⟩ := h
    obtain ⟨hlength, hshow⟩ := ih hrest (by simpa using hts) (by simpa using htarget)
    -- Either the axis keeps its length and its stride, or it is a unit axis that is repeated.
    obtain ⟨u, rfl, hu⟩ : ∃ u, us = u :: rest ∧ (d = n ∧ u = t ∨ d = 1 ∧ u = 0) := by
      split at h
      · rename_i hdn
        exact ⟨t, by simpa using h.symm, .inl ⟨hdn, rfl⟩⟩
      · split at h
        · rename_i hd
          exact ⟨0, by simpa using h.symm, .inr ⟨hd, rfl⟩⟩
        · simp at h
    refine ⟨by simpa using hlength, fun q hq => ?_⟩
    obtain ⟨i, q, rfl, hi, hq⟩ := exists_of_contains_cons hq
    obtain ⟨hcontains, hoffset⟩ := hshow q hq
    rw [zipWith_cons_cons, contains_cons, Strides.offset_cons, hoffset]
    refine ⟨⟨?_, hcontains⟩, ?_⟩
    · split <;> omega
    · rcases hu with ⟨rfl, rfl⟩ | ⟨rfl, rfl⟩
      · by_cases hd : d = 1
        · obtain rfl : i = 0 := by omega
          simp
        · simp [hd]
      · simp

end Shape

theorem Strides.offset_replicate_zero_append (e : Nat) (ts : Strides) (q : Position) :
    Strides.offset (replicate e 0 ++ ts) q = ts.offset (q.drop e) := by
  induction e generalizing q with
  | zero => simp
  | succ e ih =>
    cases q with
    | nil => simp
    | cons i q => simp [replicate_succ, ih]

/-- Strides that repeat a shape displace a position by the displacement of what it repeats. -/
theorem Shape.broadcastStrides_eq_ok {target : Shape} {ts us : Strides}
    (h : broadcastStrides s ts target = .ok us) (hts : ts.length = s.length) :
    us.length = target.length ∧ ∀ q, target.contains q →
      s.contains (s.project q) ∧ us.offset q = ts.offset (s.project q) := by
  unfold broadcastStrides at h
  split at h
  · simp at h
  simp only at h
  split at h
  · rename_i out hout
    simp only [Except.ok.injEq] at h
    subst h
    obtain ⟨hlength, hshow⟩ := alignStrides_eq_some hout hts (by rw [length_drop]; omega)
    refine ⟨by rw [length_append, hlength]; simp, fun q hq => ?_⟩
    have hq' : contains (target.drop (target.length - s.length))
        (q.drop (target.length - s.length)) :=
      contains_iff_forall₂.mpr (forall₂_drop _ (contains_iff_forall₂.mp hq))
    obtain ⟨hcontains, hoffset⟩ := hshow _ hq'
    have hproject : s.project q = zipWith (fun d i => if d = 1 then 0 else i) s
        (q.drop (target.length - s.length)) := by rw [project, length_of_contains hq]
    rw [hproject, Strides.offset_replicate_zero_append]
    exact ⟨hcontains, hoffset⟩
  · simp at h

/-! ## Sound frames -/

theorem Kind.bytes_pos (k : Kind) : 0 < k.bytes := by
  cases k with
  | int s w => cases w <;> simp [bytes, Width.bits]
  | bool | single | double => decide

theorem Kind.bytes_le (k : Kind) : k.bytes ≤ 8 := by
  cases k with
  | int s w => cases w <;> simp [bytes, Width.bits]
  | bool | single | double => decide

theorem elementCount_eq_ok {itemSize : Nat} (h : elementCount s itemSize = .ok n) :
    n = s.size * itemSize ∧ n ≤ maxElements := by
  unfold elementCount at h
  split at h
  · rename_i m hm
    simp only [Option.filter_eq_some_iff, decide_eq_true_eq] at hm
    simp only [Except.ok.injEq] at h
    rw [size_of_sizeChecked hm.1]
    exact ⟨h.symm, h ▸ hm.2⟩
  · simp at h

theorem reserve_eq_ok {k : Kind} {itemSize : Nat}
    (h : reserve k s itemSize = .ok n) : elementCount s itemSize = .ok n := by
  simp only [reserve, bind_eq_ok] at h
  obtain ⟨m, hm, h⟩ := h
  split at h
  · exact h ▸ hm
  · simp at h

theorem bytes_mul_lt {k : Kind} (h : n ≤ maxElements) : k.bytes * n < half := by
  have hmul : k.bytes * n ≤ 8 * maxElements := Nat.mul_le_mul k.bytes_le h
  have hmax : 8 * maxElements < half := by decide
  omega

namespace Frame

variable {k : Kind} {name : String} {s : Shape} {n : Nat} {r : Region} {map : Regrouping}

variable {f f' : Frame} {length : Nat}

@[simp] theorem geometry_withGeometry (f : Frame) (s : Shape) (offset : Nat) (ts : Strides) :
    (f.withGeometry s offset ts).geometry = ⟨s, f.itemSize, offset, ts⟩ := by
  simp [geometry, withGeometry, strides]

@[simp] theorem geometry_view (f : Frame) : f.view.geometry = f.geometry := by
  rw [view, geometry_withGeometry, geometry]

/-- All items lie in a buffer of `length` elements and can be listed. -/
structure Sound (f : Frame) (length : Nat) : Prop where
  inside : f.geometry.Inside length
  listable : f.kind.bytes * (f.size * f.itemSize) < Word.half

instance (f : Frame) (length : Nat) : Decidable (f.Sound length) :=
  decidable_of_iff (_ ∧ _) ⟨fun h => ⟨h.1, h.2⟩, fun h => ⟨h.1, h.2⟩⟩

theorem Sound.fault_eq_none (h : f.Sound length) : f.fault? length = none := by
  simp [fault?, listFault?, h.listable, h.inside.fault_eq_none]

theorem size_lt_of_listable (h : f.kind.bytes * (f.size * f.itemSize) < half) :
    f.size * f.itemSize < half :=
  (Nat.le_mul_of_pos_left _ f.kind.bytes_pos).trans_lt h

/-- A frame that shows items of a sound frame, not too many to list them, is sound. -/
theorem Sound.of_shows {φ : Position → Position} (h : f.Sound length)
    (hshows : f'.geometry.Shows f.geometry φ)
    (hlist : f'.kind.bytes * (f'.size * f'.itemSize) < half) : f'.Sound length where
  inside := h.inside.of_shows hshows (size_lt_of_listable hlist)
  listable := hlist

theorem Sound.of_shows_le {φ : Position → Position} (h : f.Sound length)
    (hshows : f'.geometry.Shows f.geometry φ) (hkind : f'.kind = f.kind)
    (hsize : f'.size ≤ f.size) : f'.Sound length := by
  refine h.of_shows hshows ?_
  have hitem : f'.itemSize = f.itemSize := hshows.itemSize_eq
  rw [hkind, hitem]
  exact (Nat.mul_le_mul_left _ (Nat.mul_le_mul_right _ hsize)).trans_lt h.listable

theorem Sound.view (h : f.Sound length) : f.view.Sound length :=
  ⟨by rw [geometry_view]; exact h.inside, h.listable⟩

/-! ### Packed frames -/

private theorem place_packed (hn : 0 < n) (hsize : s.size * n < half) {p : Position}
    (hp : s.contains p) : (packed k name s n).geometry.place p = (s.ravel p * n : Nat) := by
  simp [Geometry.place, geometry, packed, strides, Layout.strides, offset_strides hn hp hsize]

theorem sound_packed (hn : 0 < n)
    (hlist : k.bytes * (s.size * n) < half) : (packed k name s n).Sound (s.size * n) := by
  have hsize : s.size * n < half := size_lt_of_listable (f := packed k name s n) hlist
  refine ⟨⟨hn, by simp [geometry, packed, strides, Layout.strides], fun p hp => ?_, hsize, hsize⟩,
    hlist⟩
  have hle : (s.ravel p + 1) * n ≤ s.size * n := Nat.mul_le_mul_right n (ravel_lt hp)
  rw [place_packed hn hsize hp]
  simp only [geometry, packed]
  rw [Nat.add_mul] at hle
  omega

theorem separate_packed (hn : 0 < n)
    (hlist : k.bytes * (s.size * n) < half) : (packed k name s n).geometry.Separate := by
  have hsize : s.size * n < half := size_lt_of_listable (f := packed k name s n) hlist
  have hlt {i j : Nat} (hij : i < j) : i * n + n ≤ j * n := by
    rw [← Nat.succ_mul]
    exact Nat.mul_le_mul_right n hij
  intro p q hp hq hpq
  have hne : s.ravel p ≠ s.ravel q := fun h => hpq (ravel_inj hp hq h)
  rw [place_packed hn hsize hp, place_packed hn hsize hq]
  rcases Nat.lt_or_gt_of_ne hne with h | h
  · exact .inl (by exact_mod_cast hlt h)
  · exact .inr (by exact_mod_cast hlt h)

/-! ### Regions -/

@[simp] theorem checkRegion_eq_ok {u : Unit} : f.checkRegion r = .ok u ↔ r.source = f.shape := by
  unfold checkRegion
  split <;> simp_all

theorem slice_eq_ok (h : f.slice r = .ok f') : r.source = f.shape ∧
    f'.geometry = f.geometry.slice r ∧ f'.kind = f.kind ∧ f'.name = f.name ++ r.text := by
  simp only [slice, bind_eq_ok, checkRegion_eq_ok, pure_eq_ok] at h
  obtain ⟨-, hsource, rfl⟩ := h
  exact ⟨hsource, geometry_withGeometry .., rfl, rfl⟩

theorem exists_slice (hsource : r.source = f.shape) : ∃ frame, f.slice r = .ok frame := by
  simp only [slice, bind_eq_ok, checkRegion_eq_ok]
  exact ⟨_, (), hsource, rfl⟩

theorem slice_shows (h : f.Sound length) (hr : r.Valid) (hf : f.slice r = .ok f') :
    f'.geometry.Shows f.geometry r.sourcePosition := by
  obtain ⟨hsource, hgeometry, -, -⟩ := slice_eq_ok hf
  rw [hgeometry]
  exact h.inside.shows_slice hr hsource

theorem Sound.slice (h : f.Sound length) (hr : r.Valid) (hf : f.slice r = .ok f') :
    f'.Sound length := by
  obtain ⟨hsource, hgeometry, hkind, -⟩ := slice_eq_ok hf
  refine h.of_shows_le (slice_shows h hr hf) hkind ?_
  have hshape : f'.shape = r.shape := congrArg Geometry.shape hgeometry
  rw [size, hshape, size, ← hsource]
  exact hr.size_le

/-! ### Other orders of the axes -/

theorem permuted_shows {perm : List Nat} (h : f.Sound length) (hperm : Orders perm f.rank) :
    (f.permuted perm).geometry.Shows f.geometry fun q => apply (inverse perm) q := by
  have hstrides : f.strides.length = f.shape.length := h.inside.length_strides
  have hperm' : Orders perm f.strides.length := hstrides ▸ hperm
  rw [permuted, geometry_withGeometry]
  refine ⟨rfl, ?_, fun q hq => contains_apply_inverse hperm hq, fun q hq => ?_⟩
  · rw [length_apply fun a ha => hperm'.mem_iff.mp ha, length_apply fun a ha => hperm.mem_iff.mp ha]
  · have hlength : q.length = f.shape.length := by
      rw [length_of_contains hq, length_apply fun a ha => hperm.mem_iff.mp ha]
      exact hperm.length_eq
    have hinverse : (apply (inverse perm) q).length = f.strides.length := by
      have := length_of_contains (contains_apply_inverse hperm hq)
      rw [this, hstrides]
    have hoffset := Strides.offset_apply hperm' hinverse.symm
    rw [apply_apply_inverse (by rwa [hlength])] at hoffset
    simp only [Geometry.place, geometry, hoffset]

theorem Sound.permuted {perm : List Nat} (h : f.Sound length)
    (hperm : Orders perm f.rank) : (f.permuted perm).Sound length :=
  h.of_shows_le (permuted_shows h hperm) rfl (size_apply hperm).le

/-! ### Other shapes -/

/-- A frame under another shape shows the items in their row-major order. -/
theorem regrouped_shows (h : f.Sound length)
    (hmap : Regrouping.of f.shape s = .ok map) (hf : f.regrouped? map = some f') :
    f'.geometry.Shows f.geometry fun q => unravel (s.ravel q) f.shape := by
  obtain ⟨hsize, -, htarget, -⟩ := Regrouping.of_eq_ok hmap
  have hlt : f.shape.size * f.itemSize < half := h.inside.size_lt
  have hcontains : ∀ q, s.contains q → f.shape.contains (unravel (s.ravel q) f.shape) := fun q hq =>
    contains_unravel (hsize ▸ size_pos_of_contains hq) _
  have hravel : ∀ q, s.contains q →
      f.shape.ravel (unravel (s.ravel q) f.shape) = s.ravel q := fun q hq =>
    ravel_unravel (hsize ▸ ravel_lt hq)
  unfold regrouped? at hf
  split at hf
  · rename_i hdense
    simp only [Option.some.injEq, htarget] at hf
    have hstrides : f.strides = f.shape.strides f.itemSize := by
      unfold strides
      cases hlayout : f.layout with
      | dense => rfl
      | strided ts => simp [hlayout, Layout.isDense] at hdense
    subst hf
    rw [geometry_withGeometry]
    refine ⟨rfl, length_strides .., hcontains, fun q hq => ?_⟩
    have hpos : 0 < f.itemSize := h.inside.itemSize_pos
    have hnew : (s.strides f.itemSize).offset q = (s.ravel q * f.itemSize : Nat) :=
      offset_strides hpos hq (hsize ▸ hlt)
    simp only [Geometry.place, geometry, hstrides]
    rw [hnew, offset_strides hpos (hcontains q hq) hlt, hravel q hq]
  · simp only [Option.map_eq_some_iff, htarget] at hf
    obtain ⟨us, hus, rfl⟩ := hf
    have hwalk := Regrouping.sameWalk_of_unitStrides hmap hus h.inside.length_strides
    rw [geometry_withGeometry]
    refine ⟨rfl, hwalk.length_eq, hcontains, fun q hq => ?_⟩
    obtain ⟨p, hp, hpq, hoffset⟩ := hwalk.offset_eq q hq
    rw [← hpq, unravel_ravel hp]
    simp only [Geometry.place, geometry, hoffset]

theorem regrouped_eq_some (hf : f.regrouped? map = some f') :
    f'.shape = map.target ∧ f'.kind = f.kind ∧ f'.itemSize = f.itemSize := by
  unfold regrouped? at hf
  split at hf
  · obtain rfl := Option.some.inj hf
    exact ⟨rfl, rfl, rfl⟩
  · simp only [Option.map_eq_some_iff] at hf
    obtain ⟨us, -, rfl⟩ := hf
    exact ⟨rfl, rfl, rfl⟩

theorem Sound.regrouped (h : f.Sound length) (hmap : Regrouping.of f.shape s = .ok map)
    (hf : f.regrouped? map = some f') : f'.Sound length := by
  obtain ⟨hsize, -, htarget, -⟩ := Regrouping.of_eq_ok hmap
  obtain ⟨hshape, hkind, -⟩ := regrouped_eq_some hf
  refine h.of_shows_le (regrouped_shows h hmap hf) hkind ?_
  rw [size, hshape, htarget, ← hsize]
  exact le_rfl

/-! ### Repeated items -/

theorem broadcast_eq_ok (h : f.broadcast s = .ok f') : ∃ ts,
    broadcastStrides f.shape f.strides s = .ok ts ∧ s.size * f.itemSize ≤ maxElements ∧
      f' = f.withGeometry s f.offset ts := by
  simp only [broadcast, bind_eq_ok] at h
  obtain ⟨n, hcount, joined, -, h⟩ := h
  split at h
  · simp at h
  · simp only [bind_eq_ok, pure_eq_ok] at h
    obtain ⟨ts, hts, rfl⟩ := h
    obtain ⟨rfl, hmax⟩ := elementCount_eq_ok hcount
    exact ⟨ts, hts, hmax, rfl⟩

theorem broadcast_shows (h : f.Sound length) (hf : f.broadcast s = .ok f') :
    f'.geometry.Shows f.geometry f.shape.project := by
  obtain ⟨ts, hts, -, rfl⟩ := broadcast_eq_ok hf
  obtain ⟨hlength, hshow⟩ := broadcastStrides_eq_ok hts h.inside.length_strides
  rw [geometry_withGeometry]
  refine ⟨rfl, hlength, fun q hq => (hshow q hq).1, fun q hq => ?_⟩
  simp only [Geometry.place, geometry, (hshow q hq).2]

theorem Sound.broadcast (h : f.Sound length) (hf : f.broadcast s = .ok f') : f'.Sound length := by
  refine h.of_shows (broadcast_shows h hf) ?_
  obtain ⟨ts, -, hmax, rfl⟩ := broadcast_eq_ok hf
  exact bytes_mul_lt hmax

end Frame

end Hyperslab
