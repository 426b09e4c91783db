import Hyperslab.Proofs.Position
import Mathlib.Algebra.BigOperators.Group.List.Basic
import Mathlib.Data.List.Perm.Subperm

/-!
# Orders of axes

A list `Orders` a rank when it names every axis below it once. Such an order is undone by its
inverse, orders compose, and reordering the axes of a shape together with the coordinates of a
position changes neither whether the position lies in the shape nor how far strides displace it.
-/
namespace Hyperslab.Permutation

open List Permutation

variable {perm : List Nat} {rank : Nat}

variable {α β γ : Type}

/-- The list names every axis below `rank` once. -/
def Orders (perm : List Nat) (rank : Nat) : Prop := perm.Perm (List.range rank)

namespace Orders

variable {perm : List Nat} {rank : Nat}

theorem length_eq (h : Orders perm rank) : perm.length = rank := by
  simpa using Perm.length_eq h

theorem mem_iff (h : Orders perm rank) {a : Nat} : a ∈ perm ↔ a < rank := by
  rw [Perm.mem_iff h, mem_range]

theorem nodup (h : Orders perm rank) : perm.Nodup := (Perm.nodup_iff h).mpr nodup_range

end Orders

theorem orders_range (rank : Nat) : Orders (range rank) rank := Perm.refl _

/-- Distinct names below the rank, as many as there are axes, leave none out. -/
theorem orders_of_nodup (hnodup : perm.Nodup)
    (hlt : ∀ a ∈ perm, a < rank) (hlength : perm.length = rank) : Orders perm rank := by
  have hsub : Subperm perm (range rank) := Nodup.subperm hnodup fun a ha => mem_range.mpr (hlt a ha)
  exact hsub.perm_of_length_le (by simp [hlength])

/-! ## Reordering a list -/

theorem length_apply {l : List α} (h : ∀ a ∈ perm, a < l.length) :
    (apply perm l).length = perm.length := by
  induction perm with
  | nil => rfl
  | cons a perm ih =>
    have ha : a < l.length := h a mem_cons_self
    have ih := ih fun b hb => h b (mem_cons_of_mem _ hb)
    simp only [apply] at ih
    simp [apply, getElem?_eq_getElem ha, ih]

theorem getElem?_apply {l : List α} (h : ∀ a ∈ perm, a < l.length) (i : Nat) :
    (apply perm l)[i]? = perm[i]?.bind (l[·]?) := by
  induction perm generalizing i with
  | nil => rfl
  | cons a perm ih =>
    have ha : a < l.length := h a mem_cons_self
    have ih := ih fun b hb => h b (mem_cons_of_mem _ hb)
    simp only [apply] at ih
    cases i with
    | zero => simp [apply, getElem?_eq_getElem ha]
    | succ i => simp [apply, getElem?_eq_getElem ha, ih]

theorem apply_map (perm : List Nat) (f : α → β) (l : List α) :
    apply perm (l.map f) = (apply perm l).map f := by
  simp only [apply, map_filterMap, getElem?_map]

theorem apply_zipWith (f : α → β → γ) {a : List α} {b : List β}
    (hlength : a.length = b.length) (h : ∀ i ∈ perm, i < a.length) :
    apply perm (zipWith f a b) = zipWith f (apply perm a) (apply perm b) := by
  have hb : ∀ i ∈ perm, i < b.length := fun i hi => hlength ▸ h i hi
  have hz : ∀ i ∈ perm, i < (zipWith f a b).length := by simpa [← hlength] using h
  refine ext_getElem? fun i => ?_
  rw [getElem?_apply hz, getElem?_zipWith, getElem?_apply h, getElem?_apply hb]
  cases hi : perm[i]? with
  | none => rfl
  | some k => simp only [Option.bind_some, getElem?_zipWith]

theorem apply_apply {p q : List Nat} {l : List α} (hp : ∀ a ∈ p, a < q.length)
    (hq : ∀ a ∈ q, a < l.length) : apply p (apply q l) = apply (apply p q) l := by
  have hpq : ∀ a ∈ p, a < (apply q l).length := by rwa [length_apply hq]
  have hmem : ∀ a ∈ apply p q, a < l.length := by
    intro a ha
    obtain ⟨i, -, hi⟩ := mem_filterMap.mp ha
    exact hq a (mem_of_getElem? hi)
  refine ext_getElem? fun i => ?_
  rw [getElem?_apply hpq, getElem?_apply hmem, getElem?_apply hp]
  cases hi : p[i]? with
  | none => rfl
  | some k => simp only [Option.bind_some, getElem?_apply hq]

@[simp] theorem apply_range (l : List α) : apply (range l.length) l = l := by
  refine ext_getElem? fun i => ?_
  rw [getElem?_apply fun a ha => mem_range.mp ha]
  rcases Nat.lt_or_ge i l.length with hi | hi
  · simp [hi]
  · simp [hi]

theorem apply_perm {l : List α} (h : Orders perm l.length) : (apply perm l).Perm l := by
  have := Perm.filterMap (l[·]?) h
  have hrange : (range l.length).filterMap (l[·]?) = l := apply_range l
  rwa [hrange] at this

theorem orders_apply {p q : List Nat} (hp : Orders p rank) (hq : Orders q rank) :
    Orders (apply p q) rank :=
  Perm.trans (apply_perm (hq.length_eq ▸ hp)) hq

/-! ## The inverse order -/

theorem length_inverse (perm : List Nat) : (inverse perm).length = perm.length := by
  simp [inverse]

section

variable (h : Orders perm rank)
include h

theorem inverse_lt : ∀ a ∈ inverse perm, a < rank := by
  intro a ha
  obtain ⟨k, hk, rfl⟩ := mem_map.mp ha
  have hk : k ∈ perm := h.mem_iff.mpr (by rw [← h.length_eq]; exact mem_range.mp hk)
  have := idxOf_lt_length_of_mem hk
  rwa [h.length_eq] at this

theorem apply_inverse_self : apply (inverse perm) perm = range rank := by
  refine ext_getElem? fun k => ?_
  rw [getElem?_apply fun a ha => h.length_eq ▸ inverse_lt h a ha]
  rcases Nat.lt_or_ge k rank with hk | hk
  · have hmem : k ∈ perm := h.mem_iff.mpr hk
    have hlt := idxOf_lt_length_of_mem hmem
    simp [inverse, h.length_eq, hk, getElem?_eq_getElem hlt]
  · simp [inverse, h.length_eq, hk]

theorem apply_self_inverse : apply perm (inverse perm) = range rank := by
  refine ext_getElem? fun i => ?_
  rw [getElem?_apply fun a ha => by
    rw [length_inverse, h.length_eq]; exact h.mem_iff.mp ha]
  rcases Nat.lt_or_ge i rank with hi | hi
  · have hi' : i < perm.length := h.length_eq ▸ hi
    have hk : perm[i] < perm.length := h.length_eq ▸ h.mem_iff.mp (getElem_mem hi')
    simp [inverse, hi, getElem?_eq_getElem hi', hk, h.nodup.idxOf_getElem i hi']
  · simp [hi, h.length_eq]

theorem orders_inverse : Orders (inverse perm) rank := by
  refine orders_of_nodup ?_ (inverse_lt h) (by rw [length_inverse, h.length_eq])
  refine Nodup.map_on ?_ nodup_range
  intro i hi j hj hij
  have hi : i ∈ perm := h.mem_iff.mpr (h.length_eq ▸ mem_range.mp hi)
  exact (idxOf_inj hi).mp hij

end

@[simp] theorem apply_inverse_apply {l : List α} (h : Orders perm l.length) :
    apply (inverse perm) (apply perm l) = l := by
  rw [apply_apply (fun a ha => h.length_eq ▸ inverse_lt h a ha) fun a ha => h.mem_iff.mp ha,
    apply_inverse_self h, apply_range]

@[simp] theorem apply_apply_inverse {l : List α} (h : Orders perm l.length) :
    apply perm (apply (inverse perm) l) = l := by
  rw [apply_apply (fun a ha => by rw [length_inverse, h.length_eq]; exact h.mem_iff.mp ha)
    (inverse_lt h), apply_self_inverse h, apply_range]

end Hyperslab.Permutation

namespace Hyperslab

open Permutation

/-! ## Reordering shapes, positions and strides -/

namespace Shape

variable {s : Shape} {perm : List Nat}

theorem contains_iff_zip {p : Position} :
    s.contains p ↔ p.length = s.length ∧ ∀ x ∈ List.zipWith Prod.mk p s, x.1 < x.2 := by
  rw [contains_iff_forall₂, List.forall₂_iff_zip]
  refine and_congr_right fun _ => ⟨fun h x hx => h hx, fun h a b hab => h (a, b) hab⟩

theorem size_apply (h : Orders perm s.length) : size (apply perm s) = s.size := by
  rw [size_eq_prod, size_eq_prod]
  exact List.Perm.prod_eq (apply_perm h)

theorem contains_apply {p : Position} (h : Permutation.Orders perm s.length) (hp : s.contains p) :
    contains (Permutation.apply perm s) (Permutation.apply perm p) := by
  have hlength := length_of_contains hp
  have hs : ∀ a ∈ perm, a < s.length := fun a ha => h.mem_iff.mp ha
  have hp' : ∀ a ∈ perm, a < p.length := fun a ha => hlength ▸ hs a ha
  obtain ⟨-, hlt⟩ := contains_iff_zip.mp hp
  rw [contains_iff_zip, length_apply hs, length_apply hp', ← apply_zipWith _ hlength hp']
  refine ⟨rfl, fun x hx => hlt x ?_⟩
  obtain ⟨i, -, hi⟩ := List.mem_filterMap.mp hx
  exact List.mem_of_getElem? hi

theorem contains_apply_inverse {q : Position} (h : Orders perm s.length)
    (hq : contains (apply perm s) q) : s.contains (apply (inverse perm) q) := by
  have hlength : (apply perm s).length = s.length := by
    rw [length_apply fun a ha => h.mem_iff.mp ha, h.length_eq]
  have := contains_apply (hlength ▸ orders_inverse h) hq
  rwa [apply_inverse_apply h] at this

end Shape

namespace Strides

theorem offset_eq_sum (ts : Strides) (p : Position) :
    ts.offset p = (List.zipWith (fun t (i : Nat) => (i : Int) * t) ts p).sum := by
  induction ts generalizing p with
  | nil => cases p <;> simp [offset]
  | cons t ts ih => cases p <;> simp [ih]

theorem offset_apply {perm : List Nat} {ts : Strides} {p : Position}
    (h : Permutation.Orders perm ts.length) (hlength : ts.length = p.length) :
    offset (Permutation.apply perm ts) (Permutation.apply perm p) = ts.offset p := by
  rw [offset_eq_sum, offset_eq_sum, ← apply_zipWith _ hlength fun a ha => h.mem_iff.mp ha]
  refine List.Perm.sum_eq (apply_perm ?_)
  simpa [← hlength] using h

end Strides

/-! ## Orders that axis names stand for -/

namespace Permutation

variable {rank : Nat} {perm : List Nat}

theorem normalizeAxis_lt {axis : Int} {a : Nat}
    (h : Shape.normalizeAxis axis rank = .ok a) : a < rank :=
  (Shape.normalizeAxis_eq_ok_iff.mp h).2

theorem normalizeAxis_natCast {a : Nat} (ha : a < rank) :
    Shape.normalizeAxis (a : Int) rank = .ok a := by
  have hneg : ¬ (a : Int) < 0 := by omega
  have hinside : ¬ ((a : Int) < 0 ∨ (rank : Int) ≤ a) := by omega
  simp only [Shape.normalizeAxis, if_neg hneg, if_neg hinside, Int.toNat_natCast]

theorem mapM_normalizeAxis {axes : List Int}
    (h : axes.mapM (Shape.normalizeAxis · rank) = .ok perm) :
    perm.length = axes.length ∧ ∀ a ∈ perm, a < rank := by
  induction axes generalizing perm with
  | nil => simp_all [pure, Except.pure]
  | cons axis axes ih =>
    rw [List.mapM_cons] at h
    cases ha : Shape.normalizeAxis axis rank with
    | error e => simp [ha, bind, Except.bind] at h
    | ok a =>
      cases hrest : axes.mapM (Shape.normalizeAxis · rank) with
      | error e => simp [ha, hrest, bind, Except.bind] at h
      | ok rest =>
        simp only [ha, hrest, bind, Except.bind, pure, Except.pure, Except.ok.injEq] at h
        obtain ⟨hlength, hlt⟩ := ih hrest
        subst h
        refine ⟨by simp [hlength], ?_⟩
        simpa using ⟨normalizeAxis_lt ha, hlt⟩

theorem orders_of_ofAxes {axes : List Int}
    (h : ofAxes rank axes = .ok perm) : Orders perm rank := by
  unfold ofAxes at h
  split at h
  · simp only [Except.ok.injEq] at h
    exact h ▸ List.reverse_perm _
  split at h
  · simp at h
  split at h
  · rename_i names hnames
    obtain ⟨hnames, hlt⟩ := mapM_normalizeAxis hnames
    split at h
    · rename_i hnodup
      simp only [Except.ok.injEq] at h
      subst h
      exact orders_of_nodup hnodup hlt (by omega)
    · simp at h
  · simp at h

theorem isIdentity_iff : isIdentity perm ↔ perm = List.range perm.length := by
  simp [isIdentity]

theorem inverse_range (n : Nat) : inverse (List.range n) = List.range n := by
  have hlength : (inverse (List.range n)).length = n := by simp [length_inverse]
  calc inverse (List.range n) = apply (List.range n) (inverse (List.range n)) := by
        have := apply_range (inverse (List.range n))
        rw [hlength] at this
        exact this.symm
    _ = List.range n := apply_self_inverse (orders_range n)

theorem apply_inverse_range {α : Type} {l : List α} {n : Nat} (h : l.length = n) :
    apply (inverse (List.range n)) l = l := by
  rw [inverse_range, ← h, apply_range]

theorem apply_range_right {n : Nat} (h : ∀ a ∈ perm, a < n) : apply perm (List.range n) = perm := by
  induction perm with
  | nil => rfl
  | cons a perm ih =>
    have ha : a < n := h a List.mem_cons_self
    have := ih fun b hb => h b (List.mem_cons_of_mem _ hb)
    simp only [apply] at this ⊢
    simp [ha, this]

theorem apply_inverse_comp {p q : List Nat} {α : Type} {l : List α} (hp : Orders p l.length)
    (hq : Orders q l.length) :
    apply (inverse (apply p q)) l = apply (inverse q) (apply (inverse p) l) := by
  have hp' : (apply (inverse p) l).length = l.length := by
    rw [length_apply (inverse_lt hp), length_inverse, hp.length_eq]
  have hq' : (apply (inverse q) (apply (inverse p) l)).length = l.length := by
    rw [length_apply fun a ha => hp' ▸ inverse_lt hq a ha, length_inverse, hq.length_eq]
  have hforth : apply (apply p q) (apply (inverse q) (apply (inverse p) l)) = l := by
    rw [← apply_apply (fun a ha => hq.length_eq ▸ hp.mem_iff.mp ha)
        (fun a ha => hq' ▸ hq.mem_iff.mp ha),
      apply_apply_inverse (hp' ▸ hq), apply_apply_inverse hp]
  have horders : Orders (apply p q) (apply (inverse q) (apply (inverse p) l)).length :=
    hq' ▸ orders_apply hp hq
  rw [← apply_inverse_apply horders, hforth]

theorem ofAxes_map_ofNat (h : Orders perm rank) : ofAxes rank (perm.map Int.ofNat) = .ok perm := by
  have hmap : (perm.map Int.ofNat).mapM (Shape.normalizeAxis · rank) = .ok perm := by
    have hlt : ∀ a ∈ perm, a < rank := fun a ha => h.mem_iff.mp ha
    clear h
    induction perm with
    | nil => rfl
    | cons a perm ih =>
      have ha : Shape.normalizeAxis (Int.ofNat a) rank = .ok a :=
        normalizeAxis_natCast (hlt a List.mem_cons_self)
      rw [List.map_cons, List.mapM_cons, ha, ih fun b hb => hlt b (List.mem_cons_of_mem _ hb)]
      rfl
  unfold ofAxes
  split
  · rename_i hempty
    obtain rfl : perm = [] := by simpa using hempty
    have : rank = 0 := by simpa using h.length_eq.symm
    simp [this]
  · rw [if_neg (by simp [h.length_eq]), hmap]
    simp [h.nodup]

end Permutation

end Hyperslab
