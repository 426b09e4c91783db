import Hyperslab.Proofs.FieldsFit

/-!
# Data and what is attached to it

What is attached to a dataset follows it, and an operation that it cannot follow fails. Apart from
that it has no part in what the operation does to the data.
-/
namespace Hyperslab

open List Region

/-! ## Attached errors -/

namespace Metadata

variable {e : Field} {s : Shape}

/-- Errors and nothing else. -/
def ofErrors (e : Field) : Metadata := ⟨[e], [], [], [], []⟩

theorem onSlice_errors (e : Field) (r : Region) (asView : Bool) :
    (ofErrors e).onSlice r asView = (e.dense.followSlice r asView).map ofErrors := by
  simp only [onSlice, copy, ofErrors, map_cons, map_nil, mapM_cons, mapM_nil]
  cases e.dense.followSlice r asView with
  | error err => rfl
  | ok g => rfl

/-- Errors that fit a shape and can be set aside follow to a copy of all of it. -/
theorem exists_onSlice_errors (he : e.Attachable s) :
    ∃ m, (ofErrors e).onSlice (full s) false = .ok m := by
  obtain ⟨g, hg⟩ := he.dense.exists_followSlice (r := full s) (valid_full s) (forward_full s)
  rw [onSlice_errors, hg]
  exact ⟨_, rfl⟩

/-- Errors do not follow where there are several of them along an axis that is longer. -/
theorem onSlice_errors_eq_error (hle : Forall₂ (fun d n => d ≤ n ∨ d = 1) e.shape s)
    (hfits : ¬ e.shape.Fits s) :
    (ofErrors e).onSlice (full s) false = .error (.incompatibleShapes e.shape s) := by
  rw [onSlice_errors, Field.followSlice_eq_error (f := e.dense) (valid_full s) hle hfits]
  rfl

theorem onReshape_errors (e : Field) (map : Regrouping) :
    (ofErrors e).onReshape map = (e.dense.followReshape map).map ofErrors := by
  simp only [onReshape, copy, ofErrors, map_cons, map_nil, mapM_cons, mapM_nil]
  cases e.dense.followReshape map with
  | error err => rfl
  | ok g => rfl

end Metadata

/-! ## Data without what is attached to it -/

namespace Dataset

/-- The dataset with nothing attached. -/
def bare (d : Block) : Block := { d with metadata := .empty }

variable {d b : Block}

theorem slice_bare {r : Region} (h : d.slice r = .ok b) : d.bare.slice r = .ok b.bare := by
  simp only [slice, bind_eq_ok, pure_eq_ok] at h ⊢
  obtain ⟨f, hf, m, -, rfl⟩ := h
  exact ⟨f, hf, .empty, rfl, rfl⟩

theorem transposed_bare {axes : List Int} (h : d.transposed axes = .ok b) :
    d.bare.transposed axes = .ok b.bare := by
  simp only [transposed, bind_eq_ok] at h ⊢
  obtain ⟨perm, hperm, h⟩ := h
  refine ⟨perm, hperm, ?_⟩
  by_cases hid : Permutation.isIdentity perm
  · rw [if_pos hid, pure_eq_ok] at h
    rw [if_pos hid, ← h]
    rfl
  · simp only [if_neg hid, bind_eq_ok, pure_eq_ok] at h ⊢
    obtain ⟨u, hu, m, -, rfl⟩ := h
    exact ⟨u, hu, .empty, rfl, rfl⟩

theorem reshape_bare {s : Shape} (h : d.reshape s = .ok b) : d.bare.reshape s = .ok b.bare ∧
    ∃ map, Regrouping.of d.shape s = .ok map ∧ d.metadata.onReshape map = .ok b.metadata := by
  simp only [reshape, bind_eq_ok] at h
  obtain ⟨map, hmap, u, hfault, h⟩ := h
  have hregroup : d.bare.regrouped? map = d.regrouped? map := rfl
  simp only [reshape, bind_eq_ok]
  cases hframe : d.regrouped? map with
  | some frame =>
    simp only [hframe, bind_eq_ok, pure_eq_ok] at h
    obtain ⟨m, hm, rfl⟩ := h
    refine ⟨⟨map, hmap, u, hfault, ?_⟩, map, hmap, hm⟩
    simp only [hregroup, hframe]
    rfl
  | none =>
    simp only [hframe, bind_eq_ok, pure_eq_ok] at h
    obtain ⟨v, hread, m, hm, rfl⟩ := h
    refine ⟨⟨map, hmap, u, hfault, ?_⟩, map, hmap, hm⟩
    simp only [hregroup, hframe, bind_eq_ok]
    exact ⟨v, hread, .empty, rfl, rfl⟩

theorem shape_reshape {s : Shape} (h : d.reshape s = .ok b) : b.shape = s := by
  simp only [reshape, bind_eq_ok] at h
  obtain ⟨map, hmap, -, -, h⟩ := h
  cases hframe : d.regrouped? map with
  | some frame =>
    simp only [hframe, bind_eq_ok, pure_eq_ok] at h
    obtain ⟨m, -, rfl⟩ := h
    exact (Frame.regrouped_eq_some hframe).1.trans (Regrouping.of_eq_ok hmap).2.2.1
  | none =>
    simp only [hframe, bind_eq_ok, pure_eq_ok] at h
    obtain ⟨-, -, m, -, rfl⟩ := h
    rfl

/-- Data that can be reshaped is if what is attached follows, and fails with it if it does not. -/
theorem reshape_of_bare {s : Shape} {map : Regrouping} (h : d.bare.reshape s = .ok b)
    (hmap : Regrouping.of d.shape s = .ok map) :
    d.reshape s = (d.metadata.onReshape map).map fun m => { b with metadata := m } := by
  simp only [reshape, bind_eq_ok] at h
  obtain ⟨map', hmap', ⟨⟩, hfault, h⟩ := h
  cases hmap.symm.trans hmap'
  have hfault : Fault.check (d.regroupFault? map) = .ok () := hfault
  have hregroup : d.bare.regrouped? map = d.regrouped? map := rfl
  simp only [reshape, hmap, hfault, bind, Except.bind]
  cases hframe : d.regrouped? map with
  | some frame =>
    simp only [hregroup, hframe, bind_eq_ok, pure_eq_ok] at h
    obtain ⟨m, -, rfl⟩ := h
    cases d.metadata.onReshape map <;> rfl
  | none =>
    simp only [hregroup, hframe, bind_eq_ok, pure_eq_ok] at h
    obtain ⟨⟨⟩, hread, m, -, rfl⟩ := h
    have hread : d.checkRead = .ok () := hread
    simp only [hread]
    cases d.metadata.onReshape map <;> rfl

end Dataset

end Hyperslab
