import Hyperslab.Error
import Mathlib.Data.List.Forall2

/-!
# Outcomes of steps that may be refused

A sequence of steps went through when each of them did. These lemmas take such a sequence apart,
and carry a property along a loop whose every step keeps it.
-/
namespace Hyperslab

open List

variable {ε α β : Type}

theorem ok_bind (a : α) (f : α → Except ε β) : Except.ok a >>= f = f a := rfl

@[simp] theorem bind_eq_ok {x : Except ε α} {f : α → Except ε β} {b : β} :
    x >>= f = .ok b ↔ ∃ a, x = .ok a ∧ f a = .ok b := by
  cases x <;> simp [bind, Except.bind]

theorem bind_congr_ok {x : Except ε α} {f g : α → Except ε β}
    (h : ∀ a, x = .ok a → f a = g a) : x >>= f = x >>= g := by
  cases x with
  | error e => rfl
  | ok a => exact h a rfl

@[simp] theorem pure_eq_ok {a b : α} : (pure a : Except ε α) = .ok b ↔ a = b := by
  simp [pure, Except.pure]

@[simp] theorem check_eq_ok {f : Option Fault} {u : Unit} : Fault.check f = .ok u ↔ f = none := by
  cases f <;> simp [Fault.check]

theorem foldlM_induction {P : β → Prop} {f : β → α → Except ε β} {l : List α} {b b' : β}
    (hstep : ∀ b, ∀ a ∈ l, ∀ b', P b → f b a = .ok b' → P b') (hb : P b)
    (h : l.foldlM f b = .ok b') : P b' := by
  induction l generalizing b with
  | nil =>
    simp only [foldlM_nil, pure_eq_ok] at h
    exact h ▸ hb
  | cons a l ih =>
    rw [foldlM_cons, bind_eq_ok] at h
    obtain ⟨c, hc, h⟩ := h
    exact ih (fun b a ha => hstep b a (mem_cons_of_mem _ ha)) (hstep b a mem_cons_self c hb hc) h

theorem mapM_eq_ok {f : α → Except ε β} {l : List α} {m : List β} :
    l.mapM f = .ok m ↔ Forall₂ (fun a b => f a = .ok b) l m := by
  induction l generalizing m with
  | nil =>
    rw [mapM_nil, pure_eq_ok, forall₂_nil_left_iff]
    exact eq_comm
  | cons a l ih =>
    simp only [mapM_cons, bind_eq_ok, pure_eq_ok, ih, forall₂_cons_left_iff]
    constructor
    · rintro ⟨b, hb, m, hm, rfl⟩
      exact ⟨b, m, hb, hm, rfl⟩
    · rintro ⟨b, m, hb, hm, rfl⟩
      exact ⟨b, hb, m, hm, rfl⟩

/-- Steps whose results are known give all of them, if each step goes through. -/
theorem mapM_eq_ok_iff_map {f : α → Except ε β} {P : α → Prop} {g : α → β} {l : List α}
    {m : List β} (h : ∀ a ∈ l, ∀ b, f a = .ok b ↔ P a ∧ b = g a) :
    l.mapM f = .ok m ↔ (∀ a ∈ l, P a) ∧ m = l.map g := by
  induction l generalizing m with
  | nil =>
    rw [mapM_nil, pure_eq_ok, map_nil, eq_comm]
    exact (and_iff_right fun _ h => absurd h not_mem_nil).symm
  | cons a l ih =>
    simp only [mapM_cons, bind_eq_ok, pure_eq_ok, h a mem_cons_self,
      ih fun a ha => h a (mem_cons_of_mem _ ha), forall_mem_cons, map_cons]
    constructor
    · rintro ⟨_, ⟨ha, rfl⟩, _, ⟨hl, rfl⟩, rfl⟩
      exact ⟨⟨ha, hl⟩, rfl⟩
    · rintro ⟨⟨ha, hl⟩, rfl⟩
      exact ⟨_, ⟨ha, rfl⟩, _, ⟨hl, rfl⟩, rfl⟩

theorem mapM_congr {f g : α → Except ε β} {l : List α} (h : ∀ a ∈ l, f a = g a) :
    l.mapM f = l.mapM g := by
  induction l with
  | nil => rfl
  | cons a l ih =>
    rw [mapM_cons, mapM_cons, h a mem_cons_self, ih fun a ha => h a (mem_cons_of_mem _ ha)]

/-- A list of steps that fail in one way only fails in that way if one of them does. -/
theorem mapM_eq_error {f : α → Except ε β} {l : List α} {e : ε}
    (h : ∀ a ∈ l, (∃ b, f a = .ok b) ∨ f a = .error e) (hfails : ∃ a ∈ l, f a = .error e) :
    l.mapM f = .error e := by
  induction l with
  | nil => simp at hfails
  | cons a l ih =>
    rw [mapM_cons]
    rcases h a mem_cons_self with ⟨b, hb⟩ | ha
    · have hrest : ∃ a ∈ l, f a = .error e := by
        obtain ⟨c, hc, hfc⟩ := hfails
        rcases mem_cons.mp hc with rfl | hc
        · rw [hb] at hfc
          cases hfc
        · exact ⟨c, hc, hfc⟩
      rw [hb, ih (fun a ha => h a (mem_cons_of_mem _ ha)) hrest]
      rfl
    · rw [ha]
      rfl

/-- What every entry of a list has a partner for, a list of partners has with it. -/
theorem exists_forall₂ {R : α → β → Prop} {l : List α} (h : ∀ a ∈ l, ∃ b, R a b) :
    ∃ m, Forall₂ R l m := by
  induction l with
  | nil => exact ⟨[], .nil⟩
  | cons a l ih =>
    obtain ⟨b, hb⟩ := h a mem_cons_self
    obtain ⟨m, hm⟩ := ih fun a ha => h a (mem_cons_of_mem _ ha)
    exact ⟨b :: m, .cons hb hm⟩

theorem rel_of_getElem? {R : α → β → Prop} {l : List α} {m : List β} (h : Forall₂ R l m) {i : Nat}
    {a : α} {b : β} (ha : l[i]? = some a) (hb : m[i]? = some b) : R a b := by
  obtain ⟨hi, rfl⟩ := List.getElem?_eq_some_iff.mp ha
  obtain ⟨hj, rfl⟩ := List.getElem?_eq_some_iff.mp hb
  exact (forall₂_iff_get.mp h).2 i hi hj

/-- Every entry of a list that agrees with another one has its partner there. -/
theorem exists_of_getElem? {R : α → β → Prop} {l : List α} {m : List β} (h : Forall₂ R l m)
    {i : Nat} {b : β} (hb : m[i]? = some b) : ∃ a, l[i]? = some a ∧ R a b := by
  have hi : i < l.length := h.length_eq ▸ (List.getElem?_eq_some_iff.mp hb).1
  exact ⟨l.get ⟨i, hi⟩, by simp, rel_of_getElem? h (by simp) hb⟩

/-! ## Steps on a state

A step on a state keeps what it did to the state when it is refused. -/

section State

variable {σ : Type}

/-- Goes on from the outcome of a step on a state. -/
def andThen (out : Except ε α × σ) (f : α → ExceptT ε (StateM σ) β) : Except ε β × σ :=
  match out with
  | (.ok a, s) => (f a).run s
  | (.error e, s) => (.error e, s)

@[simp] theorem andThen_ok (a : α) (s : σ) (f : α → ExceptT ε (StateM σ) β) :
    andThen (.ok a, s) f = (f a).run s := rfl

@[simp] theorem andThen_error (e : ε) (s : σ) (f : α → ExceptT ε (StateM σ) β) :
    andThen (.error e, s) f = (.error e, s) := rfl

@[simp] theorem run_bind (x : ExceptT ε (StateM σ) α) (f : α → ExceptT ε (StateM σ) β) (s : σ) :
    (x >>= f).run s = andThen (x.run s) f := by
  change (match x.run s with | (out, s') => (ExceptT.bindCont f out : StateM σ _) s') = _
  rcases x.run s with ⟨e | a, s'⟩ <;> rfl

@[simp] theorem run_pure (a : α) (s : σ) :
    (pure a : ExceptT ε (StateM σ) α).run s = (.ok a, s) := rfl

@[simp] theorem run_lift (x : Except ε α) (s : σ) :
    (liftM x : ExceptT ε (StateM σ) α).run s = (x, s) := rfl

@[simp] theorem run_get (s : σ) : (get : ExceptT ε (StateM σ) σ).run s = (.ok s, s) := rfl

@[simp] theorem run_set (s s' : σ) :
    (set s' : ExceptT ε (StateM σ) PUnit).run s = (.ok ⟨⟩, s') := rfl

@[simp] theorem run_modifyGet (f : σ → α × σ) (s : σ) :
    (modifyGet f : ExceptT ε (StateM σ) α).run s = (.ok (f s).1, (f s).2) := rfl

theorem run_bind_eq_ok {x : ExceptT ε (StateM σ) α} {f : α → ExceptT ε (StateM σ) β} {b : β}
    {s s' : σ} : (x >>= f).run s = (.ok b, s') ↔
      ∃ a s₁, x.run s = (.ok a, s₁) ∧ (f a).run s₁ = (.ok b, s') := by
  rw [run_bind]
  rcases x.run s with ⟨e | a, s₁⟩
  · constructor
    · rintro ⟨⟩
    · rintro ⟨_, _, ⟨⟩, -⟩
  · constructor
    · intro h
      exact ⟨a, s₁, rfl, h⟩
    · rintro ⟨_, _, ⟨⟩, h⟩
      exact h

theorem run_lift_eq_ok {x : Except ε α} {a : α} {s s' : σ} :
    (liftM x : ExceptT ε (StateM σ) α).run s = (.ok a, s') ↔ x = .ok a ∧ s = s' :=
  Prod.mk.injEq .. ▸ Iff.rfl

theorem run_pure_eq_ok {a b : α} {s s' : σ} :
    (pure a : ExceptT ε (StateM σ) α).run s = (.ok b, s') ↔ a = b ∧ s = s' := by
  rw [run_pure]
  constructor
  · rintro ⟨⟩
    exact ⟨rfl, rfl⟩
  · rintro ⟨rfl, rfl⟩
    rfl

end State

end Hyperslab
