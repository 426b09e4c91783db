import Hyperslab.Proofs.Frame

/-!
# Arrays that stand for a larger one

An array fits a host when each of its axes is that of the host or a unit axis, which stands for the
whole axis of the host. The position of the array that a position of the host is read at is found
axis by axis, by `project`. When the host gets another shape, its axes are regrouped: a field that
fits goes along if, in each group, it has all axes of the host or only unit axes.
-/
namespace Hyperslab

open List Permutation Shape

namespace Shape

variable {ts : Strides}

variable {s t host : Shape} {p q : Position} {n : Nat}

/-! ## Fitting a host -/

/-- Every axis is that of the host, or a unit axis. -/
def Fits (s host : Shape) : Prop := List.Forall₂ (fun d n => d = n ∨ d = 1) s host

theorem fits_refl (s : Shape) : s.Fits s := forall₂_same.mpr fun _ _ => .inl rfl

theorem project_eq_zipWith (h : q.length = s.length) :
    s.project q = zipWith (fun d i => if d = 1 then 0 else i) s q := by
  rw [project, h, Nat.sub_self, drop_zero]

@[simp] theorem project_nil : project [] [] = [] := rfl

theorem project_cons {d i : Nat} (h : q.length = s.length) :
    project (d :: s) (i :: q) = (if d = 1 then 0 else i) :: s.project q := by
  rw [project_eq_zipWith h, project_eq_zipWith (by simp [h]), zipWith_cons_cons]

theorem project_append (h : p.length = s.length) (h' : q.length = t.length) :
    (s ++ t).project (p ++ q) = s.project p ++ t.project q := by
  rw [project_eq_zipWith h, project_eq_zipWith h', project_eq_zipWith (by simp [h, h']),
    zipWith_append h.symm]

theorem project_self (h : s.contains q) : s.project q = q := by
  induction s generalizing q with
  | nil => rw [contains_nil.mp h, project_nil]
  | cons d s ih =>
    obtain ⟨i, q, rfl, hi, hq⟩ := exists_of_contains_cons h
    rw [project_cons (length_of_contains hq), ih hq]
    split
    · rw [show i = 0 by omega]
    · rfl

theorem Fits.contains_project (h : s.Fits host) (hq : host.contains q) :
    s.contains (s.project q) := by
  induction h generalizing q with
  | nil => rw [contains_nil.mp hq, project_nil, contains_nil]
  | @cons d n s host hd hs ih =>
    obtain ⟨i, q, rfl, hi, hq⟩ := exists_of_contains_cons hq
    have hlength : q.length = s.length := (length_of_contains hq).trans hs.length_eq.symm
    rw [project_cons hlength, contains_cons]
    refine ⟨?_, ih hq⟩
    split <;> omega

theorem Fits.apply {perm : List Nat} (h : s.Fits host) (hperm : Orders perm host.length) :
    Fits (apply perm s) (apply perm host) := by
  have hs : ∀ a ∈ perm, a < s.length := fun a ha => h.length_eq ▸ hperm.mem_iff.mp ha
  have hhost : ∀ a ∈ perm, a < host.length := fun a ha => hperm.mem_iff.mp ha
  rw [Fits, forall₂_iff_zip] at h ⊢
  refine ⟨by rw [length_apply hs, length_apply hhost], fun {d n} hdn => ?_⟩
  rw [zip, ← apply_zipWith _ h.1 hs] at hdn
  obtain ⟨i, -, hi⟩ := mem_filterMap.mp hdn
  exact h.2 (mem_of_getElem? hi)

/-- Reading in another order of axes is reading where the order leads back to. -/
theorem apply_inverse_project {perm : List Nat} (hperm : Orders perm s.length)
    (hq : q.length = s.length) :
    apply (inverse perm) (project (apply perm s) q) = s.project (apply (inverse perm) q) := by
  have hs : (apply perm s).length = s.length := by
    rw [length_apply fun a ha => hperm.mem_iff.mp ha, hperm.length_eq]
  have hinverse : ∀ a ∈ inverse perm, a < s.length := inverse_lt hperm
  have hq' : (apply (inverse perm) q).length = s.length := by
    rw [length_apply (hq ▸ hinverse), length_inverse, hperm.length_eq]
  rw [project_eq_zipWith (hq.trans hs.symm), project_eq_zipWith hq',
    apply_zipWith _ (hs.trans hq.symm) (hs ▸ hinverse),
    apply_inverse_apply hperm]

/-! ## Row-major numbers of joined shapes -/

theorem size_append (s t : Shape) : size (s ++ t) = s.size * t.size := by
  simp [size_eq_prod]

theorem ravel_append (h : p.length = s.length) :
    ravel (s ++ t) (p ++ q) = s.ravel p * t.size + t.ravel q := by
  induction s generalizing p with
  | nil =>
    rw [eq_nil_of_length_eq_zero h]
    simp
  | cons d s ih =>
    obtain ⟨i, p, rfl⟩ := exists_cons_of_length_eq_add_one h
    simp only [cons_append, ravel_cons, ih (by simpa using h), size_append]
    ring

theorem exists_of_contains_append (h : contains (s ++ t) q) :
    ∃ p r, q = p ++ r ∧ s.contains p ∧ t.contains r := by
  induction s generalizing q with
  | nil => exact ⟨[], q, rfl, rfl, h⟩
  | cons d s ih =>
    obtain ⟨i, q, rfl, hi, hq⟩ := exists_of_contains_cons h
    obtain ⟨p, r, rfl, hp, hr⟩ := ih hq
    exact ⟨i :: p, r, rfl, contains_cons.mpr ⟨hi, hp⟩, hr⟩

/-! ## Unit axes in front -/

section pad

variable {rank : Nat} (hs : s.length ≤ rank) (hq : q.length = rank)
include hs hq

theorem project_pad : (s.pad rank).project q = replicate (rank - s.length) 0 ++ s.project q := by
  have hlength : (q.drop (rank - s.length)).length = s.length := by
    rw [length_drop]
    omega
  have hproject : s.project (q.drop (rank - s.length)) = s.project q := by
    rw [project_eq_zipWith hlength, project, hq]
  have hones (p : Position) : project (replicate p.length 1) p = replicate p.length 0 := by
    rw [project_eq_zipWith (by simp)]
    induction p with
    | nil => rfl
    | cons i p ih => simp [replicate_succ, ih]
  have htake : (q.take (rank - s.length)).length = rank - s.length := by
    rw [length_take]
    omega
  have hfirst := hones (q.take (rank - s.length))
  rw [htake] at hfirst
  conv_lhs => rw [← take_append_drop (rank - s.length) q]
  rw [pad, project_append (by rw [htake, length_replicate]) hlength, hproject, hfirst]

theorem contains_project_pad (h : (s.pad rank).contains ((s.pad rank).project q)) :
    s.contains (s.project q) ∧
      (s.pad rank).ravel ((s.pad rank).project q) = s.ravel (s.project q) := by
  rw [project_pad hs hq] at h ⊢
  have hzero (n : Nat) : ravel (replicate n 1) (replicate n 0) = 0 := by
    induction n with
    | zero => rfl
    | succ n ih => simp [replicate_succ, ih]
  constructor
  · rw [contains_iff_forall₂] at h ⊢
    have hdrop := forall₂_drop (rank - s.length) h
    simpa [pad] using hdrop
  · rw [pad, ravel_append (by simp), hzero, zero_mul, zero_add]

end pad

/-! ## Joining shapes -/

theorem joinAxes_fits {a b : Shape} (hlength : a.length = b.length)
    (h : joinAxes a b = some t) : a.Fits t ∧ b.Fits t := by
  induction a generalizing b t with
  | nil =>
    obtain rfl : b = [] := eq_nil_of_length_eq_zero hlength.symm
    obtain rfl : t = [] := (Option.some.inj h).symm
    exact ⟨.nil, .nil⟩
  | cons x a ih =>
    obtain ⟨y, b, rfl⟩ := exists_cons_of_length_eq_add_one hlength.symm
    simp only [joinAxes, Option.bind_eq_bind, Option.bind_eq_some_iff, Option.pure_def,
      Option.some.injEq] at h
    obtain ⟨n, hn, rest, hrest, rfl⟩ := h
    obtain ⟨ha, hb⟩ := ih (by simpa using hlength) hrest
    have haxis : (x = n ∨ x = 1) ∧ (y = n ∨ y = 1) := by
      unfold joinAxis at hn
      split_ifs at hn <;> simp_all
    exact ⟨.cons haxis.1 ha, .cons haxis.2 hb⟩

/-- A shape that leaves another one as it is when the two are joined fits it. -/
theorem fits_of_joinAxes (hlength : s.length = host.length) (h : joinAxes host s = some host) :
    s.Fits host := (joinAxes_fits hlength.symm h).2

theorem joinAxes_comm (a b : Shape) : joinAxes a b = joinAxes b a := by
  induction a generalizing b with
  | nil => cases b <;> rfl
  | cons x a ih =>
    cases b with
    | nil => rfl
    | cons y b =>
      have haxis : joinAxis x y = joinAxis y x := by
        unfold joinAxis
        split_ifs <;> simp_all
      simp only [joinAxes, haxis, ih]

theorem length_pad (h : s.length ≤ n) : (s.pad n).length = n := by
  simp only [pad, length_append, length_replicate]
  omega

theorem pad_self (h : s.length = n) : s.pad n = s := by simp [pad, h]

@[simp] theorem size_pad (s : Shape) (n : Nat) : (s.pad n).size = s.size := by
  simp [size_eq_prod, pad]

theorem broadcast_eq_ok {a b : Shape} (h : broadcast a b = .ok t) :
    (a.length ≤ t.length ∧ (a.pad t.length).Fits t) ∧
      b.length ≤ t.length ∧ (b.pad t.length).Fits t := by
  -- The longer shape needs no unit axes.
  have hjoin {long short : Shape} (hle : short.length ≤ long.length)
      (h : joinAxes long (short.pad long.length) = some t) :
      (long.length ≤ t.length ∧ (long.pad t.length).Fits t) ∧
        short.length ≤ t.length ∧ (short.pad t.length).Fits t := by
    obtain ⟨hlong, hshort⟩ := joinAxes_fits (length_pad hle).symm h
    have hlength : long.length = t.length := hlong.length_eq
    rw [hlength] at hshort hle
    rw [pad_self hlength]
    exact ⟨⟨hlength.le, hlong⟩, hle, hshort⟩
  simp only [broadcast] at h
  split at h
  · rename_i joined hjoined
    cases h
    by_cases hlt : a.length < b.length
    · rw [if_pos hlt] at hjoined
      exact (hjoin hlt.le hjoined).symm
    · rw [if_neg hlt] at hjoined
      exact hjoin (Nat.not_lt.mp hlt) hjoined
  · cases h

theorem fits_of_broadcast (h : broadcast s host = .ok host) : (s.pad host.length).Fits host :=
  (broadcast_eq_ok h).1.2

theorem Fits.size_eq_zero (h : s.Fits host) (hs : s.size = 0) : host.size = 0 := by
  induction h with
  | nil => cases hs
  | @cons d n s host hd _ ih =>
    rw [size_cons, Nat.mul_eq_zero] at hs ⊢
    exact hs.imp (fun hzero => by omega) ih

theorem Fits.joinAxes_eq (h : s.Fits host) : joinAxes s host = some host := by
  induction h with
  | nil => rfl
  | @cons d n s host hd hs ih =>
    have haxis : joinAxis d n = some n := by
      unfold joinAxis
      split
      · simp_all
      · rw [if_pos (by omega)]
    simp [joinAxes, haxis, ih]

theorem Fits.broadcast_eq (h : s.Fits host) : broadcast s host = .ok host := by
  have hlength : s.length = host.length := h.length_eq
  simp [broadcast, hlength, pad, h.joinAxes_eq]

theorem broadcast_nil (s : Shape) : broadcast [] s = .ok s := by
  by_cases hs : s = []
  · rw [hs]
    rfl
  · have hlt : 0 < s.length := length_pos_iff.mpr hs
    have hpad : pad [] s.length = replicate s.length 1 := by simp [pad]
    have hones : Fits (replicate s.length 1) s := by
      clear hs hlt hpad
      induction s with
      | nil => exact .nil
      | cons d s ih => exact .cons (.inr rfl) ih
    simp [broadcast, hlt, hpad, joinAxes_comm s, hones.joinAxes_eq]

theorem Fits.exists_alignStrides (h : s.Fits host) (hts : ts.length = s.length) :
    ∃ us, alignStrides s ts host = some us := by
  induction h generalizing ts with
  | nil => exact ⟨_, rfl⟩
  | @cons d n s host hd hs ih =>
    obtain ⟨t, ts, rfl⟩ := exists_cons_of_length_eq_add_one hts
    obtain ⟨us, hus⟩ := ih (by simpa using hts)
    simp only [alignStrides, hus, Option.bind_eq_bind, Option.bind_some]
    split
    · exact ⟨_, rfl⟩
    · rw [if_pos (by omega)]
      exact ⟨_, rfl⟩

/-- A shape that fits a host, with unit axes in front, is walked as the host. -/
theorem exists_broadcastStrides (hle : s.length ≤ host.length) (h : (s.pad host.length).Fits host)
    (hts : ts.length = s.length) : ∃ us, broadcastStrides s ts host = .ok us := by
  have hdrop : s.Fits (host.drop (host.length - s.length)) := by
    have hfits := forall₂_drop (host.length - s.length) h
    rwa [pad, drop_left' length_replicate] at hfits
  obtain ⟨us, hus⟩ := hdrop.exists_alignStrides hts
  refine ⟨replicate (host.length - s.length) 0 ++ us, ?_⟩
  simp only [broadcastStrides, if_neg (Nat.not_lt.mpr hle), hus]

theorem Fits.broadcastStrides_eq_ok (h : s.Fits host)
    (hts : ts.length = s.length) : ∃ us, broadcastStrides s ts host = .ok us := by
  have hlength : s.length = host.length := h.length_eq
  exact exists_broadcastStrides hlength.le (by rwa [pad_self hlength]) hts

/-! ## Carrying a field to another shape -/

/-- The field of shape `field` of a host of shape `source` goes along to `out` when the host becomes
one of shape `target`. -/
structure Carried (source field target out : Shape) : Prop where
  size_eq : source.size = target.size
  field_eq : field.size = out.size
  fits : field.Fits source
  out_fits : out.Fits target
  ravel_eq : ∀ p q, source.contains p = true → target.contains q = true →
    source.ravel p = target.ravel q → field.ravel (field.project p) = out.ravel (out.project q)

variable {field out : Shape}

theorem carried_same (h : field.Fits s) : Carried s field s field where
  size_eq := rfl
  field_eq := rfl
  fits := h
  out_fits := h
  ravel_eq p q hp hq hpq := by rw [ravel_inj hp hq hpq]

theorem carried_whole (h : s.size = t.size) : Carried s s t t where
  size_eq := h
  field_eq := h
  fits := fits_refl s
  out_fits := fits_refl t
  ravel_eq p q hp hq hpq := by rwa [project_self hp, project_self hq]

private theorem ravel_of_ones (h : s.Fits host) (hones : ∀ d ∈ s, d = 1)
    (hq : host.contains q) : s.size = 1 ∧ s.ravel (s.project q) = 0 := by
  have hsize : s.size = 1 := by rw [size_eq_prod, prod_eq_one hones]
  have := ravel_lt (h.contains_project hq)
  exact ⟨hsize, by omega⟩

private theorem fits_of_ones (hlength : s.length = host.length) (hones : ∀ d ∈ s, d = 1) :
    s.Fits host := by
  rw [Fits, forall₂_iff_zip]
  exact ⟨hlength, fun hab => .inr (hones _ (of_mem_zip hab).1)⟩

theorem carried_ones (h : s.size = t.size) (hlength : field.length = s.length)
    (hones : ∀ d ∈ field, d = 1) : Carried s field t (replicate t.length 1) := by
  have hout : ∀ d ∈ replicate t.length 1, d = 1 := fun d hd => eq_of_mem_replicate hd
  have hfits := fits_of_ones hlength hones
  have houtfits : Fits (replicate t.length 1) t := fits_of_ones (by simp) hout
  refine ⟨h, ?_, hfits, houtfits, fun p q hp hq _ => ?_⟩
  · rw [size_eq_prod, size_eq_prod, prod_eq_one hones, prod_eq_one hout]
  · rw [(ravel_of_ones hfits hones hp).2, (ravel_of_ones houtfits hout hq).2]

theorem Carried.append {source₁ field₁ target₁ out₁ source₂ field₂ target₂ out₂ : Shape}
    (h₁ : Carried source₁ field₁ target₁ out₁) (h₂ : Carried source₂ field₂ target₂ out₂) :
    Carried (source₁ ++ source₂) (field₁ ++ field₂) (target₁ ++ target₂) (out₁ ++ out₂) where
  size_eq := by rw [size_append, size_append, h₁.size_eq, h₂.size_eq]
  field_eq := by rw [size_append, size_append, h₁.field_eq, h₂.field_eq]
  fits := rel_append h₁.fits h₂.fits
  out_fits := rel_append h₁.out_fits h₂.out_fits
  ravel_eq p q hp hq hpq := by
    obtain ⟨p₁, p₂, rfl, hp₁, hp₂⟩ := exists_of_contains_append hp
    obtain ⟨q₁, q₂, rfl, hq₁, hq₂⟩ := exists_of_contains_append hq
    have hlength {a b : Shape} {r : Position} (hr : a.contains r) (hb : b.Fits a) :
        r.length = b.length := (length_of_contains hr).trans hb.length_eq.symm
    rw [ravel_append (length_of_contains hp₁), ravel_append (length_of_contains hq₁)] at hpq
    -- Both numbers split in the same way, since the second groups have the same size.
    have hp₂lt := ravel_lt hp₂
    have hq₂lt := ravel_lt hq₂
    rw [h₂.size_eq] at hpq hp₂lt
    have hfirst : source₁.ravel p₁ = target₁.ravel q₁ := by
      have hdiv := congrArg (· / target₂.size) hpq
      simpa [Nat.mul_comm _ target₂.size, Nat.mul_add_div (by omega : target₂.size > 0),
        Nat.div_eq_of_lt hp₂lt, Nat.div_eq_of_lt hq₂lt] using hdiv
    have hsecond : source₂.ravel p₂ = target₂.ravel q₂ := by
      rw [hfirst] at hpq
      omega
    rw [project_append (hlength hp₁ h₁.fits) (hlength hp₂ h₂.fits),
      project_append (hlength hq₁ h₁.out_fits) (hlength hq₂ h₂.out_fits),
      ravel_append (length_of_contains (h₁.fits.contains_project hp₁)),
      ravel_append (length_of_contains (h₁.out_fits.contains_project hq₁)),
      h₁.ravel_eq p₁ q₁ hp₁ hq₁ hfirst, h₂.ravel_eq p₂ q₂ hp₂ hq₂ hsecond, h₂.field_eq]

end Shape

/-! ## Groups of axes -/

namespace AxisGroup

theorem matchProducts_eq_ok {p q : Nat} {source target : Shape} {m n : Nat}
    (h : matchProducts p q source target = .ok (m, n)) : m ≤ source.length ∧ n ≤ target.length ∧
      p * size (source.take m) = q * size (target.take n) := by
  fun_induction matchProducts p q source target generalizing m n with
  | case1 p source target =>
    simp only [Except.ok.injEq, Prod.mk.injEq] at h
    simp [← h.1, ← h.2]
  | case2 p q target hne hlt => simp at h
  | case3 p q target hne hlt d rest ih =>
    simp only [bind_eq_ok, pure_eq_ok] at h
    obtain ⟨⟨m', n'⟩, hrest, rfl, rfl⟩ := h
    obtain ⟨hm, hn, hsize⟩ := ih hrest
    simp only [length_cons, take_succ_cons, size_cons]
    exact ⟨by omega, hn, by rw [← Nat.mul_assoc, hsize]⟩
  | case4 p q source hne hlt => simp at h
  | case5 p q source hne hlt e rest ih =>
    simp only [bind_eq_ok, pure_eq_ok] at h
    obtain ⟨⟨m', n'⟩, hrest, rfl, rfl⟩ := h
    obtain ⟨hm, hn, hsize⟩ := ih hrest
    simp only [length_cons, take_succ_cons, size_cons]
    exact ⟨hm, by omega, by rw [← Nat.mul_assoc, hsize]⟩

/-- What groups are: runs of axes of the same size, one after the other from number `i` of the
source and number `j` of the target on. A single axis that becomes a single axis keeps its
length. -/
inductive Grouped : (i j : Nat) → (source target : Shape) → List AxisGroup → Prop where
  | nil (i j : Nat) : Grouped i j [] [] []
  | cons {i j : Nat} {source target : Shape} {groups : List AxisGroup} (m n : Nat) :
      m ≤ source.length → n ≤ target.length →
      Shape.size (source.take m) = Shape.size (target.take n) →
      (m = 1 → n = 1 → source.take m = target.take n) →
      Grouped (i + m) (j + n) (source.drop m) (target.drop n) groups →
      Grouped i j source target (⟨i, m, j, n⟩ :: groups)

theorem grouped_of_between {i j : Nat} {source target : Shape} {groups : List AxisGroup}
    (h : between i j source target = .ok groups) : Grouped i j source target groups := by
  have hpasses := passes_of_between h
  clear h
  induction hpasses with
  | nil i j => exact .nil i j
  | goes _ ih => exact .cons 1 0 (by simp) (by simp) (by simp) (by simp) (by simpa using ih)
  | comes _ ih => exact .cons 0 1 (by simp) (by simp) (by simp) (by simp) (by simpa using ih)
  | stays d _ ih => exact .cons 1 1 (by simp) (by simp) (by simp) (by simp) (by simpa using ih)
  | @regroups i j d e m n _ _ _ _ _ hde hmatch _ _ ih =>
    obtain ⟨hm, hn, hsize⟩ := matchProducts_eq_ok hmatch
    have hne := matchProducts_ne hde hmatch
    exact .cons (m + 1) (n + 1) (by simpa using hm) (by simpa using hn) (by simpa using hsize)
      (fun _ _ => by omega) (by simpa using ih)

end AxisGroup

namespace Regrouping

variable {out source target : Shape}

variable {map : Regrouping} {field : Shape}

theorem carried_groupShape {g : AxisGroup} (hout : map.groupShape field g = .ok out)
    (hsize : size (g.source map.source) = size (g.target map.target))
    (hlength : (g.target map.target).length = g.targetLength)
    (hsingle : g.isSingle → g.source map.source = g.target map.target)
    (hfits : Fits (g.source field) (g.source map.source)) :
    Carried (g.source map.source) (g.source field) (g.target map.target) out := by
  simp only [groupShape] at hout
  split at hout
  · rename_i hg
    rw [← Except.ok.inj hout, ← hsingle hg]
    exact carried_same hfits
  split at hout
  · rename_i hwhole
    rw [← Except.ok.inj hout, hwhole]
    exact carried_whole hsize
  split at hout
  · rename_i hones
    rw [← Except.ok.inj hout, ← hlength]
    exact carried_ones hsize hfits.length_eq (by simpa using hones)
  · simp at hout

/-- What holds of every group of axes, and of two runs of axes together if it holds of each, holds of
all axes. -/
theorem induction_grouped {P : Shape → Shape → Shape → Shape → Prop} {i j : Nat}
    {groups : List AxisGroup} {parts : List Shape} (hnil : P [] [] [] [])
    (happend : ∀ {source₁ field₁ target₁ out₁ source₂ field₂ target₂ out₂ : Shape},
      P source₁ field₁ target₁ out₁ → P source₂ field₂ target₂ out₂ →
      P (source₁ ++ source₂) (field₁ ++ field₂) (target₁ ++ target₂) (out₁ ++ out₂))
    (hgroup : ∀ g ∈ groups, ∀ out, map.groupShape field g = .ok out →
      size (g.source map.source) = size (g.target map.target) →
      (g.target map.target).length = g.targetLength →
      (g.isSingle → g.source map.source = g.target map.target) →
      Fits (g.source field) (g.source map.source) →
      P (g.source map.source) (g.source field) (g.target map.target) out)
    (h : AxisGroup.Grouped i j source target groups) (hsource : map.source.drop i = source)
    (htarget : map.target.drop j = target) (hfits : Fits (field.drop i) source)
    (hparts : groups.mapM (map.groupShape field) = .ok parts) :
    P source (field.drop i) target parts.flatten := by
  induction h generalizing parts with
  | nil i j =>
    simp only [mapM_nil, pure_eq_ok] at hparts
    rw [← hparts, forall₂_nil_right_iff.mp hfits]
    exact hnil
  | @cons i j source target groups m n hm hn hsize hsingle _ ih =>
    simp only [mapM_cons, bind_eq_ok, pure_eq_ok] at hparts
    obtain ⟨out, hout, parts, hparts, rfl⟩ := hparts
    have hgsource : AxisGroup.source ⟨i, m, j, n⟩ map.source = source.take m := by
      rw [AxisGroup.source, hsource]
    have hgtarget : AxisGroup.target ⟨i, m, j, n⟩ map.target = target.take n := by
      rw [AxisGroup.target, htarget]
    have hfirst := hgroup _ mem_cons_self out hout (by rw [hgsource, hgtarget, hsize])
      (by rw [hgtarget, length_take, Nat.min_eq_left hn])
      (fun hg => by
        simp only [AxisGroup.isSingle, Bool.and_eq_true, beq_iff_eq] at hg
        rw [hgsource, hgtarget, hsingle hg.1 hg.2])
      (by rw [hgsource]; exact forall₂_take m hfits)
    have hrest := ih (fun g hg => hgroup g (mem_cons_of_mem _ hg))
      (by rw [← drop_drop, hsource]) (by rw [← drop_drop, htarget])
      (by rw [← drop_drop]; exact forall₂_drop m hfits) hparts
    have hboth := happend hfirst hrest
    rw [hgsource, hgtarget, AxisGroup.source] at hboth
    simpa using hboth

/-- What is found for another shape of the host: all of it, or a part for each group of axes. -/
theorem reshapeShape_eq_ok (hmap : of source target = .ok map)
    (hout : map.reshapeShape field = .ok out) : field = source ∧ out = target ∨
      ∃ groups parts, map.found = .ok groups ∧ AxisGroup.Grouped 0 0 source target groups ∧
        groups.mapM (map.groupShape field) = .ok parts ∧ out = parts.flatten := by
  obtain ⟨-, hsource, htarget, hbetween⟩ := of_eq_ok hmap
  unfold reshapeShape at hout
  split at hout
  · rename_i hwhole
    exact .inl ⟨hwhole.trans hsource, (Except.ok.inj hout).symm.trans htarget⟩
  split at hout
  · simp at hout
  simp only [bind_eq_ok, pure_eq_ok] at hout
  obtain ⟨groups, hgroups, parts, hparts, rfl⟩ := hout
  have hfound : map.found = .ok groups := by
    unfold Regrouping.groups at hgroups
    split at hgroups
    · simp_all
    · simp at hgroups
  exact .inr ⟨groups, parts, hfound, AxisGroup.grouped_of_between (hbetween groups hfound), hparts,
    rfl⟩

/-- **A field whose shape is found for another shape of its host goes along.** -/
theorem carried_reshapeShape (hmap : of source target = .ok map) (hfits : field.Fits source)
    (hout : map.reshapeShape field = .ok out) : Carried source field target out := by
  obtain ⟨hsize, hsource, htarget, -⟩ := of_eq_ok hmap
  rcases reshapeShape_eq_ok hmap hout with ⟨rfl, rfl⟩ | ⟨groups, parts, -, hgrouped, hparts, rfl⟩
  · exact carried_whole hsize
  · exact induction_grouped (carried_whole rfl) .append
      (fun g _ out hout => carried_groupShape hout) hgrouped hsource htarget hfits hparts

end Regrouping

end Hyperslab
