import Hyperslab.Proofs.Outcome
import Hyperslab.Proofs.Permutation
import Mathlib.Tactic.Linarith

/-!
# Where regions lie

A span lies `Within` an axis when each coordinate that it selects is one of the axis. A region is
`Valid` when each of its spans lies within its axis of the source. Every way of making regions and
of changing them keeps this: forward and backward slices, growth, flips, compositions and new orders
of axes.
-/
namespace Hyperslab

open List Permutation Shape Word

theorem Word.signed_le (n : Nat) : signed n ≤ n := by
  unfold signed
  split
  · exact le_rfl
  · have hmod : (0 : Nat) < modulus := by decide
    have := Int.bmod_lt (x := (n : Int)) hmod
    have hhalf : ((modulus : Int) + 1) / 2 = half := by decide
    omega

theorem Word.signed_of_le {n : Nat} (h : half ≤ n) (hn : n < modulus) :
    signed n = (n : Int) - modulus := by
  have hmod : (n : Int) % modulus = n := Int.emod_eq_of_lt (by omega) (by omega)
  have hhalf : ((modulus : Int) + 1) / 2 = half := by decide
  rw [signed, if_neg (Nat.not_lt.mpr h), Int.bmod_def, hmod, if_neg (by omega)]

/-! ## Spans -/

namespace Span

variable {s : Span} {p n : Nat}

/-- Every coordinate that the span selects is one of an axis of the given length. -/
structure Within (s : Span) (length : Nat) : Prop where
  step_ne : s.step ≠ 0
  inside : ∀ p < s.count, 0 ≤ s.coord p ∧ s.coord p < length

theorem within_full (n : Nat) : (full n).Within n where
  step_ne := by simp [full]
  inside p hp := by simp_all [full, coord]

theorem coord_le_last (hstep : 0 < s.step) (hp : p < s.count) : s.coord p ≤ s.last := by
  have hle : (p : Int) ≤ (s.count : Int) - 1 := by omega
  have := mul_le_mul_of_nonneg_right hle hstep.le
  simp only [coord, last]
  omega

theorem coord_inj (hstep : s.step ≠ 0) {q : Nat} (h : s.coord p = s.coord q) : p = q := by
  have hmul : (p : Int) * s.step = q * s.step := by simp only [coord] at h; omega
  exact_mod_cast mul_right_cancel₀ hstep hmul

theorem coord_flip (hflip : 0 < signed s.count) (hp : p < s.count) :
    s.flip.coord p = s.coord (s.count - 1 - p) := by
  have hcast : ((s.count - 1 - p : Nat) : Int) = s.count - 1 - p := by omega
  simp only [flip, hflip, if_true, coord, last, hcast]
  ring

theorem Within.flip (h : s.Within n) : s.flip.Within n := by
  by_cases hflip : 0 < signed s.count
  · refine ⟨by simpa [Span.flip, hflip] using h.step_ne, fun p hp => ?_⟩
    have hp : p < s.count := by simpa [Span.flip, hflip] using hp
    rw [coord_flip hflip hp]
    exact h.inside _ (by omega)
  · rwa [Span.flip, if_neg hflip]

theorem coord_compose (outer inner : Span) (p : Nat) :
    (compose outer inner).coord p = outer.start + inner.coord p * outer.step := by
  simp only [compose, coord]
  ring

/-- Where the composition of two spans leads, each of them leads in turn. -/
theorem coord_compose_toNat {outer inner : Span} (h : 0 ≤ inner.coord p) :
    (compose outer inner).coord p = outer.coord (inner.coord p).toNat := by
  have hcast : outer.coord (inner.coord p).toNat = outer.start + inner.coord p * outer.step := by
    rw [coord, Int.toNat_of_nonneg h]
  rw [coord_compose, hcast]

theorem Within.compose {outer inner : Span} (ho : outer.Within n)
    (hi : inner.Within outer.count) : (compose outer inner).Within n where
  step_ne := mul_ne_zero ho.step_ne hi.step_ne
  inside p hp := by
    obtain ⟨hnonneg, hlt⟩ := hi.inside p hp
    rw [coord_compose_toNat hnonneg]
    exact ho.inside _ (by omega)

theorem Within.count_le (h : s.Within n) : s.count ≤ n := by
  rcases Nat.eq_zero_or_pos s.count with h0 | h0
  · omega
  have hfirst := h.inside 0 h0
  have hlast := h.inside (s.count - 1) (by omega)
  simp only [coord, Nat.cast_zero, zero_mul] at hfirst hlast
  have hcast : ((s.count - 1 : Nat) : Int) = s.count - 1 := by omega
  -- The ends of the span are at least one apart for every step between them.
  rcases lt_or_gt_of_ne h.step_ne with hneg | hpos
  · nlinarith
  · nlinarith

end Span

/-! ## Resolved slices -/

namespace Slice

variable {s : Slice}

theorem clamp_ge {lo hi : Int} (z : Int) (h : lo ≤ hi) : lo ≤ clamp lo hi z := by
  unfold clamp
  split <;> [skip; split] <;> omega

theorem clamp_le {lo hi : Int} (z : Int) (h : lo ≤ hi) : clamp lo hi z ≤ hi := by
  unfold clamp
  split <;> [skip; split] <;> omega

/-- A step that is counted starts before the distance is used up. -/
theorem mul_lt_of_lt_steps {d step : Int} {p : Nat} (hstep : 0 < step) (h : p < steps d step) :
    p * step < d := by
  unfold steps at h
  split at h
  · have hp : (p : Int) + 1 ≤ (d + step - 1) / step := by omega
    have := (Int.le_ediv_iff_mul_le hstep).mp hp
    rw [add_mul] at this
    omega
  · omega

/-- The coordinates that a slice selects are never negative, and they lie on the axis unless the
slice runs forward: then the last one is the furthest. -/
theorem span_inside {len lim : Int} (hstep : s.step ≠ 0) (hlim : 0 ≤ lim)
    (hlen : s.step < 0 → 0 ≤ len) {p : Nat} (hp : p < (s.span len lim).count) :
    0 ≤ (s.span len lim).coord p ∧ (0 < s.step ∨ (s.span len lim).coord p < len) := by
  unfold span at hp ⊢
  by_cases hpos : 0 < s.step
  · simp only [hpos, if_true, Span.coord] at hp ⊢
    refine ⟨?_, .inl trivial⟩
    have := clamp_ge (s.start.elim 0 (wrap len)) hlim
    have : 0 ≤ (p : Int) * s.step := by positivity
    omega
  · have hneg : s.step < 0 := by omega
    simp only [hpos, if_false, Span.coord] at hp ⊢
    have hcount := mul_lt_of_lt_steps (by omega) hp
    have hstart := clamp_le (s.start.elim (len - 1) (wrap len)) (show -1 ≤ len - 1 by omega)
    have hstop := clamp_ge (s.stop.elim (-1) (wrap len)) (show -1 ≤ len - 1 by omega)
    have hmul : (p : Int) * -s.step = -(p * s.step) := by ring
    have : 0 ≤ (p : Int) * -s.step := mul_nonneg (by omega) (by omega)
    omega

theorem step_span (s : Slice) (len lim : Int) : (s.span len lim).step = s.step := by
  unfold span
  split <;> rfl

theorem resolve_eq_ok {length limit : Nat} {span : Span} (h : s.resolve length limit = .ok span) :
    s.step ≠ 0 ∧ (s.step < 0 → 0 ≤ signed length) ∧
      span = s.span (signed length) (min limit (half - 1)) := by
  simp only [resolve] at h
  split at h
  · simp at h
  rename_i hstep
  split at h
  · split at h <;> simp at h
  split at h
  · simp at h
  rename_i hstops
  split at h
  · simp at h
  simp only [Except.ok.injEq] at h
  refine ⟨hstep, fun hneg => ?_, h.symm⟩
  by_contra hlen
  exact hstops (by simp [stops, hneg, show signed length < 0 by omega])

theorem resolve_inside {length limit : Nat} {span : Span} (h : s.resolve length limit = .ok span) :
    span.step ≠ 0 ∧ ∀ p < span.count, 0 ≤ span.coord p ∧
      (0 < span.step ∨ span.coord p < length) := by
  obtain ⟨hstep, hlen, rfl⟩ := resolve_eq_ok h
  have hsigned := signed_le length
  have hhalf : (0 : Int) ≤ half - 1 := by decide
  have hlim : 0 ≤ min (limit : Int) (half - 1) := le_min (Int.natCast_nonneg _) hhalf
  refine ⟨by rwa [step_span], fun p hp => ?_⟩
  obtain ⟨hnonneg, hlt⟩ := span_inside hstep hlim hlen hp
  rw [step_span]
  exact ⟨hnonneg, hlt.imp_right fun hlt => by omega⟩

end Slice

/-! ## Regions -/

namespace Region

variable {r r' outer inner : Region} {slices : List Slice} {s : Shape} {p : Position}

/-- Every position that the region selects lies in its source. -/
structure Valid (r : Region) : Prop where
  within : List.Forall₂ Span.Within r.spans r.source
  limits : ∀ l ∈ r.limits, l.length = r.rank
  spare : r.spare = .none

theorem Valid.length_source (h : r.Valid) : r.source.length = r.rank := h.within.length_eq.symm

theorem Valid.starts_eq (h : r.Valid) : r.starts = r.spans.map Span.start := by
  simp [starts, h.spare, Spare.none]

theorem Valid.steps_eq (h : r.Valid) : r.steps = r.spans.map Span.step := by
  simp [steps, h.spare, Spare.none]

theorem valid_full (s : Shape) : (full s).Valid where
  within := by
    rw [full, forall₂_map_left_iff, forall₂_same]
    exact fun d _ => Span.within_full d
  limits := by simp [full]
  spare := rfl

theorem forall₂_set {α β : Type} {R : α → β → Prop} {l : List α} {m : List β} (h : Forall₂ R l m)
    {i : Nat} {a : α} {b : β} (hab : i < l.length → R a b) : Forall₂ R (l.set i a) (m.set i b) := by
  induction h generalizing i with
  | nil => simp
  | cons hxy h ih =>
    cases i with
    | zero => exact .cons (hab (by simp)) h
    | succ i => exact .cons hxy (ih fun hi => hab (by simpa using hi))

theorem setAxis_eq_ok {axis : Nat} {slice : Slice} (h : r.setAxis axis slice = .ok r') :
    ∃ length limit span, r.source[axis]? = some length ∧ slice.resolve length limit = .ok span ∧
      r' = { r with
        source := if span.count ≠ 0 && 0 < span.step && (length : Int) ≤ span.last then
          r.source.set axis (span.last.toNat + 1) else r.source
        spans := r.spans.set axis span
        expanded := r.expanded ||
          (span.count ≠ 0 && 0 < span.step && (length : Int) ≤ span.last) } := by
  unfold setAxis at h
  split at h
  · simp at h
  simp only [bind_eq_ok, pure_eq_ok] at h
  obtain ⟨length, hlength, limit, -, span, hspan, rfl⟩ := h
  refine ⟨length, limit, span, ?_, hspan, rfl⟩
  unfold entry at hlength
  split at hlength <;> simp_all

/-- A new slice of one axis lies in the source, which grows for it if need be. -/
theorem Valid.setAxis {axis : Nat} {slice : Slice} (hr : r.Valid)
    (h : r.setAxis axis slice = .ok r') : r'.Valid := by
  obtain ⟨length, limit, span, hlength, hspan, rfl⟩ := setAxis_eq_ok h
  obtain ⟨hstep, hinside⟩ := Slice.resolve_inside hspan
  refine ⟨?_, by simpa [rank] using hr.limits, hr.spare⟩
  simp only [Bool.and_eq_true, decide_eq_true_eq]
  split
  · rename_i hgrows
    refine forall₂_set hr.within fun _ => ⟨hstep, fun p hp => ?_⟩
    have := Span.coord_le_last hgrows.1.2 hp
    exact ⟨(hinside p hp).1, by omega⟩
  · have hset : r.source.set axis length = r.source := by
      obtain ⟨hi, hget⟩ := List.getElem?_eq_some_iff.mp hlength
      rw [← hget, set_getElem_self]
    rw [← hset]
    refine forall₂_set hr.within fun _ => ⟨hstep, fun p hp => ?_⟩
    obtain ⟨hnonneg, hlt⟩ := hinside p hp
    refine ⟨hnonneg, ?_⟩
    rcases hlt with hpos | hlt
    · have hlast := Span.coord_le_last hpos hp
      omega
    · exact hlt

theorem Valid.setAxes (hr : r.Valid) (h : r.setAxes slices = .ok r') : r'.Valid := by
  unfold Region.setAxes at h
  split at h
  · simp at h
  · exact foldlM_induction (fun _ _ _ _ hb hstep => hb.setAxis hstep) hr h

theorem valid_ofSlices (h : ofSlices s slices = .ok r) : r.Valid := (valid_full s).setAxes h

theorem valid_ofSlicesWithin {limits : Shape}
    (h : ofSlicesWithin s limits slices = .ok r) : r.Valid := by
  unfold ofSlicesWithin at h
  split at h
  · rename_i hallows
    simp only [allows, Bool.and_eq_true] at hallows
    have hvalid : ({ full s with limits := some limits } : Region).Valid :=
      ⟨(valid_full s).within, by simpa [rank, full] using hallows.1, rfl⟩
    exact hvalid.setAxes h
  · simp at h

theorem valid_ofArrays {start stop step : Option (List Int)}
    (h : ofArrays s start stop step = .ok r) : r.Valid := by
  simp only [ofArrays, bind_eq_ok] at h
  obtain ⟨slices, -, h⟩ := h
  exact valid_ofSlices h

theorem forall₂_flip {R : Span → Nat → Prop} (hR : ∀ {s : Span} {n : Nat}, R s n → R s.flip n)
    {spans : List Span} (h : Forall₂ R spans s) (axis : Nat) :
    Forall₂ R (spans.modify axis Span.flip) s := by
  rw [forall₂_iff_get] at h ⊢
  refine ⟨by simpa using h.1, fun i hi hi' => ?_⟩
  have hspan := h.2 i (by simpa using hi) hi'
  simp only [get_eq_getElem, getElem_modify] at hspan ⊢
  split
  · exact hR hspan
  · exact hspan

theorem Valid.flip {axis : Int} (hr : r.Valid) (h : r.flip axis = .ok r') : r'.Valid := by
  simp only [Region.flip, bind_eq_ok, pure_eq_ok] at h
  obtain ⟨a, -, rfl⟩ := h
  exact ⟨forall₂_flip Span.Within.flip hr.within a, by simpa [rank] using hr.limits, hr.spare⟩

theorem forall₂_compose {R : Span → Nat → Prop}
    (hR : ∀ {o i : Span} {n : Nat}, R o n → R i o.count → R (Span.compose o i) n)
    {outer inner : List Span} (ho : Forall₂ R outer s)
    (hi : Forall₂ R inner (outer.map Span.count)) :
    Forall₂ R (zipWith Span.compose outer inner) s := by
  induction ho generalizing inner with
  | nil => simp
  | cons ho hos ih =>
    cases hi with
    | cons hi his => exact .cons (hR ho hi) (ih his)

theorem Valid.compose_eq (ho : outer.Valid) (hi : inner.Valid)
    (hsource : inner.source = outer.shape) :
    outer.compose inner = .ok ⟨outer.source, none,
      zipWith Span.compose outer.spans inner.spans, false, .none⟩ := by
  have hrank : inner.rank = outer.rank := by
    rw [← hi.length_source, hsource, length_shape]
  have hdrop : outer.source.drop outer.rank = [] := by
    rw [drop_eq_nil_iff, ho.length_source]
  have hlength := ho.length_source
  have hfault : ¬ (inner.rank < outer.rank ∨ outer.source.length < outer.rank) := by omega
  simp [compose, hsource, hfault, hdrop]

theorem compose_source (h : outer.compose inner = .ok r) : inner.source = outer.shape := by
  unfold compose at h
  split at h
  · simp at h
  · rename_i hsource
    exact not_not.mp hsource

section

variable (ho : outer.Valid) (hi : inner.Valid) (h : outer.compose inner = .ok r)
include ho hi h

theorem Valid.compose : r.Valid := by
  have hsource := compose_source h
  rw [ho.compose_eq hi hsource, Except.ok.injEq] at h
  subst h
  refine ⟨forall₂_compose Span.Within.compose ho.within ?_, by simp, rfl⟩
  have := hi.within
  rwa [hsource] at this

theorem Valid.shape_compose : r.source = outer.source ∧ r.shape = inner.shape := by
  have hsource := compose_source h
  have hrank : inner.spans.length ≤ outer.spans.length := by
    have := hi.length_source
    rw [hsource, length_shape] at this
    exact this.ge
  rw [ho.compose_eq hi hsource, Except.ok.injEq] at h
  subst h
  have hcount : (fun o i => (Span.compose o i).count) = fun (_ : Span) (i : Span) => i.count := rfl
  rw [shape, shape, map_zipWith, hcount]
  generalize inner.spans = is at hrank
  generalize outer.spans = os at hrank
  induction is generalizing os with
  | nil => simp
  | cons i is ih =>
    cases os with
    | nil => simp at hrank
    | cons o os => simpa using ih os (by simpa using hrank)

end

theorem Valid.permuted {perm : List Nat} (hr : r.Valid)
    (hperm : Permutation.Orders perm r.rank) : (r.permuted perm).Valid := by
  have hspans : ∀ a ∈ perm, a < r.spans.length := fun a ha => hperm.mem_iff.mp ha
  have hsource : ∀ a ∈ perm, a < r.source.length := by rwa [hr.length_source]
  refine ⟨?_, ?_, rfl⟩
  · have := hr.within
    rw [List.forall₂_iff_zip] at this ⊢
    refine ⟨by simp [Region.permuted, length_apply hspans,
      length_apply hsource], fun {a b} hab => this.2 ?_⟩
    simp only [Region.permuted, List.zip] at hab ⊢
    rw [← apply_zipWith _ this.1 hspans] at hab
    obtain ⟨i, -, hi⟩ := List.mem_filterMap.mp hab
    exact List.mem_of_getElem? hi
  · intro l hl
    simp only [Region.permuted, Option.mem_def, Option.map_eq_some_iff] at hl
    obtain ⟨l, hl, rfl⟩ := hl
    have hlength : ∀ a ∈ perm, a < l.length := by rwa [hr.limits l hl]
    simp [Region.permuted, rank, length_apply hlength, length_apply hspans]

/-- The regions that the constructors and operations of regions make. -/
inductive Built : Region → Prop where
  | full (s : Shape) : Built (full s)
  | ofSlices {s : Shape} {slices : List Slice} {r : Region} :
      ofSlices s slices = .ok r → Built r
  | ofSlicesWithin {s limits : Shape} {slices : List Slice} {r : Region} :
      ofSlicesWithin s limits slices = .ok r → Built r
  | ofArrays {s : Shape} {start stop step : Option (List Int)} {r : Region} :
      ofArrays s start stop step = .ok r → Built r
  | setAxis {r r' : Region} {axis : Nat} {slice : Slice} :
      Built r → r.setAxis axis slice = .ok r' → Built r'
  | flip {r r' : Region} {axis : Int} : Built r → r.flip axis = .ok r' → Built r'
  | compose {outer inner r : Region} :
      Built outer → Built inner → outer.compose inner = .ok r → Built r
  | permuted {r : Region} {perm : List Nat} :
      Built r → Permutation.Orders perm r.rank → Built (r.permuted perm)

/-- **Regions lie in their source, however they were made.** -/
theorem Built.valid (h : r.Built) : r.Valid := by
  induction h with
  | full s => exact valid_full s
  | ofSlices h => exact valid_ofSlices h
  | ofSlicesWithin h => exact valid_ofSlicesWithin h
  | ofArrays h => exact valid_ofArrays h
  | setAxis _ h ih => exact ih.setAxis h
  | flip _ h ih => exact ih.flip h
  | compose _ _ h iho ihi => exact iho.compose ihi h
  | permuted _ hperm ih => exact ih.permuted hperm

/-! ## Source positions -/

theorem Valid.coords_inside (hr : r.Valid) (hp : r.shape.contains p) :
    Forall₂ (fun (z : Int) (d : Nat) => 0 ≤ z ∧ z < d) (r.coords p) r.source := by
  have hwithin := hr.within
  rw [contains_iff_forall₂] at hp
  simp only [coords, shape] at hp ⊢
  generalize r.spans = spans at hp hwithin
  generalize r.source = source at hwithin
  induction hwithin generalizing p with
  | nil => simp
  | cons hs _ ih =>
    cases hp with
    | cons hi hp => exact .cons (hs.inside _ hi) (ih hp)

theorem mem_coords_inside {zs : List Int}
    (h : Forall₂ (fun (z : Int) (d : Nat) => 0 ≤ z ∧ z < d) zs s) {z : Int} (hz : z ∈ zs) :
    0 ≤ z ∧ ∃ d ∈ s, z < (d : Int) := by
  induction h with
  | nil => simp at hz
  | cons hzd _ ih =>
    rcases mem_cons.mp hz with rfl | hz
    · exact ⟨hzd.1, _, mem_cons_self, hzd.2⟩
    · obtain ⟨hnonneg, d, hd, hlt⟩ := ih hz
      exact ⟨hnonneg, d, mem_cons_of_mem _ hd, hlt⟩

section

variable (hr : r.Valid) (hsmall : ∀ d ∈ r.source, d ≤ modulus) (hp : r.shape.contains p)
include hr hsmall hp

/-- The coordinates of a source position are exact where the lengths of axes are words. -/
theorem Valid.sourcePosition_eq : r.sourcePosition p = (r.coords p).map Int.toNat := by
  refine map_congr_left fun z hz => ?_
  obtain ⟨hnonneg, d, hd, hlt⟩ := mem_coords_inside (hr.coords_inside hp) hz
  have := hsmall d hd
  exact unsigned_of_nonneg hnonneg (by omega)

theorem Valid.cast_sourcePosition : (r.sourcePosition p).map Int.ofNat = r.coords p := by
  rw [hr.sourcePosition_eq hsmall hp, map_map]
  refine (map_congr_left fun z hz => ?_).trans (map_id _)
  exact Int.toNat_of_nonneg (mem_coords_inside (hr.coords_inside hp) hz).1

/-- **What a region selects lies in its source.** -/
theorem Valid.contains_sourcePosition : r.source.contains (r.sourcePosition p) := by
  rw [hr.sourcePosition_eq hsmall hp, contains_iff_forall₂, forall₂_map_left_iff]
  exact (hr.coords_inside hp).imp fun z d h => by omega

end

theorem Valid.coords_inj (hr : r.Valid) {q : Position} (hp : r.shape.contains p)
    (hq : r.shape.contains q) (h : r.coords p = r.coords q) : p = q := by
  have hwithin := hr.within
  rw [contains_iff_forall₂] at hp hq
  simp only [coords, shape] at hp hq h
  generalize r.spans = spans at hp hq h hwithin
  generalize r.source = source at hwithin
  induction hwithin generalizing p q with
  | nil =>
    rw [map_nil, forall₂_nil_right_iff] at hp hq
    rw [hp, hq]
  | cons hs _ ih =>
    cases hp with
    | cons _ hp =>
      cases hq with
      | cons _ hq =>
        simp only [zipWith_cons_cons, cons.injEq] at h
        rw [Span.coord_inj hs.step_ne h.1, ih hp hq h.2]

theorem Valid.sourcePosition_inj (hr : r.Valid) {q : Position}
    (hsmall : ∀ d ∈ r.source, d ≤ modulus) (hp : r.shape.contains p)
    (hq : r.shape.contains q) (h : r.sourcePosition p = r.sourcePosition q) : p = q := by
  refine hr.coords_inj hp hq ?_
  rw [← hr.cast_sourcePosition hsmall hp, h, hr.cast_sourcePosition hsmall hq]

theorem Valid.size_le (hr : r.Valid) : r.size ≤ r.source.size := by
  have hwithin := hr.within
  simp only [size, shape]
  generalize r.spans = spans at hwithin
  generalize r.source = source at hwithin
  induction hwithin with
  | nil => simp
  | cons hs _ ih => exact Nat.mul_le_mul hs.count_le ih

/-! ### Of the operations on regions -/

theorem sourcePosition_full (hsmall : ∀ d ∈ s, d ≤ modulus)
    (hp : s.contains p) : (full s).sourcePosition p = p := by
  rw [(valid_full s).sourcePosition_eq hsmall (by rwa [shape_full])]
  simp only [coords, full]
  clear hsmall
  induction s generalizing p with
  | nil => rw [contains_nil.mp hp]; rfl
  | cons d s ih =>
    obtain ⟨i, q, rfl, hi, hq⟩ := exists_of_contains_cons hp
    simp only [map_cons, zipWith_cons_cons, ih hq]
    simp [Span.coord, Span.full]

@[simp] theorem shape_permuted (r : Region) (perm : List Nat) :
    (r.permuted perm).shape = apply perm r.shape := by
  simp [shape, permuted, apply_map]

theorem sourcePosition_permuted {perm : List Nat} (hperm : Orders perm r.rank)
    (hp : r.shape.contains p) :
    (r.permuted perm).sourcePosition (apply perm p) = apply perm (r.sourcePosition p) := by
  have hlength : r.spans.length = p.length := by
    rw [length_of_contains hp, length_shape, rank]
  simp only [sourcePosition, coords, permuted]
  rw [apply_map, apply_zipWith _ hlength fun a ha => hperm.mem_iff.mp ha]

private theorem zipWith_coord_compose {outer inner : List Span}
    (h : ∀ z ∈ zipWith Span.coord inner p, 0 ≤ z) :
    zipWith Span.coord (zipWith Span.compose outer inner) p =
      zipWith Span.coord outer ((zipWith Span.coord inner p).map Int.toNat) := by
  induction outer generalizing inner p with
  | nil => simp
  | cons o outer ih =>
    cases inner with
    | nil => simp
    | cons i inner =>
      cases p with
      | nil => simp
      | cons k p =>
        simp only [zipWith_cons_cons, mem_cons, forall_eq_or_imp] at h
        simp only [zipWith_cons_cons, map_cons, ih h.2, Span.coord_compose_toNat h.1]

/-- What a region of a region selects, the two select in turn. -/
theorem Valid.sourcePosition_compose (ho : outer.Valid) (hi : inner.Valid)
    (h : outer.compose inner = .ok r) (hp : inner.shape.contains p)
    (hsmall : ∀ d ∈ inner.source, d ≤ modulus) :
    r.sourcePosition p = outer.sourcePosition (inner.sourcePosition p) := by
  rw [ho.compose_eq hi (compose_source h), Except.ok.injEq] at h
  subst h
  rw [hi.sourcePosition_eq hsmall hp]
  simp only [sourcePosition, coords]
  rw [zipWith_coord_compose fun z hz => (mem_coords_inside (hi.coords_inside hp) hz).1]

end Region

end Hyperslab
