import Hyperslab.Proofs.GrowthLimits
import Hyperslab.Proofs.SliceRule

/-!
# Replacing the slice of an axis

The slice of an axis may be replaced. A region that may grow its source does not forget how far an
earlier slice made it grow, though: the source stays as long as it became, the region stays
expanded, and the new slice is resolved against the longer axis. That is all that is left of the
earlier slice, so the last slice wins just where none of it shows.
-/
namespace Hyperslab

open Word

theorem Span.greatest_of_le {s : Span} {n m : Nat} (h : n ≤ m) :
    s.greatest m = max m (s.greatest n) := by
  refine le_antisymm (greatest_le_iff.mpr ⟨le_max_left _ _, fun p hp => ?_⟩) (max_le le_greatest ?_)
  · have := (greatest_le_iff.mp (le_refl (s.greatest n))).2 p hp
    omega
  · have hm := greatest_le_iff.mp (le_refl (s.greatest m))
    exact greatest_le_iff.mpr ⟨h.trans hm.1, hm.2⟩

namespace Slice

variable {x y : Slice} {n limit : Nat} {span : Span}

theorem greatest_lt_half (h : x.resolve n limit = .ok span) (hgrows : n < span.greatest n) :
    span.greatest n < half := by
  have hlimit : ((min limit (half - 1) : Nat) : Int) = min (limit : Int) (half - 1) := by
    have : 0 < half := by decide
    omega
  have hcut : x.resolve n (min limit (half - 1)) = .ok span := by
    rw [← h]
    simp only [resolve, hlimit, min_assoc, min_self]
  rw [greatest_of_resolve h] at hgrows ⊢
  split at hgrows
  · rename_i hforward
    rw [if_pos hforward]
    simp only [Bool.and_eq_true, decide_eq_true_eq] at hforward
    have hlast := (ends_of_resolve hcut).2 (Nat.pos_of_ne_zero hforward.1.1) hforward.1.2
    omega
  · omega

/-- A range is resolved if it has a step, and the step an opposite. -/
theorem exists_resolve_iff_step_ne (hindex : y.isIndex = false) (hstep : fits (-y.step))
    (hn : n < half) : (∃ span, y.resolve n limit = .ok span) ↔ y.step ≠ 0 := by
  refine ⟨fun ⟨span, h⟩ => (resolve_eq_ok h).1, fun hne => ?_⟩
  have hstops : y.stops (signed n) = false := by rw [signed_of_lt hn, stops_natCast]
  have hnone : y.index? = none := by simp [index?, hindex]
  rw [resolve_of_checks hne hstops (by simp [hnone])]
  simp [hstep]

end Slice

namespace Region

variable {r r₁ : Region} {s limits : Shape} {slices : List Slice} {i n n₁ m : Nat} {x y : Slice}

/-- The region in a source whose axis `i` became `m` positions long. -/
def lengthened (r : Region) (i m : Nat) : Region :=
  { r with
    source := r.source.set i m
    expanded := r.expanded || (r.source[i]?).any fun n => n < m }

/-- A new slice of an axis does not depend on the one it replaces. -/
theorem setAxis_set_spans (r : Region) (i : Nat) (span : Span) (y : Slice) :
    setAxis { r with spans := r.spans.set i span } i y = r.setAxis i y := by
  simp only [setAxis, rank, limit, List.length_set, List.set_set]
  rfl

theorem limits_ofSlicesWithin (h : ofSlicesWithin s limits slices = .ok r) :
    r.limits = some limits := by
  unfold ofSlicesWithin at h
  split at h
  · unfold setAxes at h
    split at h
    · cases h
    · refine foldlM_induction (P := fun r => r.limits = some limits) ?_ rfl h
      intro _ _ _ _ hr hstep
      obtain ⟨-, -, -, -, -, rfl⟩ := setAxis_eq_ok hstep
      exact hr
  · cases h

/-- The axis that a region of a shape with limits takes a slice of. All that the slice leaves to a
later one is that the axis is longer. -/
theorem exists_lengthened (hr : ofSlicesWithin s limits slices = .ok r)
    (hx : r.setAxis i x = .ok r₁) : ∃ n m span, r.source[i]? = some n ∧ limits[i]? = some m ∧
      (∀ k, r.limit i k = .ok m) ∧ n ≤ m ∧ x.resolve n m = .ok span ∧
      r₁.source[i]? = some (span.greatest n) ∧
      ∀ y, r₁.setAxis i y = (r.lengthened i (span.greatest n)).setAxis i y := by
  obtain ⟨n, -, -, hn, -⟩ := setAxis_eq_ok hx
  have hle := source_le_ofSlicesWithin hr
  have hi : i < r.source.length := (List.getElem?_eq_some_iff.mp hn).1
  have hi' : i < limits.length := hle.length_eq ▸ hi
  have hm : limits[i]? = some limits[i] := List.getElem?_eq_getElem hi'
  have hlimit (k : Nat) : r.limit i k = .ok limits[i] := by
    simp [limit, limits_ofSlicesWithin hr, entry, hm]
  have hnm : n ≤ limits[i] := by
    rw [← (List.getElem?_eq_some_iff.mp hn).2]
    exact hle.get hi hi'
  rw [setAxis_eq ((valid_ofSlicesWithin hr).length_source ▸ hi) hn (hlimit n), bind_eq_ok] at hx
  obtain ⟨span, hspan, hr₁⟩ := hx
  have hr₁ : { r.lengthened i (span.greatest n) with spans := r.spans.set i span } = r₁ := by
    rw [← pure_eq_ok.mp hr₁]
    simp [lengthened, hn]
  subst hr₁
  exact ⟨n, limits[i], span, hn, hm, hlimit, hnm, hspan, by simp [lengthened, hi],
    setAxis_set_spans (r.lengthened i (span.greatest n)) i span⟩

section

variable (hi : i < r.rank) (hn : r.source[i]? = some n) (hm : ∀ n, r.limit i n = .ok m)
include hi hn hm

theorem setAxis_lengthened :
    (r.lengthened i n₁).setAxis i y = do
      let span ← y.resolve n₁ m
      return { r with
        source := r.source.set i (span.greatest n₁)
        spans := r.spans.set i span
        expanded := (r.expanded || decide (n < n₁)) || decide (n₁ < span.greatest n₁) } := by
  have hlength : i < r.source.length := (List.getElem?_eq_some_iff.mp hn).1
  have hn₁ : (r.lengthened i n₁).source[i]? = some n₁ := by simp [lengthened, hlength]
  rw [setAxis_eq (r := r.lengthened i n₁) hi hn₁ (hm n₁)]
  simp [lengthened, hn]

/-- A later slice on a longer axis gives what it gives alone just if no growth shows: the span has
to be the same, and to reach as far as the axis grew. -/
theorem toOption_setAxis_lengthened_iff (hle : n ≤ n₁) :
    ((r.lengthened i n₁).setAxis i y).toOption = (r.setAxis i y).toOption ↔
      n₁ = n ∨ (y.resolve n₁ m).toOption = none ∧ (y.resolve n m).toOption = none ∨
        ∃ span, y.resolve n₁ m = .ok span ∧ y.resolve n m = .ok span ∧ n₁ ≤ span.greatest n := by
  have hlength : i < r.source.length := (List.getElem?_eq_some_iff.mp hn).1
  rw [setAxis_lengthened hi hn hm, setAxis_eq hi hn (hm n)]
  rcases hle.eq_or_lt with rfl | hlt
  · simp
  cases h₁ : y.resolve n₁ m with
  | error e₁ =>
    cases h : y.resolve n m with
    | error e => simp [bind, Except.bind, Except.toOption]
    | ok span => simp [bind, Except.bind, Except.toOption, pure, Except.pure, hlt.ne']
  | ok span₁ =>
    cases h : y.resolve n m with
    | error e => simp [bind, Except.bind, Except.toOption, pure, Except.pure, hlt.ne']
    | ok span =>
      simp only [ok_bind, pure, Except.pure, Except.toOption, Option.some.injEq,
        Region.mk.injEq, Except.ok.injEq, reduceCtorEq, hlt.ne', false_or, false_and]
      constructor
      · rintro ⟨hsource, -, hspans, -, -⟩
        have hspan : span₁ = span := by
          simpa [show i < r.spans.length from hi] using congrArg (·[i]?) hspans
        have hgrown : span₁.greatest n₁ = span.greatest n := by
          simpa [hlength] using congrArg (·[i]?) hsource
        exact ⟨span, hspan, rfl, hgrown ▸ hspan ▸ Span.le_greatest⟩
      · rintro ⟨_, rfl, rfl, hreach⟩
        have hgrown : span.greatest n₁ = span.greatest n := by
          rw [Span.greatest_of_le hlt.le, max_eq_right hreach]
        simp [hgrown, hlt, hlt.trans_le hreach]

end

/-- **The last slice of an axis wins where the one before left no trace.** After an earlier slice
the axis is `n₁` positions long instead of `n`. A later one gives what it would give alone just if
the axis did not grow, if it is refused both ways, or if it selects the same both ways and reaches
as far as the axis grew. -/
theorem last_slice_wins_iff (hr : ofSlicesWithin s limits slices = .ok r)
    (hx : r.setAxis i x = .ok r₁) (y : Slice) :
    ∃ n n₁ m, r.source[i]? = some n ∧ r₁.source[i]? = some n₁ ∧ limits[i]? = some m ∧
      n ≤ n₁ ∧ n₁ ≤ m ∧ (∃ span, x.resolve n m = .ok span ∧ n₁ = span.greatest n) ∧
      r₁.setAxis i y = (r.lengthened i n₁).setAxis i y ∧
      ((r₁.setAxis i y).toOption = (r.setAxis i y).toOption ↔
        n₁ = n ∨ (y.resolve n₁ m).toOption = none ∧ (y.resolve n m).toOption = none ∨
          ∃ span, y.resolve n₁ m = .ok span ∧ y.resolve n m = .ok span ∧ n₁ ≤ span.greatest n) ∧
      ((∃ r', r₁.setAxis i y = .ok r') ↔ ∃ span, y.resolve n₁ m = .ok span) ∧
      ((∃ r', r.setAxis i y = .ok r') ↔ ∃ span, y.resolve n m = .ok span) ∧
      (y.isIndex = false → Word.fits (-y.step) = true →
        ((∃ r', r₁.setAxis i y = .ok r') ↔ ∃ r', r.setAxis i y = .ok r')) := by
  obtain ⟨n, m, span, hn, hm, hlimit, hle, hspan, hn₁, htrace⟩ := exists_lengthened hr hx
  have hi : i < r.rank :=
    (valid_ofSlicesWithin hr).length_source ▸ (List.getElem?_eq_some_iff.mp hn).1
  have hgrown : n ≤ span.greatest n := Span.le_greatest
  have hgoes {outcome : Except Error Span} {f : Span → Region} :
      (∃ r', (do let span ← outcome; return f span) = .ok r') ↔ ∃ span, outcome = .ok span := by
    cases outcome <;> simp [bind, Except.bind, pure, Except.pure]
  have hafter : (∃ r', r₁.setAxis i y = .ok r') ↔
      ∃ span', y.resolve (span.greatest n) m = .ok span' := by
    rw [htrace, setAxis_lengthened hi hn hlimit, hgoes]
  have halone : (∃ r', r.setAxis i y = .ok r') ↔ ∃ span, y.resolve n m = .ok span := by
    rw [setAxis_eq hi hn (hlimit n), hgoes]
  refine ⟨n, span.greatest n, m, hn, hn₁, hm, hgrown, Slice.greatest_le_of_resolve hspan hle,
    ⟨span, hspan, rfl⟩, htrace y, ?_, hafter, halone, fun hindex hstep => ?_⟩
  · rw [htrace]
    exact toOption_setAxis_lengthened_iff hi hn hlimit hgrown
  · rw [hafter, halone]
    rcases hgrown.eq_or_lt with hstays | hgrows
    · rw [← hstays]
    · have hhalf := Slice.greatest_lt_half hspan hgrows
      rw [Slice.exists_resolve_iff_step_ne hindex hstep hhalf,
        Slice.exists_resolve_iff_step_ne hindex hstep (hgrows.trans hhalf)]

/-- A slice beyond the end of a pair, and one that reaches further: the first of them leaves no
trace. -/
theorem last_slice_wins_iff_reaching : ∃ r r₁, ofSlicesWithin [2, 3] [10, 3] [.all] = .ok r ∧
    r.setAxis 0 (.between 4 6) = .ok r₁ ∧ r₁.source = [6, 3] ∧
      (r₁.setAxis 0 (.range (some 1) (some 9) 3)).toOption =
        (r.setAxis 0 (.range (some 1) (some 9) 3)).toOption := by
  have hr : ofSlicesWithin [2, 3] [10, 3] [.all] =
      .ok ⟨[2, 3], some [10, 3], [.full 2, .full 3], false, .none⟩ := by decide
  have hx : setAxis ⟨[2, 3], some [10, 3], [.full 2, .full 3], false, .none⟩ 0 (.between 4 6) =
      .ok ⟨[6, 3], some [10, 3], [⟨4, 6, 1, 2⟩, .full 3], true, .none⟩ := by decide
  obtain ⟨n, n₁, m, hn, hn₁, hm, -, -, -, -, hiff, -⟩ :=
    last_slice_wins_iff hr hx (.range (some 1) (some 9) 3)
  cases hn
  cases hn₁
  cases hm
  refine ⟨_, _, hr, hx, rfl, hiff.mpr (.inr (.inr ?_))⟩
  exact ⟨⟨1, 9, 3, 3⟩, by decide, by decide, by decide⟩

/-- A pair that grew for a slice beyond its end stays grown, though nothing is selected there any
more. -/
theorem earlier_slice_leaves_growth : ∃ r r₁ r₂ alone, ofSlicesWithin [2] [10] [] = .ok r ∧
    r.setAxis 0 (.between 5 8) = .ok r₁ ∧ r₁.setAxis 0 (.between 0 1) = .ok r₂ ∧
      r.setAxis 0 (.between 0 1) = .ok alone ∧ r₂.spans = alone.spans ∧
      r₂.source = [8] ∧ alone.source = [2] ∧ r₂.expanded = true ∧ alone.expanded = false :=
  ⟨⟨[2], some [10], [.full 2], false, .none⟩, ⟨[8], some [10], [⟨5, 8, 1, 3⟩], true, .none⟩,
    ⟨[8], some [10], [⟨0, 1, 1, 1⟩], true, .none⟩, ⟨[2], some [10], [⟨0, 1, 1, 1⟩], false, .none⟩,
    by decide, by decide, by decide, by decide, rfl, rfl, rfl, rfl, rfl⟩

end Region

end Hyperslab
