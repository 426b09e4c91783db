import Hyperslab.Proofs.SliceRule

/-!
# Regions from their own slices

The slices of a region's axes, resolved on its source once more, are meant to give the region
back. A span keeps its bounds as it was left by slices, reversals and compositions, while a slice
counts a negative bound from the end of the axis. So an empty backward span that starts in front
of the axis may be read as one that starts near its end. Everything else is read as it was meant,
as long as lengths and the opposites of steps are words.
-/
namespace Hyperslab

open List Word

/-! ## Spans of an axis that cannot grow -/

namespace Span

variable {s : Span} {n : Nat}

/-- A span of an axis of length `n`. It starts on the axis or one step in front of it, also if it
is empty; an empty one stops where it starts or before. -/
structure Settled (s : Span) (n : Nat) : Prop where
  within : s.Within n
  ends : s.Ends
  forward : 0 < s.step → 0 ≤ s.start ∧ s.start - s.step < n
  backward : s.step < 0 → s.start < n ∧ 0 ≤ s.start - s.step
  empty_forward : s.count = 0 → 0 < s.step → 0 ≤ s.stop ∧ s.stop ≤ s.start
  empty_backward : s.count = 0 → s.step < 0 → s.start ≤ s.stop

theorem settled_full (n : Nat) : (full n).Settled n where
  within := within_full n
  ends := ends_full n
  forward _ := by
    simp only [full]
    omega
  backward h := absurd h Int.one_pos.not_gt
  empty_forward h _ := by
    obtain rfl : n = 0 := h
    decide
  empty_backward _ h := absurd h Int.one_pos.not_gt

theorem Within.ends_inside (h : s.Within n) (hcount : 0 < s.count) :
    (0 ≤ s.start ∧ s.start < n) ∧ 0 ≤ s.last ∧ s.last < n := by
  have hfirst := h.inside 0 hcount
  have hlast := h.inside (s.count - 1) (by omega)
  rw [coord, Nat.cast_sub hcount] at hlast
  rw [coord, Nat.cast_zero, zero_mul, add_zero] at hfirst
  exact ⟨hfirst, hlast⟩

theorem Settled.flip (h : s.Settled n) : s.flip.Settled n := by
  by_cases hflip : 0 < signed s.count
  · have hcount : 0 < s.count := by
      have := signed_le s.count
      omega
    have hinside := (h.within.ends_inside hcount).2
    have heq : s.flip = ⟨s.last, s.start - s.step, -s.step, s.count⟩ := if_pos hflip
    have hwithin := h.within.flip
    have hends := h.ends.flip
    rw [heq] at hwithin hends ⊢
    refine ⟨hwithin, hends, ?_, ?_, ?_, ?_⟩
    · intro hstep
      simp only at hstep ⊢
      omega
    · intro hstep
      simp only at hstep ⊢
      omega
    · intro hempty
      exact absurd hempty hcount.ne'
    · intro hempty
      exact absurd hempty hcount.ne'
  · rwa [Span.flip, if_neg hflip]

/-- Continued in either direction, a forward span stays behind the front of the axis from its
first position on, and before its end up to its last one. -/
theorem Settled.forward_bounds (h : s.Settled n) (hstep : 0 < s.step)
    (k : Int) : (0 ≤ k → 0 ≤ s.start + k * s.step) ∧ (k < s.count → s.start + k * s.step < n) := by
  obtain ⟨hstart, hfront⟩ := h.forward hstep
  constructor
  · intro hk
    have := mul_nonneg hk hstep.le
    omega
  · intro hk
    rcases Nat.eq_zero_or_pos s.count with hzero | hcount
    · have : k * s.step ≤ -1 * s.step := mul_le_mul_of_nonneg_right (by omega) hstep.le
      omega
    · have hlast := (h.within.ends_inside hcount).2.2
      have : k * s.step ≤ (s.count - 1) * s.step := mul_le_mul_of_nonneg_right (by omega) hstep.le
      rw [last] at hlast
      omega

/-- The same for a backward span, with the ends of the axis exchanged. -/
theorem Settled.backward_bounds (h : s.Settled n) (hstep : s.step < 0)
    (k : Int) : (0 ≤ k → s.start + k * s.step < n) ∧ (k < s.count → 0 ≤ s.start + k * s.step) := by
  obtain ⟨hstart, hfront⟩ := h.backward hstep
  constructor
  · intro hk
    have := mul_nonpos_of_nonneg_of_nonpos hk hstep.le
    omega
  · intro hk
    rcases Nat.eq_zero_or_pos s.count with hzero | hcount
    · have : -1 * s.step ≤ k * s.step := mul_le_mul_of_nonpos_right (by omega) hstep.le
      omega
    · have hlast := (h.within.ends_inside hcount).2.1
      have : (s.count - 1) * s.step ≤ k * s.step := mul_le_mul_of_nonpos_right (by omega) hstep.le
      rw [last] at hlast
      omega

private theorem start_sub_step_compose (outer inner : Span) :
    (compose outer inner).start - (compose outer inner).step =
      outer.start + (inner.start - inner.step) * outer.step := by
  simp only [compose]
  ring

/-- Where the inner span starts, and a step in front of it, the outer one leads. -/
theorem Settled.compose {outer inner : Span} (ho : outer.Settled n)
    (hi : inner.Settled outer.count) : (Span.compose outer inner).Settled n := by
  have hforward (hstep : 0 < outer.step * inner.step) : 0 ≤ outer.start + inner.start * outer.step ∧
        outer.start + (inner.start - inner.step) * outer.step < n := by
    rcases lt_or_gt_of_ne ho.within.step_ne with hneg | hpos
    · obtain ⟨hstart, hfront⟩ := hi.backward (neg_of_mul_pos_right hstep hneg.le)
      exact ⟨(ho.backward_bounds hneg _).2 hstart, (ho.backward_bounds hneg _).1 hfront⟩
    · obtain ⟨hstart, hfront⟩ := hi.forward (pos_of_mul_pos_right hstep hpos.le)
      exact ⟨(ho.forward_bounds hpos _).1 hstart, (ho.forward_bounds hpos _).2 hfront⟩
  have hbackward (hstep : outer.step * inner.step < 0) :
      outer.start + inner.start * outer.step < n ∧
        0 ≤ outer.start + (inner.start - inner.step) * outer.step := by
    rcases lt_or_gt_of_ne ho.within.step_ne with hneg | hpos
    · obtain ⟨hstart, hfront⟩ := hi.forward (pos_of_mul_neg_right hstep hneg.le)
      exact ⟨(ho.backward_bounds hneg _).1 hstart, (ho.backward_bounds hneg _).2 hfront⟩
    · obtain ⟨hstart, hfront⟩ := hi.backward (neg_of_mul_neg_right hstep hpos.le)
      exact ⟨(ho.forward_bounds hpos _).2 hstart, (ho.forward_bounds hpos _).1 hfront⟩
  -- An empty composition stops where it starts.
  have hstop (hcount : inner.count = 0) : (Span.compose outer inner).stop =
      (Span.compose outer inner).start := by
    simp [Span.compose, hcount, signed]
  refine ⟨ho.within.compose hi.within, ends_compose outer inner, ?_, ?_, ?_, ?_⟩
  · intro hstep
    rw [start_sub_step_compose]
    exact hforward hstep
  · intro hstep
    rw [start_sub_step_compose]
    exact hbackward hstep
  · intro hcount hstep
    rw [hstop hcount]
    exact ⟨(hforward hstep).1, le_rfl⟩
  · intro hcount hstep
    exact (hstop hcount).ge

end Span

namespace Slice

/-- A slice of an axis that cannot grow is resolved to a span of it. -/
theorem settled_of_resolve {x : Slice} {n : Nat} {span : Span} (h : x.resolve n n = .ok span) :
    span.Settled n := by
  have hwithin : span.Within n := by
    obtain ⟨hstep, hinside⟩ := resolve_inside h
    refine ⟨hstep, fun p hp => ⟨(hinside p hp).1, ?_⟩⟩
    have := (Span.greatest_le_iff.mp (greatest_le_of_resolve h le_rfl)).2 p hp
    omega
  have hends := (ends_of_resolve h).1
  obtain ⟨hstep, hlength, rfl⟩ := resolve_eq_ok h
  have hlim : (0 : Int) ≤ min (n : Int) (half - 1) := le_min (by omega) (by decide)
  have hle : min (n : Int) (half - 1) ≤ n := min_le_left _ _
  have hlen := signed_le n
  generalize signed n = len at *
  refine ⟨hwithin, hends, ?_, ?_, ?_, ?_⟩
  all_goals simp only [step_span]
  · intro hpos
    have hlower := clamp_ge (x.start.elim 0 (wrap len)) hlim
    have hupper := clamp_le (x.start.elim 0 (wrap len)) hlim
    simp only [span, if_pos hpos]
    omega
  · intro hneg
    have hlast : -1 ≤ len - 1 := by have := hlength hneg; omega
    have hlower := clamp_ge (x.start.elim (len - 1) (wrap len)) hlast
    have hupper := clamp_le (x.start.elim (len - 1) (wrap len)) hlast
    simp only [span, if_neg hneg.not_gt]
    omega
  · intro hcount hpos
    have hlower := clamp_ge (x.stop.elim len (wrap len)) hlim
    simp only [span, if_pos hpos] at hcount ⊢
    have hnone := (lt_steps_iff hpos).not.mp hcount.not_gt
    omega
  · intro hcount hneg
    simp only [span, if_neg hneg.not_gt] at hcount ⊢
    have hnone := (lt_steps_iff (neg_pos.mpr hneg)).not.mp hcount.not_gt
    omega

end Slice

/-! ## Regions of shapes that cannot grow -/

namespace Region

variable {r r' : Region}

/-- The regions that are made in shapes that cannot grow. -/
inductive Fixed : Region → Prop where
  | full (s : Shape) : Fixed (full s)
  | ofSlices {s : Shape} {slices : List Slice} {r : Region} : ofSlices s slices = .ok r → Fixed r
  | ofArrays {s : Shape} {start stop step : Option (List Int)} {r : Region} :
      ofArrays s start stop step = .ok r → Fixed r
  | setAxis {r r' : Region} {axis : Nat} {slice : Slice} :
      Fixed r → r.setAxis axis slice = .ok r' → Fixed r'
  | flip {r r' : Region} {axis : Int} : Fixed r → r.flip axis = .ok r' → Fixed r'
  | compose {outer inner r : Region} :
      Fixed outer → Fixed inner → outer.compose inner = .ok r → Fixed r

theorem Fixed.built (h : r.Fixed) : r.Built := by
  induction h with
  | full s => exact .full s
  | ofSlices h => exact .ofSlices h
  | ofArrays h => exact .ofArrays h
  | setAxis _ h ih => exact .setAxis ih h
  | flip _ h ih => exact .flip ih h
  | compose _ _ h iho ihi => exact .compose iho ihi h

/-- Every axis of a region that cannot grow has a span of it. -/
structure Steady (r : Region) : Prop where
  limits : r.limits = none
  settled : List.Forall₂ Span.Settled r.spans r.source

theorem steady_full (s : Shape) : (full s).Steady where
  limits := rfl
  settled := by
    rw [full, forall₂_map_left_iff, forall₂_same]
    exact fun n _ => Span.settled_full n

theorem Steady.setAxis {axis : Nat} {slice : Slice} (hr : r.Steady)
    (h : r.setAxis axis slice = .ok r') : r'.Steady := by
  obtain ⟨n, span, hn, hspan, rfl⟩ := setAxis_of_limits_none hr.limits h
  have hset : r.source.set axis n = r.source := by
    obtain ⟨hi, hget⟩ := List.getElem?_eq_some_iff.mp hn
    rw [← hget, set_getElem_self]
  refine ⟨hr.limits, ?_⟩
  rw [← hset]
  exact forall₂_set hr.settled fun _ => Slice.settled_of_resolve hspan

theorem Steady.setAxes {slices : List Slice} (hr : r.Steady)
    (h : r.setAxes slices = .ok r') : r'.Steady := by
  unfold Region.setAxes at h
  split at h
  · cases h
  · exact foldlM_induction (fun _ _ _ _ hb hstep => hb.setAxis hstep) hr h

theorem Steady.flip {axis : Int} (hr : r.Steady) (h : r.flip axis = .ok r') : r'.Steady := by
  simp only [Region.flip, bind_eq_ok, pure_eq_ok] at h
  obtain ⟨a, -, rfl⟩ := h
  exact ⟨hr.limits, forall₂_flip Span.Settled.flip hr.settled a⟩

theorem Steady.compose {outer inner : Region} (ho : outer.Steady) (hi : inner.Steady)
    (hov : outer.Valid) (hiv : inner.Valid) (h : outer.compose inner = .ok r) : r.Steady := by
  have hsource := compose_source h
  rw [hov.compose_eq hiv hsource, Except.ok.injEq] at h
  subst h
  refine ⟨rfl, forall₂_compose Span.Settled.compose ho.settled ?_⟩
  have hsettled := hi.settled
  rwa [hsource] at hsettled

/-- **A region that was made in a shape that cannot grow has settled spans.** -/
theorem Fixed.steady (h : r.Fixed) : r.Steady := by
  induction h with
  | full s => exact steady_full s
  | @ofSlices s _ _ h => exact (steady_full s).setAxes h
  | @ofArrays s _ _ _ _ h =>
    simp only [Region.ofArrays, bind_eq_ok] at h
    obtain ⟨slices, -, h⟩ := h
    exact (steady_full s).setAxes h
  | setAxis _ h ih => exact ih.setAxis h
  | flip _ h ih => exact ih.flip h
  | compose ho hi h iho ihi => exact iho.compose ihi ho.built.valid hi.built.valid h

end Region

/-! ## Spans that are read as they were meant -/

/-- What it takes to read a span as a slice of its axis again. -/
structure Span.Restates (s : Span) (n : Nat) : Prop where
  /-- Positions are counted with the opposite of the step. -/
  turns : 0 < s.count → Word.fits (-s.step) = true
  /-- An empty backward span that starts in front of the axis is read as one that starts as far
  from its end, and so it has to stop there. -/
  starts : s.count = 0 → s.step < 0 → 0 ≤ s.start ∨ s.start + n < 0 ∨ s.start + n ≤ s.stop
  /-- On an axis whose length is no signed word, only forward slices of its first part are read
  as they are written. -/
  short : Word.half ≤ n → 0 < s.step ∧ (s.count = 0 ∨ 0 ≤ s.stop ∧ s.last < Word.half - 1)

namespace Slice

variable {len : Int}

variable {s : Span} {n : Nat}

/-- A slice that passes the checks is resolved to `c` positions if it has that many, and if they
can be counted. -/
private theorem exists_resolve_iff {x : Slice} {c : Nat} (hstep : x.step ≠ 0)
    (hstops : x.stops (signed n) = false) (hindex : x.index? = none) :
    (∃ t, x.resolve n n = .ok t ∧ t.count = c) ↔
      (x.span (signed n) (min (n : Int) (half - 1))).count = c ∧ (0 < c → fits (-x.step)) := by
  rw [resolve_of_checks hstep hstops (by simp [hindex])]
  constructor
  · rintro ⟨t, ht, rfl⟩
    dsimp only at ht
    split at ht
    · cases ht
    · rename_i hfits
      cases ht
      exact ⟨rfl, fun hpos => by simpa using fun h => hfits ⟨hpos.ne', h⟩⟩
  · rintro ⟨rfl, hfits⟩
    exact ⟨_, if_neg fun h => h.2 (hfits (Nat.pos_of_ne_zero h.1)), rfl⟩

/-- Bounds that are not negative are cut off at the end of the axis only. -/
private theorem span_ofSpan_forward {lim : Int} (hpos : 0 < s.step)
    (hstart : 0 ≤ s.start) (hstop : 0 ≤ s.stop) :
    (ofSpan s).span len lim = ⟨min s.start lim, min s.stop lim, s.step,
      steps (min s.stop lim - min s.start lim) s.step⟩ := by
  have hclamp {z : Int} (hz : 0 ≤ z) : clamp 0 lim z = min z lim := by
    unfold clamp
    split <;> [skip; split] <;> omega
  simp only [span, ofSpan, range, if_pos hpos, if_neg hstop.not_gt, Option.elim_some,
    wrap_of_nonneg hstart, wrap_of_nonneg hstop, hclamp hstart, hclamp hstop]

private theorem count_span_ofSpan_forward {lim : Int} (hs : s.Settled n) (hcount : s.count = 0)
    (hpos : 0 < s.step) : ((ofSpan s).span len lim).count = 0 := by
  obtain ⟨hstop, hle⟩ := hs.empty_forward hcount hpos
  rw [span_ofSpan_forward hpos (hstop.trans hle) hstop]
  exact if_neg (by omega)

/-- An empty backward span is read as an empty one, unless it starts in front of the axis and is
read as one that starts behind its own stop. -/
private theorem count_span_ofSpan_backward (hs : s.Settled n) (hcount : s.count = 0)
    (hneg : s.step < 0) : ((ofSpan s).span n n).count = 0 ↔
      0 ≤ s.start ∨ s.start + n < 0 ∨ s.start + n ≤ s.stop := by
  obtain ⟨hlt, hfront⟩ := hs.backward hneg
  have hle := hs.empty_backward hcount hneg
  have hsteps (d : Int) : steps d (-s.step) = 0 ↔ d ≤ 0 := by
    have := (lt_steps_iff (d := d) (k := 0) (neg_pos.mpr hneg))
    omega
  have hnot : ¬ 0 < (ofSpan s).step := by
    change ¬ 0 < s.step
    omega
  have hspan : ((ofSpan s).span n n).count = steps (clamp (-1) (n - 1) (wrap n s.start) -
      clamp (-1) (n - 1) ((if s.stop < 0 then none else some s.stop).elim (-1) (wrap n)))
        (-s.step) := by
    rw [span, if_neg hnot]
    rfl
  have hstop : clamp (-1) (n - 1) ((if s.stop < 0 then none else some s.stop).elim (-1) (wrap n)) =
      max (-1) (min ((n : Int) - 1) s.stop) := by
    by_cases hstop : s.stop < 0
    · rw [if_pos hstop, Option.elim_none, clamp_of_mem le_rfl (by omega)]
      omega
    · rw [if_neg hstop, Option.elim_some, wrap_of_nonneg (by omega), clamp]
      split <;> [skip; split] <;> omega
  rw [hspan, hsteps]
  by_cases hfirst : s.start < 0
  · rw [wrap, clamp]
    split <;> [skip; split] <;> omega
  · rw [wrap_of_nonneg (by omega), clamp_of_mem (by omega) (by omega)]
    omega

/-- On an axis whose length is no signed word, a forward span is read as it was meant if it stops
behind its last position and ends in the first part of the axis. -/
private theorem count_span_ofSpan_long (hs : s.Settled n) (hcount : 0 < s.count) (hpos : 0 < s.step)
    (hlen : len < 0) :
    ((ofSpan s).span len (half - 1)).count = s.count ↔ 0 ≤ s.stop ∧ s.last < half - 1 := by
  have hstart := (hs.within.ends_inside hcount).1.1
  have hle : s.start ≤ s.last := by simpa [Span.coord] using Span.coord_le_last hpos hcount
  have hlast : s.last = s.start + (s.count * s.step - s.step) := by
    rw [Span.last, sub_mul, one_mul]
  by_cases hstop : s.stop < 0
  · -- The length of the axis, which is negative, stands for the stop that is left out.
    have hnone : ((ofSpan s).span len (half - 1)).count = 0 := by
      have hspan : ((ofSpan s).span len (half - 1)).count =
          steps (clamp 0 (half - 1) len - clamp 0 (half - 1) (wrap len s.start)) s.step := by
        rw [span, if_pos (show 0 < (ofSpan s).step from hpos)]
        simp only [ofSpan, if_pos hstop]
        rfl
      have hfront := clamp_ge (wrap len s.start) (show (0 : Int) ≤ half - 1 by decide)
      rw [hspan, clamp]
      exact if_neg (by omega)
    omega
  rw [span_ofSpan_forward hpos hstart (by omega)]
  constructor
  · intro hsteps
    have hsteps : steps (min s.stop (half - 1) - min s.start (half - 1)) s.step = s.count := hsteps
    have hlt := (steps_bounds hpos (hcount.trans_eq hsteps.symm)).1
    rw [hsteps, sub_mul] at hlt
    have hnonneg : 0 ≤ (s.count - 1 : Int) * s.step := mul_nonneg (by omega) hpos.le
    omega
  · rintro ⟨-, hlt⟩
    have hshort : s.count < half := by
      have : (s.count - 1 : Int) * 1 ≤ (s.count - 1) * s.step :=
        mul_le_mul_of_nonneg_left (by omega) (by omega)
      rw [sub_mul _ _ s.step] at this
      omega
    obtain ⟨hbehind, hwithin⟩ := hs.ends.forward hcount hshort hpos
    refine steps_eq hpos hcount ?_ (by omega)
    rw [sub_mul]
    omega

private theorem stops_ofSpan_forward (hs : s.Settled n) (hpos : 0 < s.step) :
    (ofSpan s).stops len = false := by
  have hstart := (hs.forward hpos).1
  have hneg : ¬ s.step < 0 := by omega
  by_cases hstop : s.stop < 0
  · simp [stops, ofSpan, range, hstart, hneg, hstop]
  · simp [stops, ofSpan, range, hstart, hneg, hstop]

private theorem not_resolve_of_long {x : Slice} {t : Span} (hhalf : half ≤ n)
    (hn : n < modulus) (hneg : x.step < 0) : x.resolve n n ≠ .ok t := by
  intro h
  have hsigned := (resolve_eq_ok h).2.1 hneg
  rw [signed_of_le hhalf hn] at hsigned
  omega

/-- **When a span is read as it was meant.** -/
theorem resolve_ofSpan_iff (hs : s.Settled n) (hn : n < modulus) :
    (∃ t, (ofSpan s).resolve n n = .ok t ∧ t.count = s.count) ↔ s.Restates n := by
  have hstep : (ofSpan s).step ≠ 0 := hs.within.step_ne
  by_cases hhalf : n < half
  · have hsigned := signed_of_lt hhalf
    have hlim : min (n : Int) (half - 1) = n := by omega
    rw [exists_resolve_iff hstep (hsigned ▸ stops_natCast _ n) rfl, hsigned, hlim]
    constructor
    · rintro ⟨hcount, hturns⟩
      refine ⟨hturns, fun hzero hneg => ?_, fun hle => absurd hhalf hle.not_gt⟩
      exact (count_span_ofSpan_backward hs hzero hneg).mp (hcount.trans hzero)
    · rintro ⟨hturns, hstarts, -⟩
      refine ⟨?_, hturns⟩
      rcases Nat.eq_zero_or_pos s.count with hzero | hcount
      · rw [hzero]
        rcases lt_or_gt_of_ne hs.within.step_ne with hneg | hpos
        · exact (count_span_ofSpan_backward hs hzero hneg).mpr (hstarts hzero hneg)
        · exact count_span_ofSpan_forward hs hzero hpos
      · exact (span_ofSpan hs.within hs.ends hcount hhalf).2.2
  rcases lt_or_gt_of_ne hs.within.step_ne with hneg | hpos
  · constructor
    · rintro ⟨t, ht, -⟩
      exact absurd ht (not_resolve_of_long (not_lt.mp hhalf) hn hneg)
    · intro h
      exact absurd (h.short (not_lt.mp hhalf)).1 (by omega)
  · have hsigned : signed n < 0 := by
      rw [signed_of_le (not_lt.mp hhalf) hn]
      omega
    have hlim : min (n : Int) (half - 1) = half - 1 := by omega
    rw [exists_resolve_iff hstep (stops_ofSpan_forward hs hpos) rfl, hlim]
    constructor
    · rintro ⟨hcount, hturns⟩
      refine ⟨hturns, fun _ hneg => absurd hneg (by omega), fun _ => ⟨hpos, ?_⟩⟩
      rcases Nat.eq_zero_or_pos s.count with hzero | hpositions
      · exact .inl hzero
      · exact .inr ((count_span_ofSpan_long hs hpositions hpos hsigned).mp hcount)
    · rintro ⟨hturns, -, hshort⟩
      refine ⟨?_, hturns⟩
      rcases Nat.eq_zero_or_pos s.count with hzero | hpositions
      · rw [hzero]
        exact count_span_ofSpan_forward hs hzero hpos
      · refine (count_span_ofSpan_long hs hpositions hpos hsigned).mpr ?_
        exact (hshort (not_lt.mp hhalf)).2.resolve_left hpositions.ne'

theorem coord_of_resolve_ofSpan {t : Span} {p : Nat} (hs : s.Settled n) (hrestates : s.Restates n)
    (h : (ofSpan s).resolve n n = .ok t) (hp : p < s.count) : t.coord p = s.coord p := by
  have hcount : 0 < s.count := by omega
  by_cases hhalf : n < half
  · obtain ⟨hstart, hstep, -⟩ := resolve_ofSpan hs.within hs.ends hcount hhalf h
    rw [Span.coord, Span.coord, hstart, hstep]
  · obtain ⟨hpos, hshort⟩ := hrestates.short (not_lt.mp hhalf)
    obtain ⟨hstop, hlast⟩ := hshort.resolve_left hcount.ne'
    obtain ⟨-, -, rfl⟩ := resolve_eq_ok h
    have hstart := (hs.forward hpos).1
    have hle : s.start ≤ s.last := by simpa [Span.coord] using Span.coord_le_last hpos hcount
    have hlim : min s.start (min (n : Int) (half - 1)) = s.start := by omega
    rw [span_ofSpan_forward hpos hstart hstop, hlim]
    rfl

end Slice

/-! ## Regions that are read as they were meant -/

namespace Region

variable {r : Region}

private theorem mapM_axisSlice (hr : r.Valid) :
    (range r.rank).mapM r.axisSlice = .ok (r.spans.map Slice.ofSpan) := by
  rw [mapM_eq_ok, forall₂_iff_get]
  refine ⟨by simp [rank], fun i hi hi' => ?_⟩
  have hspan : r.spans[i]? = some (r.spans.get ⟨i, by simpa using hi'⟩) := by simp
  simpa using hr.axisSlice_eq_ok hspan

/-- Spans that are read with as many positions as they have were read as they were meant. -/
private theorem forall₂_restates {spans ts : List Span} {s : Shape}
    (hsettled : Forall₂ Span.Settled spans s) (hs : ∀ n ∈ s, n < modulus)
    (h : Forall₂ (fun (x : Slice × Nat) t => x.1.resolve x.2 x.2 = .ok t)
      ((spans.map Slice.ofSpan).zip s) ts) (hshape : ts.map Span.count = spans.map Span.count) :
    Forall₂ Span.Restates spans s := by
  induction hsettled generalizing ts with
  | nil => exact .nil
  | cons hspan _ ih =>
    cases h with
    | cons ht h =>
      obtain ⟨hcount, hshape⟩ := cons_eq_cons.mp hshape
      obtain ⟨hn, hs⟩ := forall_mem_cons.mp hs
      exact .cons ((Slice.resolve_ofSpan_iff hspan hn).mp ⟨_, ht, hcount⟩) (ih hs h hshape)

private theorem exists_restated {spans : List Span} {s : Shape}
    (hsettled : Forall₂ Span.Settled spans s) (hs : ∀ n ∈ s, n < modulus)
    (hrestates : Forall₂ Span.Restates spans s) :
    ∃ ts, Forall₂ (fun (x : Slice × Nat) t => x.1.resolve x.2 x.2 = .ok t)
        ((spans.map Slice.ofSpan).zip s) ts ∧ ts.map Span.count = spans.map Span.count ∧
      ∀ p, Shape.contains (spans.map Span.count) p →
        zipWith Span.coord ts p = zipWith Span.coord spans p := by
  induction hsettled with
  | nil => exact ⟨[], .nil, rfl, by simp⟩
  | cons hspan _ ih =>
    obtain ⟨hn, hs⟩ := forall_mem_cons.mp hs
    cases hrestates with
    | cons hrestate hrestates =>
      obtain ⟨ts, hts, hshape, hcoords⟩ := ih hs hrestates
      obtain ⟨t, ht, hcount⟩ := (Slice.resolve_ofSpan_iff hspan hn).mpr hrestate
      refine ⟨t :: ts, .cons ht hts, by rw [map_cons, map_cons, hcount, hshape], ?_⟩
      intro p hp
      obtain ⟨i, q, rfl, hi, hq⟩ := Shape.exists_of_contains_cons hp
      rw [zipWith_cons_cons, zipWith_cons_cons, hcoords q hq,
        Slice.coord_of_resolve_ofSpan hspan hrestate ht hi]

/-- **The slices of a region's axes give the region back exactly when every span is read as it was
meant.** They can always be asked for. Resolved on the source again, they make a region of the
same shape that leads to the same positions if every axis `Restates` its span, and otherwise they
are refused or make a region of another shape. -/
theorem own_slices_restate_iff {r : Region} (hr : r.Fixed)
    (hsource : ∀ n ∈ r.source, n < Word.modulus) :
    ∃ slices, (List.range r.rank).mapM r.axisSlice = .ok slices ∧
      ((∃ t, ofSlices r.source slices = .ok t ∧ t.shape = r.shape ∧
          ∀ p, r.shape.contains p = true → t.sourcePosition p = r.sourcePosition p) ↔
        List.Forall₂ Span.Restates r.spans r.source) := by
  have hvalid := hr.built.valid
  have hsettled := hr.steady.settled
  refine ⟨r.spans.map Slice.ofSpan, mapM_axisSlice hvalid, ?_⟩
  have hlength : (r.spans.map Slice.ofSpan).length = r.source.length := by
    rw [List.length_map, hsettled.length_eq]
  constructor
  · rintro ⟨t, ht, hshape, -⟩
    exact forall₂_restates hsettled hsource (ofSlices_eq_ok hlength ht).2 hshape
  · intro hrestates
    obtain ⟨ts, hts, hshape, hcoords⟩ := exists_restated hsettled hsource hrestates
    refine ⟨_, ofSlices_of_resolve hlength hts, hshape, fun p hp => ?_⟩
    exact congrArg (List.map Word.unsigned) (hcoords p hp)

private theorem fixed_everySixth : Fixed ⟨[10], none, [⟨6, -6, -6, 2⟩], false, .none⟩ := by
  have houter : ofSlices [10] [.range none none (-3)] =
      .ok ⟨[10], none, [⟨9, -1, -3, 4⟩], false, .none⟩ := by decide
  have hinner : ofSlices [4] [.range (some 1) none 2] =
      .ok ⟨[4], none, [⟨1, 4, 2, 2⟩], false, .none⟩ := by decide
  exact .compose (.ofSlices houter) (.ofSlices hinner) (by decide)

/-- Every other one of every third position, backwards: positions 6 and 0, with a stop far in front
of the axis. -/
theorem own_slices_restate_iff_composed :
    ∃ slices, (List.range 1).mapM (axisSlice ⟨[10], none, [⟨6, -6, -6, 2⟩], false, .none⟩) =
        .ok slices ∧
      ∃ t, ofSlices [10] slices = .ok t ∧ t.shape = [2] := by
  obtain ⟨slices, hslices, hiff⟩ := own_slices_restate_iff fixed_everySixth (by decide)
  have hrestates : Span.Restates ⟨6, -6, -6, 2⟩ 10 :=
    ⟨fun _ => by decide, fun h => absurd h (by decide), fun h => absurd h (by decide)⟩
  obtain ⟨t, ht, hshape, -⟩ := hiff.mpr (.cons hrestates .nil)
  exact ⟨slices, hslices, t, ht, hshape⟩

/-- Nothing is selected backwards from in front of the axis. Its slice selects all of the axis. -/
theorem empty_backward_slice_selects_all :
    ∃ r t, ofSlices [5] [.range (some (-10)) none (-1)] = .ok r ∧ r.shape = [0] ∧
      r.axisSlice 0 = .ok (.range (some (-1)) none (-1)) ∧
      ofSlices [5] [.range (some (-1)) none (-1)] = .ok t ∧ t.shape = [5] :=
  ⟨⟨[5], none, [⟨-1, -1, -1, 0⟩], false, .none⟩, ⟨[5], none, [⟨4, -1, -1, 5⟩], false, .none⟩,
    by decide, by decide, by decide, by decide, by decide⟩

end Region

end Hyperslab
