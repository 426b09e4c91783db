import Hyperslab.Proofs.Region

/-!
# The slices of a region

A region remembers one span per axis, with the stop of the slice that it was made of. Taken as a
slice of the axis again, a span selects the same positions: its stop lies behind its last position,
by no more than a step. So what follows a region axis by axis selects what the region selects.
-/
namespace Hyperslab

open List Word

/-! ## Counting steps -/

namespace Slice

/-- The steps that are counted use the distance up, and the last of them starts before its end. -/
theorem steps_bounds {d step : Int} (hstep : 0 < step) (hcount : 0 < steps d step) :
    ((steps d step : Int) - 1) * step < d ∧ d ≤ steps d step * step := by
  have hlast := mul_lt_of_lt_steps hstep (Nat.sub_one_lt_of_lt hcount)
  rw [Nat.cast_sub hcount] at hlast
  refine ⟨hlast, ?_⟩
  unfold steps at hcount ⊢
  split at hcount
  · rename_i hd
    have hdiv := Int.lt_ediv_add_one_mul_self (d + step - 1) hstep
    have hnonneg : 0 ≤ (d + step - 1) / step := Int.ediv_nonneg (by omega) hstep.le
    rw [if_pos hd, Int.toNat_of_nonneg hnonneg]
    rw [add_mul] at hdiv
    omega
  · omega

/-- The number of steps that use a distance up, the last of them starting before its end. -/
theorem steps_eq {d step : Int} {n : Nat} (hstep : 0 < step) (hn : 0 < n)
    (hlast : ((n : Int) - 1) * step < d) (hle : d ≤ n * step) : steps d step = n := by
  have hd : 0 < d := lt_of_le_of_lt (mul_nonneg (by omega) hstep.le) hlast
  have hlower : (n : Int) ≤ (d + step - 1) / step := by
    rw [Int.le_ediv_iff_mul_le hstep]
    rw [sub_mul] at hlast
    omega
  have hupper : (d + step - 1) / step < (n : Int) + 1 := by
    rw [Int.ediv_lt_iff_lt_mul hstep, add_mul]
    omega
  rw [steps, if_pos hd]
  omega

end Slice

/-! ## Where spans end -/

namespace Span

/-- The stop lies behind the last position in the direction of the step, and no further than a step
behind it. It is exact where the number of positions is a signed word. -/
structure Ends (s : Span) : Prop where
  forward : 0 < s.count → s.count < Word.half → 0 < s.step →
    s.last < s.stop ∧ s.stop ≤ s.last + s.step
  backward : 0 < s.count → s.count < Word.half → s.step < 0 →
    s.last + s.step ≤ s.stop ∧ s.stop < s.last

theorem ends_of_stop_eq {s : Span} (h : s.count < half → 0 < s.count →
    s.stop = s.last + s.step) : s.Ends where
  forward hpos hlt hstep := by
    omega
  backward hpos hlt hstep := by
    omega

theorem ends_full (n : Nat) : (full n).Ends := by
  refine ends_of_stop_eq fun hlt _ => ?_
  have hlt : n < half := hlt
  simp only [full, last, signed_of_lt hlt]
  omega

theorem Ends.flip {s : Span} (h : s.Ends) : s.flip.Ends := by
  unfold Span.flip
  split
  · refine ends_of_stop_eq fun _ _ => ?_
    simp only [last]
    ring
  · exact h

theorem ends_compose (outer inner : Span) : (compose outer inner).Ends := by
  refine ends_of_stop_eq fun hlt _ => ?_
  have hlt : inner.count < half := hlt
  simp only [compose, last, signed_of_lt hlt]
  ring

end Span

namespace Slice

variable {s : Slice} {length limit : Nat} {i : Int} {span : Span}

/-- A resolved slice ends where it was cut off, and a forward one ends within the limit. -/
theorem ends_of_resolve (h : s.resolve length limit = .ok span) :
    span.Ends ∧ (0 < span.count → 0 < span.step → span.last < limit) := by
  obtain ⟨hstep, -, rfl⟩ := resolve_eq_ok h
  have hhalf : (0 : Int) ≤ half - 1 := by decide
  generalize signed length = len
  have hlim : (0 : Int) ≤ min (limit : Int) (half - 1) := le_min (Int.natCast_nonneg _) hhalf
  have hle : min (limit : Int) (half - 1) ≤ limit := min_le_left _ _
  generalize min (limit : Int) (half - 1) = lim at hlim hle
  by_cases hpos : 0 < s.step
  · have hstop := (clamp_le (s.stop.elim len (wrap len)) hlim).trans hle
    simp only [span, if_pos hpos]
    generalize clamp 0 lim (s.start.elim 0 (wrap len)) = start
    generalize clamp 0 lim (s.stop.elim len (wrap len)) = stop at hstop ⊢
    have hlast (hcount : 0 < steps (stop - start) s.step) :
        start + (steps (stop - start) s.step - 1) * s.step < stop ∧
          stop ≤ start + (steps (stop - start) s.step - 1) * s.step + s.step := by
      obtain ⟨hlast, hupper⟩ := steps_bounds hpos hcount
      rw [sub_mul] at hlast ⊢
      omega
    exact ⟨⟨fun hcount _ _ => hlast hcount, fun _ _ hneg => absurd hneg hpos.not_gt⟩,
      fun hcount _ => (hlast hcount).1.trans_le hstop⟩
  · simp only [span, if_neg hpos]
    have hneg : 0 < -s.step := by omega
    refine ⟨⟨fun _ _ h => absurd h hpos, fun hcount _ _ => ?_⟩, fun _ h => absurd h hpos⟩
    obtain ⟨hlast, hupper⟩ := steps_bounds hneg hcount
    simp only [Span.last]
    rw [sub_mul] at hlast ⊢
    rw [mul_neg] at hlast hupper
    omega

theorem stays_of_resolve (h : s.resolve length length = .ok span) :
    ¬ (span.count ≠ 0 && 0 < span.step && (length : Int) ≤ span.last) := by
  simp only [Bool.and_eq_true, decide_eq_true_eq]
  rintro ⟨⟨hcount, hstep⟩, hle⟩
  have := (ends_of_resolve h).2 (Nat.pos_of_ne_zero hcount) hstep
  omega

theorem clamp_of_mem {lo hi z : Int} (hlo : lo ≤ z) (hhi : z ≤ hi) : clamp lo hi z = z := by
  rw [clamp, if_neg (by omega), if_neg (by omega)]

theorem wrap_of_nonneg {len z : Int} (h : 0 ≤ z) : wrap len z = z := by
  rw [wrap, if_neg (by omega)]

theorem checks_of_resolve (h : s.resolve length limit = .ok span) :
    s.stops (signed length) = false ∧ ∀ i ∈ s.index?, 0 ≤ wrap (signed length) i ∧
      wrap (signed length) i < min (limit : Int) (half - 1) := by
  simp only [resolve] at h
  split at h
  · cases h
  split at h
  · split at h <;> cases h
  rename_i hindex
  split at h
  · cases h
  rename_i hstops
  refine ⟨by simpa using hstops, fun i hi => ?_⟩
  rw [Option.mem_def] at hi
  have hinside : 0 ≤ wrap (signed length) i ∧ wrap (signed length) i < limit ∧
      wrap (signed length) i + 1 < half := by
    simpa [hi] using hindex
  omega

theorem span_index {len lim : Int} (hnonneg : 0 ≤ wrap len i) (hlt : wrap len i < lim) :
    (index i).span len lim = ⟨wrap len i, wrap len i + 1, 1, 1⟩ := by
  have hstart : clamp 0 lim (wrap len i) = wrap len i := clamp_of_mem hnonneg hlt.le
  have hstop : clamp 0 lim ((index i).stop.elim len (wrap len)) = wrap len i + 1 := by
    have hnext : (index i).stop.elim len (wrap len) = wrap len i + 1 := by
      by_cases hi : i = -1
      · subst hi
        simp [index, wrap]
      · simp only [index, if_neg hi, Option.elim_some, wrap]
        split <;> split <;> omega
    rw [hnext, clamp_of_mem (by omega) (by omega)]
  change (⟨clamp 0 lim (wrap len i), clamp 0 lim ((index i).stop.elim len (wrap len)), 1,
    steps (clamp 0 lim ((index i).stop.elim len (wrap len)) - clamp 0 lim (wrap len i)) 1⟩ :
      Span) = _
  rw [hstart, hstop, add_sub_cancel_left]
  rfl

section

variable (h : (index i).resolve length limit = .ok span)
include h

private theorem span_of_index : (span.step = 1 ∧ 0 ≤ span.start) ∧ span.count = 1 := by
  obtain ⟨-, hindex⟩ := checks_of_resolve h
  obtain ⟨-, -, rfl⟩ := resolve_eq_ok h
  obtain ⟨hnonneg, hlt⟩ := hindex i rfl
  rw [span_index hnonneg hlt]
  exact ⟨⟨rfl, hnonneg⟩, rfl⟩

theorem forward_of_index :
    span.step = 1 ∧ 0 ≤ span.start := (span_of_index h).1

theorem count_of_index : span.count = 1 := (span_of_index h).2

end

theorem stops_natCast (s : Slice) (n : Nat) : s.stops n = false := by
  simp [stops]

/-- Past the checks, a slice is resolved unless the opposite of its step is needed and is no
word. -/
theorem resolve_of_checks (hstep : s.step ≠ 0) (hstops : s.stops (signed length) = false)
    (hindex : ∀ i ∈ s.index?, 0 ≤ wrap (signed length) i ∧
      wrap (signed length) i < min (limit : Int) (half - 1)) :
    s.resolve length limit =
      let span := s.span (signed length) (min (limit : Int) (half - 1))
      if span.count ≠ 0 ∧ ¬ fits (-s.step) = true then .error (.fault .overflow)
      else .ok span := by
  have hnone : (s.index?.filter fun i => ¬ (0 ≤ wrap (signed length) i ∧
      wrap (signed length) i < min (limit : Int) (half - 1))) = none :=
    Option.filter_eq_none_iff.mpr fun i hi => by simp only [hindex i hi]; simp
  simp only [resolve, if_neg hstep, hstops, hnone]
  rfl

/-- A slice that goes forward on an axis, between bounds on it. -/
theorem resolve_forward {start stop : Option Int} {lo hi k n : Nat} (hn : n < half)
    (hk : 0 < k) (hfit : k ≤ half) (hstart : clamp 0 n (start.elim 0 (wrap n)) = lo)
    (hstop : clamp 0 n (stop.elim (n : Int) (wrap n)) = hi) :
    (range start stop k).resolve n n = .ok ⟨lo, hi, k, steps (hi - lo) k⟩ := by
  have hsigned := signed_of_lt hn
  have hlim : min (n : Int) (half - 1) = n := by omega
  have hpos : (0 : Int) < k := by exact_mod_cast hk
  have hspan : (range start stop k).span n n = ⟨lo, hi, k, steps (hi - lo) k⟩ := by
    simp only [range, span, if_pos hpos, hstart, hstop]
  have hfits : fits (-(k : Int)) := by
    simp only [fits, Bool.and_eq_true, decide_eq_true_eq]
    omega
  rw [resolve_of_checks hpos.ne' (hsigned ▸ stops_natCast _ n) (by rintro i ⟨⟩), hsigned, hlim,
    hspan]
  exact if_neg fun hnot => hnot.2 hfits

theorem resolve_unit {start stop : Option Int} {lo hi n : Nat} (hn : n < half) (hle : lo ≤ hi)
    (hstart : clamp 0 n (start.elim 0 (wrap n)) = lo)
    (hstop : clamp 0 n (stop.elim (n : Int) (wrap n)) = hi) :
    (range start stop 1).resolve n n = .ok ⟨lo, hi, 1, hi - lo⟩ := by
  have hsteps : steps (hi - lo) 1 = hi - lo := by
    unfold steps
    split <;> omega
  rw [← hsteps]
  exact resolve_forward hn Nat.one_pos (Nat.zero_lt_of_lt hn) hstart hstop

theorem clamp_wrap_signed {c n : Nat} (hc : c ≤ n) (hn : n < half) :
    clamp 0 n (wrap n (signed c)) = c := by
  rw [signed_of_lt (hc.trans_lt hn), wrap_of_nonneg (Int.natCast_nonneg c)]
  exact clamp_of_mem (Int.natCast_nonneg c) (by exact_mod_cast hc)

theorem resolve_between {lo hi n : Nat} (hle : lo ≤ hi) (hhi : hi ≤ n) (hn : n < half) :
    (between lo hi).resolve n n = .ok ⟨lo, hi, 1, hi - lo⟩ :=
  resolve_unit hn hle (clamp_wrap_signed (hle.trans hhi) hn) (clamp_wrap_signed hhi hn)

theorem resolve_leading {n m : Nat} (hnm : n ≤ m) (hm : m < half) :
    (range none (some (signed n)) 1).resolve m m = .ok (Span.full n) := by
  have hfull : Span.full n = ⟨0, n, 1, n⟩ := by rw [Span.full, signed_of_lt (hnm.trans_lt hm)]
  rw [hfull]
  exact resolve_unit hm n.zero_le (clamp_of_mem le_rfl (Int.natCast_nonneg m))
    (clamp_wrap_signed hnm hm)

theorem resolve_all {n : Nat} (hn : n < half) : all.resolve n n = .ok (Span.full n) := by
  rw [Span.full, signed_of_lt hn]
  exact resolve_unit hn n.zero_le (clamp_of_mem le_rfl (Int.natCast_nonneg n))
    (clamp_of_mem (Int.natCast_nonneg n) le_rfl)

theorem resolve_index {i n : Nat} (hi : i < n) (hn : n < half) :
    (index (signed i)).resolve n n = .ok ⟨i, i + 1, 1, 1⟩ := by
  have hsigned := signed_of_lt hn
  have hlim : min (n : Int) (half - 1) = n := by omega
  have hwrap : wrap n (signed i) = i := by
    rw [signed_of_lt (hi.trans hn), wrap_of_nonneg (Int.natCast_nonneg i)]
  have hindex : ∀ j ∈ (index (signed i)).index?,
      0 ≤ wrap (signed n) j ∧ wrap (signed n) j < min (n : Int) (half - 1) := by
    rintro j ⟨⟩
    rw [hsigned]
    omega
  rw [resolve_of_checks one_ne_zero (hsigned ▸ stops_natCast _ n) hindex, hsigned,
    span_index (by omega) (by omega), hwrap]
  rfl

/-- The slice of a span, whose stop is left out if it is in front of the axis. -/
def ofSpan (s : Span) : Slice :=
  range (some s.start) (if s.stop < 0 then none else some s.stop) s.step

/-- **A span that is taken as a slice of its axis selects the same positions again.** -/
theorem span_ofSpan {s : Span} (hwithin : s.Within length) (hends : s.Ends) (hcount : 0 < s.count)
    (hlength : length < half) :
    ((ofSpan s).span length length).start = s.start ∧
      ((ofSpan s).span length length).step = s.step ∧
        ((ofSpan s).span length length).count = s.count := by
  have hlt : s.count < half := hwithin.count_le.trans_lt hlength
  have hfirst := hwithin.inside 0 hcount
  have hlast : 0 ≤ s.last ∧ s.last < length := by
    have := hwithin.inside (s.count - 1) (by omega)
    rwa [Span.coord, Nat.cast_sub hcount, Nat.cast_one] at this
  simp only [Span.coord, Nat.cast_zero, zero_mul, add_zero] at hfirst
  have hlasteq : s.last = s.start + (s.count - 1) * s.step := rfl
  by_cases hpos : 0 < s.step
  · obtain ⟨hbehind, hwithin⟩ := hends.forward hcount hlt hpos
    have hstop : ¬ s.stop < 0 := by omega
    have hstart : clamp 0 length (wrap length s.start) = s.start := by
      rw [wrap_of_nonneg hfirst.1, clamp_of_mem hfirst.1 hfirst.2.le]
    -- A stop past the axis is cut back, but not to the last position.
    have hcut : s.last < clamp 0 length s.stop ∧ clamp 0 length s.stop ≤ s.stop := by
      unfold clamp
      split <;> [skip; split] <;> omega
    simp only [span, ofSpan, range, if_pos hpos, if_neg hstop, Option.elim_some, hstart,
      wrap_of_nonneg (Int.not_lt.mp hstop), true_and]
    rw [sub_mul] at hlasteq
    exact steps_eq hpos hcount (by rw [sub_mul]; omega) (by omega)
  · have hneg : s.step < 0 := lt_of_le_of_ne (Int.not_lt.mp hpos) hwithin.step_ne
    obtain ⟨hwithin, hbehind⟩ := hends.backward hcount hlt hneg
    have hstart : clamp (-1) (length - 1) (wrap length s.start) = s.start := by
      rw [wrap_of_nonneg hfirst.1, clamp_of_mem (by omega) (by omega)]
    -- A stop in front of the axis is left out, which stands for the place before the first one.
    have hstop : clamp (-1) (length - 1) ((if s.stop < 0 then none else some s.stop).elim (-1)
        (wrap length)) = max (-1) s.stop := by
      split
      · rw [Option.elim_none, clamp_of_mem le_rfl (by omega)]
        omega
      · rw [Option.elim_some, wrap_of_nonneg (by omega), clamp_of_mem (by omega) (by omega)]
        omega
    simp only [span, ofSpan, range, if_neg hpos, Option.elim_some, hstart, true_and]
    rw [sub_mul] at hlasteq
    refine steps_eq (by omega) hcount ?_ ?_
    · rw [sub_mul, mul_neg]
      omega
    · rw [mul_neg]
      omega

theorem resolve_ofSpan {s t : Span} (hwithin : s.Within length) (hends : s.Ends)
    (hcount : 0 < s.count) (hlength : length < half)
    (h : (ofSpan s).resolve length length = .ok t) :
    t.start = s.start ∧ t.step = s.step ∧ t.count = s.count := by
  obtain ⟨-, -, rfl⟩ := resolve_eq_ok h
  have hlim : min (length : Int) (half - 1) = length := by omega
  rw [signed_of_lt hlength, hlim]
  exact span_ofSpan hwithin hends hcount hlength

end Slice

/-! ## The spans of regions -/

namespace Region

variable {r r' : Region} {axis : Nat} {slice : Slice} {slices : List Slice} {s : Shape}

theorem forall_spans_setAxis {P : Span → Prop} (hr : ∀ s ∈ r.spans, P s)
    (hP : ∀ length limit span, slice.resolve length limit = .ok span → P span)
    (h : r.setAxis axis slice = .ok r') : ∀ s ∈ r'.spans, P s := by
  obtain ⟨length, limit, span, -, hspan, rfl⟩ := setAxis_eq_ok h
  intro s hs
  rcases mem_or_eq_of_mem_set hs with hs | rfl
  · exact hr s hs
  · exact hP length limit s hspan

theorem ends_setAxes (hr : ∀ s ∈ r.spans, s.Ends)
    (h : r.setAxes slices = .ok r') : ∀ s ∈ r'.spans, s.Ends := by
  unfold setAxes at h
  split at h
  · simp at h
  · exact foldlM_induction (fun _ _ _ _ hb hstep =>
      forall_spans_setAxis hb (fun _ _ _ hspan => (Slice.ends_of_resolve hspan).1) hstep) hr h

theorem ends_full (s : Shape) : ∀ span ∈ (full s).spans, span.Ends := by
  intro span hspan
  obtain ⟨n, -, rfl⟩ := mem_map.mp hspan
  exact Span.ends_full n

/-- **The spans of a region end where they should, however it was made.** -/
theorem Built.ends (h : r.Built) : ∀ s ∈ r.spans, s.Ends := by
  induction h with
  | full s => exact ends_full s
  | @ofSlices s _ _ h => exact ends_setAxes (ends_full s) h
  | @ofSlicesWithin s limits slices r h =>
    unfold Region.ofSlicesWithin at h
    split at h
    · exact ends_setAxes (r := { Region.full s with limits := some limits }) (ends_full s) h
    · simp at h
  | @ofArrays s _ _ _ _ h =>
    simp only [Region.ofArrays, bind_eq_ok] at h
    obtain ⟨slices, -, h⟩ := h
    exact ends_setAxes (ends_full s) h
  | setAxis _ h ih =>
    exact forall_spans_setAxis ih (fun _ _ _ hspan => (Slice.ends_of_resolve hspan).1) h
  | flip _ h ih =>
    simp only [Region.flip, bind_eq_ok, pure_eq_ok] at h
    obtain ⟨a, -, rfl⟩ := h
    intro s hs
    obtain ⟨i, hi⟩ := mem_iff_getElem?.mp hs
    rw [getElem?_modify] at hi
    obtain ⟨span, hspan, rfl⟩ := Option.map_eq_some_iff.mp hi
    have hends := ih span (mem_of_getElem? hspan)
    split
    · exact hends.flip
    · exact hends
  | @compose outer inner r ho hi h _ _ =>
    rw [ho.valid.compose_eq hi.valid (compose_source h), Except.ok.injEq] at h
    subst h
    intro s hs
    obtain ⟨i, hlt, hget⟩ := mem_iff_getElem.mp hs
    rw [← hget, getElem_zipWith]
    exact Span.ends_compose _ _
  | permuted _ _ ih =>
    intro s hs
    obtain ⟨i, -, hi⟩ := mem_filterMap.mp hs
    exact ih s (mem_of_getElem? hi)

/-! ## One slice per axis -/

/-- A slice of one axis is put in the place of its span. Nothing may grow, so the rest stays. -/
private theorem setAxis_middle {t : Shape} {pre post : List Span} {span : Span} {n : Nat}
    (hpre : pre.length = s.length) (slice : Slice) :
    setAxis ⟨s ++ n :: t, none, pre ++ span :: post, false, .none⟩ pre.length slice =
      (do return ⟨s ++ n :: t, none, pre ++ (← slice.resolve n n) :: post, false, .none⟩) := by
  have hrank : ¬ rank ⟨s ++ n :: t, none, pre ++ span :: post, false, .none⟩ ≤ pre.length := by
    simp [rank]
  have hentry : entry (s ++ n :: t) pre.length = .ok n := by simp [entry, hpre]
  simp only [setAxis, if_neg hrank, hentry, limit, Option.elim_none, ok_bind]
  refine bind_congr_ok fun new hnew => ?_
  simp only [Slice.stays_of_resolve hnew]
  simp

private theorem foldlM_middle {t : Shape} {pre : List Span}
    (hpre : pre.length = s.length) (hlength : slices.length ≤ t.length) :
    (slices.zipIdx pre.length).foldlM (fun r p => setAxis r p.2 p.1)
        ⟨s ++ t, none, pre ++ t.map Span.full, false, .none⟩ = do
      let spans ← (slices.zip t).mapM fun (x : Slice × Nat) => x.1.resolve x.2 x.2
      return ⟨s ++ t, none, pre ++ (spans ++ (t.drop slices.length).map Span.full), false,
        .none⟩ := by
  induction slices generalizing s t pre with
  | nil => rfl
  | cons slice slices ih =>
    obtain ⟨n, t, rfl⟩ := exists_cons_of_length_pos (Nat.zero_lt_of_lt hlength)
    simp only [zipIdx_cons, foldlM_cons, map_cons, setAxis_middle hpre,
      zip_cons_cons, mapM_cons, bind_assoc]
    refine bind_congr_ok fun new _ => ?_
    have := @ih (s ++ [n]) t (pre ++ [new]) (by simp [hpre]) (by simpa using hlength)
    simpa using this

/-- Slices of the first axes of a shape that cannot grow: each is resolved on its axis. -/
theorem ofSlices_eq (hlength : slices.length ≤ s.length) :
    ofSlices s slices = do
      let spans ← (slices.zip s).mapM fun (x : Slice × Nat) => x.1.resolve x.2 x.2
      return ⟨s, none, spans ++ (s.drop slices.length).map Span.full, false, .none⟩ := by
  have hrank : ¬ (full s).rank < slices.length := by simpa [rank, full] using hlength
  rw [ofSlices, setAxes, if_neg hrank]
  exact @foldlM_middle slices [] s [] rfl hlength

theorem exists_resolve_of_ofSlices (h : ofSlices s slices = .ok r) :
    r.source = s ∧ ∀ x ∈ slices.zip s, ∃ span, x.1.resolve x.2 x.2 = .ok span := by
  have hlength : slices.length ≤ s.length := by
    by_contra hlt
    rw [ofSlices, setAxes, if_pos (by simpa [rank, full] using hlt)] at h
    cases h
  simp only [ofSlices_eq hlength, bind_eq_ok, mapM_eq_ok, pure_eq_ok] at h
  obtain ⟨spans, hspans, rfl⟩ := h
  refine ⟨rfl, fun x hx => ?_⟩
  obtain ⟨i, hi, rfl⟩ := getElem_of_mem hx
  exact ⟨_, hspans.get hi (hspans.length_eq ▸ hi)⟩

theorem ofSlices_eq_ok (hlength : slices.length = s.length) (h : ofSlices s slices = .ok r) :
    r.source = s ∧ Forall₂ (fun (x : Slice × Nat) span => x.1.resolve x.2 x.2 = .ok span)
      (slices.zip s) r.spans := by
  simp only [ofSlices_eq hlength.le, bind_eq_ok, mapM_eq_ok, pure_eq_ok] at h
  obtain ⟨spans, hspans, rfl⟩ := h
  exact ⟨rfl, by simpa [hlength] using hspans⟩

/-- Slices that can be resolved on the axes of a shape make a region of it. -/
theorem ofSlices_of_resolve {spans : List Span} (hlength : slices.length = s.length)
    (h : Forall₂ (fun (x : Slice × Nat) span => x.1.resolve x.2 x.2 = .ok span)
      (slices.zip s) spans) : ofSlices s slices = .ok ⟨s, none, spans, false, .none⟩ := by
  rw [ofSlices_eq hlength.le, mapM_eq_ok.mpr h, hlength, drop_length, ok_bind, map_nil, append_nil]
  rfl

theorem setAxis_of_limits_none (hlimits : r.limits = none) (h : r.setAxis axis slice = .ok r') :
    ∃ n span, r.source[axis]? = some n ∧ slice.resolve n n = .ok span ∧
      r' = { r with spans := r.spans.set axis span } := by
  unfold Region.setAxis at h
  split at h
  · cases h
  simp only [limit, hlimits, Option.elim_none, bind_eq_ok, Except.ok.injEq, pure_eq_ok] at h
  obtain ⟨n, hn, _, rfl, span, hspan, rfl⟩ := h
  have hstays := Slice.stays_of_resolve hspan
  refine ⟨n, span, ?_, hspan, ?_⟩
  · unfold entry at hn
    split at hn <;> simp_all
  · simp only [hstays]
    simp [hlimits]

theorem along_eq_ok (h : along s axis slice = .ok r) : ∃ n span, (s : List Nat)[axis]? = some n ∧
      slice.resolve n n = .ok span ∧ r = ⟨s, none, (s.map Span.full).set axis span, false, .none⟩ :=
  setAxis_of_limits_none (r := full s) rfl h

theorem Valid.axisSlice_eq_ok (hr : r.Valid) {span : Span}
    (hspan : r.spans[axis]? = some span) : r.axisSlice axis = .ok (Slice.ofSpan span) := by
  have hstops : r.stops = r.spans.map Span.stop := by simp [stops, hr.spare, Spare.none]
  have hentry {α : Type} (f : Span → α) : entry (r.spans.map f) axis = .ok (f span) := by
    simp [entry, hspan]
  simp only [axisSlice, hr.starts_eq, hstops, hr.steps_eq, hentry]
  rfl

end Region

end Hyperslab
