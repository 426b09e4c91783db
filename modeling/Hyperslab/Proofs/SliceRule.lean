import Hyperslab.Proofs.RegionSlices

/-!
# The rule of slices

A slice `start:stop:step` of an axis of length `n` is resolved by the rule of Python's slices: its
bounds are those of `slice(start, stop, step).indices(n)`, and it selects as many positions as
`range` has between them. An index selects one position, which has to be there. An axis that may
grow lets forward slices reach as far as it may become, and grows no further than to the greatest
position that is selected.

The rule is stated here in its own words, bound by bound, and not by cutting back.
-/
namespace Hyperslab

open List Word

/-! ## The rule -/

namespace Slice

/-- A bound on an axis of length `n`. A negative one counts from the end and is at least `lower`,
any other one is at most `upper`; `missing` stands for one that is left out. -/
def bound (n lower upper missing : Int) : Option Int → Int
  | none => missing
  | some i => if i < 0 then max (i + n) lower else min i upper

/-- The start and the stop of `start:stop:step` on an axis of length `n`. A forward slice reaches as
far as `limit`, which is `n` for an axis that cannot grow. -/
def indices (start stop : Option Int) (step : Int) (n limit : Nat) : Int × Int :=
  if step < 0 then (bound n (-1) (n - 1) (n - 1) start, bound n (-1) (n - 1) (-1) stop)
  else (bound n 0 limit 0 start, bound n 0 limit n stop)

/-- The number of positions `start`, `start + step` and so on before `stop`. -/
def rangeLength (start stop step : Int) : Nat :=
  if step < 0 then if stop < start then ((start - stop - 1) / -step + 1).toNat else 0
  else if start < stop then ((stop - start - 1) / step + 1).toNat else 0

/-- The positions between the bounds of a slice. -/
def rangeSpan (x : Slice) (n limit : Nat) : Span :=
  let bounds := indices x.start x.stop x.step n limit
  ⟨bounds.1, bounds.2, x.step, rangeLength bounds.1 bounds.2 x.step⟩

/-- What the rule makes of a slice of an axis of length `n` that may grow to `limit`. -/
def ruled (x : Slice) (n limit : Nat) : Except Error Span :=
  if x.step = 0 then .error (.invalidSlice .zeroStep)
  else
    match x.index? with
    | some i =>
        let p := if i < 0 then i + n else i
        if 0 ≤ p ∧ p < limit then .ok ⟨p, p + 1, 1, 1⟩ else .error (.indexOutOfRange i n)
    | none => .ok (x.rangeSpan n limit)

/-- A slice as it is asked for: a range of words, or an index that has a word behind it. -/
inductive Requested : Slice → Prop where
  | range {start stop : Option Int} {step : Int} : (∀ z ∈ start, Word.fits z = true) →
      (∀ z ∈ stop, Word.fits z = true) → Word.fits step = true → Requested (range start stop step)
  | index {i : Int} : Word.fits i = true → i < Word.half - 1 → Requested (index i)

end Slice

namespace Span

/-- To count the positions of a backward span takes the opposite of its step, which for the least
word is none. -/
def counted (s : Span) : Except Error Span :=
  if s.count ≠ 0 ∧ s.step = -Word.half then .error (.fault .overflow) else .ok s

/-- The larger of `n` and one past the greatest position that the span selects. -/
def greatest (s : Span) (n : Nat) : Nat :=
  (List.range s.count).foldl (fun m p => max m ((s.coord p).toNat + 1)) n

end Span

namespace Region

/-- The spans that the rule gives to a shape whose axes may grow to `limits`: one slice for each
leading axis, and all of the others. -/
def ruledSpans (s limits : Shape) (slices : List Slice) : Except Error (List Span) :=
  if s.length < slices.length then .error (.invalidSlice (.tooMany slices.length s.length))
  else do
    let spans ← (slices.zip (s.zip limits)).mapM fun x => do (← x.1.ruled x.2.1 x.2.2).counted
    return spans ++ (s.drop slices.length).map Span.full

end Region

/-! ## Counting -/

namespace Slice

variable {step : Int} {k : Nat} {x : Slice}

theorem lt_steps_iff {d : Int} (hstep : 0 < step) : k < steps d step ↔ k * step < d := by
  refine ⟨mul_lt_of_lt_steps hstep, fun h => ?_⟩
  have hd : 0 < d := lt_of_le_of_lt (mul_nonneg (Int.natCast_nonneg k) hstep.le) h
  have hle : (k : Int) + 1 ≤ (d + step - 1) / step := by
    rw [Int.le_ediv_iff_mul_le hstep, add_mul]
    omega
  rw [steps, if_pos hd]
  omega

private theorem lt_quotient_iff {d : Int} (hstep : 0 < step) (hd : 0 < d) :
    k < ((d - 1) / step + 1).toNat ↔ k * step < d := by
  have hquotient : (k : Int) ≤ (d - 1) / step ↔ k * step ≤ d - 1 := Int.le_ediv_iff_mul_le hstep
  have hnonneg : 0 ≤ (d - 1) / step := Int.ediv_nonneg (by omega) hstep.le
  omega

/-- The positions of a range are those before its stop, in the direction of its step. -/
theorem lt_rangeLength_iff {start stop : Int} (hstep : step ≠ 0) :
    k < rangeLength start stop step ↔
      if step < 0 then stop < start + k * step else start + k * step < stop := by
  unfold rangeLength
  by_cases hneg : step < 0
  · rw [if_pos hneg]
    have hmul : (k : Int) * -step = -(k * step) := mul_neg ..
    have hnonneg : 0 ≤ (k : Int) * -step := mul_nonneg (by omega) (by omega)
    split
    · rw [lt_quotient_iff (by omega) (by omega)]
      omega
    · omega
  · rw [if_neg hneg]
    have hnonneg : 0 ≤ (k : Int) * step := mul_nonneg (by omega) (by omega)
    split
    · rw [lt_quotient_iff (by omega) (by omega)]
      omega
    · omega

/-- The steps between two bounds are the positions of their range. -/
theorem steps_eq_rangeLength {start stop : Int} (hstep : step ≠ 0) :
    (if 0 < step then steps (stop - start) step else steps (start - stop) (-step)) =
      rangeLength start stop step := by
  refine eq_of_forall_lt_iff fun k => ?_
  rw [lt_rangeLength_iff hstep]
  by_cases hpos : 0 < step
  · rw [if_pos hpos, if_neg (by omega), lt_steps_iff hpos]
    omega
  · rw [if_neg hpos, if_pos (by omega), lt_steps_iff (by omega), mul_neg]
    omega

/-! ## One axis -/

variable {n limit : Nat}

/-- Cutting a bound back gives the bound of the rule. What the two cut back to may differ beyond
every bound that is given. -/
private theorem clamp_eq_bound {lower lim upper missing : Int} {given : Option Int}
    (hlower : lower ≤ 0) (hmissing : lower ≤ missing ∧ missing ≤ lim) (hn : (n : Int) - 1 ≤ lim)
    (hgiven : ∀ z ∈ given, min z lim = min z upper) :
    clamp lower lim (given.elim missing (wrap n)) = bound n lower upper missing given := by
  cases given with
  | none => exact clamp_of_mem hmissing.1 hmissing.2
  | some z =>
    have hmin := hgiven z rfl
    simp only [Option.elim_some, wrap, bound]
    by_cases hz : z < 0
    · rw [clamp]
      split <;> [skip; split] <;> omega
    · rw [clamp]
      split <;> [skip; split] <;> omega

/-- The span of a slice has the bounds and the number of positions of the rule. -/
private theorem span_eq_rangeSpan (hn : n < half) (hlimit : n ≤ limit) (hstep : x.step ≠ 0)
    (hstart : ∀ z ∈ x.start, fits z) (hstop : ∀ z ∈ x.stop, fits z) :
    x.span n (min (limit : Int) (half - 1)) = x.rangeSpan n limit := by
  have hlim (z : Int) (hz : fits z) : min z (min (limit : Int) (half - 1)) = min z limit := by
    simp only [fits, Bool.and_eq_true, decide_eq_true_eq] at hz
    omega
  simp only [rangeSpan, ← steps_eq_rangeLength hstep]
  by_cases hpos : 0 < x.step
  · have hneg : ¬ x.step < 0 := by omega
    simp only [span, indices, if_pos hpos, if_neg hneg]
    rw [clamp_eq_bound le_rfl (by omega) (by omega) fun z hz => hlim z (hstart z hz),
      clamp_eq_bound le_rfl (by omega) (by omega) fun z hz => hlim z (hstop z hz)]
  · have hneg : x.step < 0 := by omega
    simp only [span, indices, if_neg hpos, if_pos hneg]
    rw [clamp_eq_bound (by omega) (by omega) le_rfl fun z _ => rfl,
      clamp_eq_bound (by omega) (by omega) le_rfl fun z _ => rfl]

private theorem resolve_range {start stop : Option Int} (hn : n < half)
    (hlimit : n ≤ limit) (hstep : step ≠ 0) (hstart : ∀ z ∈ start, fits z)
    (hstop : ∀ z ∈ stop, fits z) (hfits : fits step) :
    (range start stop step).resolve n limit =
      ((range start stop step).rangeSpan n limit).counted := by
  -- Of the words, only the least one has no opposite.
  have hleast : ¬ fits (-step) ↔ step = -half := by
    simp only [fits, Bool.and_eq_true, decide_eq_true_eq] at hfits ⊢
    omega
  have hsigned := signed_of_lt hn
  rw [resolve_of_checks hstep (hsigned ▸ stops_natCast _ n) (by rintro i ⟨⟩), hsigned,
    span_eq_rangeSpan hn hlimit hstep hstart hstop]
  exact if_congr (and_congr_right fun _ => hleast) rfl rfl

private theorem resolve_index_eq_ite {i : Int} (hn : n < half) (hfits : fits i)
    (hlt : i < half - 1) :
    (index i).resolve n limit =
      if 0 ≤ wrap n i ∧ wrap n i < limit then .ok ⟨wrap n i, wrap n i + 1, 1, 1⟩
      else .error (.indexOutOfRange i n) := by
  have hwrap : wrap n i < half - 1 := by
    rw [wrap]
    split <;> omega
  have hstep : (index i).step ≠ 0 := one_ne_zero
  by_cases hi : 0 ≤ wrap n i ∧ wrap n i < limit
  · have hindex : ∀ j ∈ (index i).index?,
        0 ≤ wrap n j ∧ wrap n j < min (limit : Int) (half - 1) := by
      rintro j ⟨⟩
      exact ⟨hi.1, lt_min hi.2 hwrap⟩
    have hsigned := signed_of_lt hn
    rw [resolve_of_checks hstep (hsigned ▸ stops_natCast _ n) (hsigned ▸ hindex), hsigned,
      span_index hi.1 (lt_min hi.2 hwrap), if_pos hi]
    rfl
  · have hsome : ((index i).index?.filter fun j => ¬ (0 ≤ wrap n j ∧
        wrap n j < min (limit : Int) (half - 1))) = some i := by
      refine Option.filter_eq_some_iff.mpr ⟨rfl, ?_⟩
      rw [decide_eq_true_eq]
      exact fun h => hi ⟨h.1, h.2.trans_le (min_le_left _ _)⟩
    have hfitsWrap : fits (wrap n i) := by
      simp only [fits, Bool.and_eq_true, decide_eq_true_eq] at hfits ⊢
      have hge : i ≤ wrap n i := by
        rw [wrap]
        split <;> omega
      omega
    simp only [resolve, signed_of_lt hn, hsome, if_neg hi, if_neg hstep, if_pos hfitsWrap]

private theorem ruled_range {start stop : Option Int} (hstep : step ≠ 0) :
    (range start stop step).ruled n limit = .ok ((range start stop step).rangeSpan n limit) := by
  rw [ruled, if_neg (show (range start stop step).step ≠ 0 from hstep)]
  rfl

private theorem ruled_index (i : Int) :
    (index i).ruled n limit =
      if 0 ≤ wrap n i ∧ wrap n i < limit then .ok ⟨wrap n i, wrap n i + 1, 1, 1⟩
      else .error (.indexOutOfRange i n) := rfl

/-- **A slice is resolved by the rule**, unless the opposite of its step is needed and is no
word. -/
theorem Requested.resolve_eq (hx : x.Requested) (hn : n < half)
    (hlimit : n ≤ limit) : x.resolve n limit = (do (← x.ruled n limit).counted) := by
  cases hx with
  | @range start stop step hstart hstop hfits =>
    by_cases hstep : step = 0
    · subst hstep
      rfl
    · rw [resolve_range hn hlimit hstep hstart hstop hfits, ruled_range hstep]
      rfl
  | @index i hfits hlt =>
    rw [resolve_index_eq_ite hn hfits hlt, ruled_index]
    split <;> rfl

end Slice

/-! ## Growth -/

namespace Span

variable {s : Span} {n m : Nat}

theorem greatest_le_iff : s.greatest n ≤ m ↔ n ≤ m ∧ ∀ p < s.count, (s.coord p).toNat < m := by
  rw [greatest]
  induction s.count with
  | zero => simp
  | succ c ih =>
    rw [range_succ, foldl_append, foldl_cons, foldl_nil, max_le_iff, ih,
      Nat.forall_lt_succ_right, Nat.add_one_le_iff, and_assoc]

theorem le_greatest : n ≤ s.greatest n := (greatest_le_iff.mp le_rfl).1

theorem greatest_of_inside (h : ∀ p < s.count, 0 ≤ s.coord p ∧ s.coord p < n) :
    s.greatest n = n := by
  refine le_antisymm (greatest_le_iff.mpr ⟨le_rfl, fun p hp => ?_⟩) le_greatest
  have := h p hp
  omega

theorem greatest_full (n : Nat) : (full n).greatest n = n :=
  greatest_of_inside (within_full n).inside

theorem greatest_of_forward (hcount : 0 < s.count) (hstep : 0 < s.step) (hlast : n ≤ s.last) :
    s.greatest n = s.last.toNat + 1 := by
  refine le_antisymm (greatest_le_iff.mpr ⟨by omega, fun p hp => ?_⟩) ?_
  · have := coord_le_last hstep hp
    omega
  · have hle := (greatest_le_iff.mp (le_refl (s.greatest n))).2 (s.count - 1) (by omega)
    rw [coord, Nat.cast_sub hcount] at hle
    exact hle

end Span

namespace Slice

variable {x : Slice} {n limit : Nat} {span : Span}

/-- Whether a resolved slice makes its axis grow, and to what length. -/
theorem greatest_of_resolve (h : x.resolve n limit = .ok span) :
    span.greatest n =
      if span.count ≠ 0 && 0 < span.step && (n : Int) ≤ span.last then span.last.toNat + 1
      else n := by
  obtain ⟨hstep, hinside⟩ := resolve_inside h
  simp only [Bool.and_eq_true, decide_eq_true_eq]
  split
  · rename_i hgrows
    exact Span.greatest_of_forward (Nat.pos_of_ne_zero hgrows.1.1) hgrows.1.2 hgrows.2
  · refine Span.greatest_of_inside fun p hp => ?_
    obtain ⟨hnonneg, hpos | hlt⟩ := hinside p hp
    · have hlast := Span.coord_le_last hpos hp
      exact ⟨hnonneg, by omega⟩
    · exact ⟨hnonneg, hlt⟩

theorem greatest_le_of_resolve (h : x.resolve n limit = .ok span) (hlimit : n ≤ limit) :
    span.greatest n ≤ limit := by
  obtain ⟨hstep, hinside⟩ := resolve_inside h
  refine Span.greatest_le_iff.mpr ⟨hlimit, fun p hp => ?_⟩
  obtain ⟨hnonneg, hpos | hlt⟩ := hinside p hp
  · have hlast := Span.coord_le_last hpos hp
    have hbound := (ends_of_resolve h).2 (by omega) hpos
    omega
  · omega

end Slice

namespace Region

/-- The region of some spans of a shape, whose axes grow as far as they reach. -/
def grownTo (s : Shape) (limits : Option Shape) (spans : List Span) : Region :=
  ⟨List.zipWith Span.greatest spans s, limits, spans,
    (spans.zip s).any fun p => p.2 < p.1.greatest p.2, .none⟩

variable {s reach : Shape} {limits : Option Shape} {slices : List Slice}

/-- What a slice makes of a region: its span takes the place of the axis's, which grows as far as the
slice reaches. -/
theorem setAxis_eq {r : Region} {axis n m : Nat} {x : Slice} (haxis : axis < r.rank)
    (hn : r.source[axis]? = some n) (hm : r.limit axis n = .ok m) :
    r.setAxis axis x = do
      let span ← x.resolve n m
      return { r with
        source := r.source.set axis (span.greatest n)
        spans := r.spans.set axis span
        expanded := r.expanded || decide (n < span.greatest n) } := by
  have hentry : entry r.source axis = .ok n := by simp [entry, hn]
  have hsame : r.source.set axis n = r.source := by
    rw [← (List.getElem?_eq_some_iff.mp hn).2, List.set_getElem_self]
  simp only [setAxis, if_neg (not_le.mpr haxis), hentry, ok_bind, hm]
  cases hspan : x.resolve n m with
  | error e => rfl
  | ok span =>
    rw [ok_bind, ok_bind, Slice.greatest_of_resolve hspan]
    have hlt (hgrows : (span.count ≠ 0 && 0 < span.step && (n : Int) ≤ span.last)) :
        n < span.last.toNat + 1 := by
      simp only [Bool.and_eq_true, decide_eq_true_eq] at hgrows
      omega
    generalize (span.count ≠ 0 && 0 < span.step && (n : Int) ≤ span.last : Bool) = grows at hlt ⊢
    cases grows with
    | false => simp [hsame]
    | true => simp [hlt rfl]

/-- A slice is put in the place of the span of the next axis, which grows for it if need be. -/
private theorem setAxis_next {pre post : Shape} {done rest : List Span} {old : Span} {e : Bool}
    {n m : Nat} {x : Slice} (hlength : done.length = pre.length)
    (hlimit : limits.elim (.ok n) (entry · pre.length) = .ok m) :
    setAxis ⟨pre ++ n :: post, limits, done ++ old :: rest, e, .none⟩ pre.length x = do
      let new ← x.resolve n m
      return ⟨pre ++ new.greatest n :: post, limits, done ++ new :: rest,
        e || decide (n < new.greatest n), .none⟩ := by
  have hset (new : Span) : (done ++ old :: rest).set pre.length new = done ++ new :: rest := by
    simp [← hlength]
  have haxis : pre.length <
      rank ⟨pre ++ n :: post, limits, done ++ old :: rest, e, .none⟩ := by simp [rank, hlength]
  rw [setAxis_eq haxis (by simp) hlimit]
  simp [hset]

private theorem zipWith_greatest_full (s : Shape) :
    zipWith Span.greatest (s.map Span.full) s = s := by
  simp [zipWith_map_left, Span.greatest_full]

/-- Slices for the next axes are resolved on them one after the other. -/
private theorem foldlM_setAxis {pre : Shape} {done : List Span} {e : Bool}
    (hdone : done.length = pre.length) (hcount : slices.length ≤ s.length)
    (hreach : reach.length = s.length)
    (hlimits : ∀ k n m, (s : List Nat)[k]? = some n → (reach : List Nat)[k]? = some m →
      limits.elim (.ok n) (entry · (pre.length + k)) = .ok m) :
    (slices.zipIdx pre.length).foldlM (fun r p => setAxis r p.2 p.1)
        ⟨pre ++ s, limits, done ++ s.map Span.full, e, .none⟩ = do
      let new ← (slices.zip (s.zip reach)).mapM fun (x : Slice × Nat × Nat) =>
        x.1.resolve x.2.1 x.2.2
      let spans := new ++ (s.drop slices.length).map Span.full
      return ⟨pre ++ zipWith Span.greatest spans s, limits, done ++ spans,
        e || (spans.zip s).any fun p => p.2 < p.1.greatest p.2, .none⟩ := by
  induction slices generalizing pre done s reach e with
  | nil =>
    have hany : ((s.map Span.full).zip s).any (fun p => p.2 < p.1.greatest p.2) = false := by
      have hzip : (s.map Span.full).zip s = s.map fun n => (Span.full n, n) := by
        simpa using zip_map' (g := id)
      simp [hzip, Span.greatest_full]
    simp only [zipIdx_nil, foldlM_nil, zip_nil_left, mapM_nil, pure_bind,
      length_nil, drop_zero, nil_append, zipWith_greatest_full, hany, Bool.or_false]

  | cons x slices ih =>
    obtain ⟨n, s, rfl⟩ := exists_cons_of_length_pos (l := s) (by simp at hcount; omega)
    obtain ⟨m, reach, rfl⟩ := exists_cons_of_length_eq_add_one hreach
    have hlimit := hlimits 0 n m rfl rfl
    rw [zipIdx_cons, foldlM_cons, map_cons, setAxis_next hdone hlimit]
    simp only [zip_cons_cons, mapM_cons]
    cases x.resolve n m with
    | error e => rfl
    | ok new =>
      simp only [ok_bind]
      have := @ih s reach (pre ++ [new.greatest n]) (done ++ [new])
        (e || decide (n < new.greatest n)) (by simp [hdone]) (by simpa using hcount)
        (by simpa using hreach) (fun k i j hi hj => by
          have := hlimits (k + 1) i j hi hj
          simpa [add_assoc, add_comm 1 k] using this)
      simpa [Bool.or_assoc] using this

private theorem greatest_le_reach {new : List Span} (hreach : Forall₂ (· ≤ ·) s reach)
    (hnew : Forall₂ (fun (x : Slice × Nat × Nat) span => x.1.resolve x.2.1 x.2.2 = .ok span)
      (slices.zip (s.zip reach)) new) :
    Forall₂ (· ≤ ·)
      (zipWith Span.greatest (new ++ (s.drop slices.length).map Span.full) s) reach := by
  induction hreach generalizing slices new with
  | nil => simp
  | @cons n m s reach hle hreach ih =>
    cases slices with
    | nil =>
      cases hnew
      rw [nil_append, length_nil, drop_zero, zipWith_greatest_full]
      exact .cons hle hreach
    | cons x slices =>
      cases hnew with
      | cons hspan hnew => exact .cons (Slice.greatest_le_of_resolve hspan hle) (ih hnew)

private theorem grownTo_of_le {spans : List Span}
    (h : Forall₂ (· ≤ ·) (grownTo s limits spans).source s) :
    grownTo s limits spans = ⟨s, limits, spans, false, .none⟩ := by
  have hstays : zipWith Span.greatest spans s = s ∧
      (spans.zip s).any (fun p => p.2 < p.1.greatest p.2) = false := by
    induction s generalizing spans with
    | nil => simp
    | cons n s ih =>
      cases spans with
      | nil => cases h
      | cons span spans =>
        cases h with
        | cons hle h =>
          have heq : span.greatest n = n := le_antisymm hle Span.le_greatest
          simpa [heq] using ih h
  rw [grownTo, hstays.1, hstays.2]

section Resolution

variable (hs : ∀ n ∈ s, n < half) (hslices : ∀ x ∈ slices, x.Requested)
  (hreach : Forall₂ (· ≤ ·) s reach)
include hs hslices hreach

private theorem mapM_resolve_eq :
    ((slices.zip (s.zip reach)).mapM fun (x : Slice × Nat × Nat) => x.1.resolve x.2.1 x.2.2) =
      (slices.zip (s.zip reach)).mapM fun x => (do (← x.1.ruled x.2.1 x.2.2).counted) := by
  refine mapM_congr fun x hx => ?_
  obtain ⟨hslice, hx⟩ := of_mem_zip hx
  exact (hslices _ hslice).resolve_eq (hs _ (of_mem_zip hx).1) ((forall₂_iff_zip.mp hreach).2 hx)

/-- Slices of a shape are resolved one by one, and what they select is all that it grows for. -/
private theorem setAxes_eq (hlimits : ∀ (k n m : Nat), (s : List Nat)[k]? = some n →
      (reach : List Nat)[k]? = some m → limits.elim (.ok n) (entry · k) = .ok m) :
    setAxes { full s with limits := limits } slices = do
      let spans ← ruledSpans s reach slices
      return grownTo s limits spans := by
  have hrank : rank { full s with limits := limits } = s.length := by simp [rank, full]
  rw [setAxes, hrank, ruledSpans]
  by_cases hcount : s.length < slices.length
  · rw [if_pos hcount, if_pos hcount]
    rfl
  · have hfold := @foldlM_setAxis s reach limits slices [] [] false rfl (not_lt.mp hcount)
      hreach.length_eq.symm (by simpa using hlimits)
    rw [mapM_resolve_eq hs hslices hreach] at hfold
    rw [if_neg hcount, if_neg hcount]
    simpa [grownTo, full] using hfold

private theorem source_grownTo_le {spans : List Span} (h : ruledSpans s reach slices = .ok spans) :
    Forall₂ (· ≤ ·) (grownTo s limits spans).source reach := by
  unfold ruledSpans at h
  split at h
  · cases h
  · rw [← mapM_resolve_eq hs hslices hreach] at h
    simp only [bind_eq_ok, mapM_eq_ok, pure_eq_ok] at h
    obtain ⟨new, hnew, rfl⟩ := h
    exact greatest_le_reach hreach hnew

end Resolution

/-- **Slices are resolved by the rule, and grow no axis further than they have to.** Too many of
them are refused; otherwise each is resolved on its axis, in order. Where nothing can grow the
source stays as it is. Where `limits` lets it grow, each axis becomes just long enough for what is
selected of it, which is never more than its limit. -/
theorem slices_follow_rule {s : Shape} {slices : List Slice} (hs : ∀ n ∈ s, n < Word.half)
    (hslices : ∀ x ∈ slices, x.Requested) :
    (ofSlices s slices = do
      let spans ← ruledSpans s s slices
      return ⟨s, none, spans, false, .none⟩) ∧
    ∀ limits, allows limits s = true →
      (ofSlicesWithin s limits slices = do
        let spans ← ruledSpans s limits slices
        return grownTo s (some limits) spans) ∧
      ∀ spans, ruledSpans s limits slices = .ok spans →
        List.Forall₂ (· ≤ ·) (grownTo s (some limits) spans).source limits := by
  constructor
  · have hsame : List.Forall₂ (· ≤ ·) s s := List.forall₂_same.mpr fun _ _ => le_rfl
    have heq : ofSlices s slices = do
        let spans ← ruledSpans s s slices
        return grownTo s none spans :=
      setAxes_eq hs hslices hsame fun k n m hn hm => congrArg Except.ok (by simp_all)
    rw [heq]
    cases hspans : ruledSpans s s slices with
    | error e => rfl
    | ok spans =>
      rw [ok_bind, ok_bind,
        grownTo_of_le (source_grownTo_le hs hslices hsame hspans)]
  · intro limits hallows
    have hlimits : List.Forall₂ (· ≤ ·) s limits := by
      simp only [allows, Bool.and_eq_true, beq_iff_eq, List.all_eq_true, decide_eq_true_eq] at hallows
      exact List.forall₂_iff_zip.mpr ⟨hallows.1.symm, fun h => hallows.2 _ h⟩
    constructor
    · rw [ofSlicesWithin, if_pos hallows]
      refine setAxes_eq hs hslices hlimits fun k n m _ hm => ?_
      simp [entry, hm]
    · intro spans hspans
      exact source_grownTo_le hs hslices hlimits hspans

/-- Three axes of which the last may grow: two positions backwards, the last position, and a range
that is cut off at the limit and makes its axis as long as that. -/
theorem slices_follow_rule_growing :
    ofSlices [5, 4] [.range (some (-2)) none (-2), .index (-1)] =
        .ok ⟨[5, 4], none, [⟨3, -1, -2, 2⟩, ⟨3, 4, 1, 1⟩], false, .none⟩ ∧
      ofSlicesWithin [5, 4, 3] [5, 4, 8]
          [.range (some (-2)) none (-2), .index (-1), .range (some 1) (some 9) 3] =
        .ok ⟨[5, 4, 8], some [5, 4, 8],
          [⟨3, -1, -2, 2⟩, ⟨3, 4, 1, 1⟩, ⟨1, 8, 3, 3⟩], true, .none⟩ := by
  have hrange (start stop : Option Int) (step : Int)
      (h : start.all Word.fits && stop.all Word.fits && Word.fits step) :
      (Slice.range start stop step).Requested := by
    simp only [Bool.and_eq_true, Option.all_eq_true] at h
    exact .range h.1.1 h.1.2 h.2
  have hindex : (Slice.index (-1)).Requested := .index (by decide) (by decide)
  constructor
  · rw [(slices_follow_rule (by decide) (by
      simp only [List.forall_mem_cons, List.not_mem_nil, false_implies, implies_true, and_true]
      exact ⟨hrange _ _ _ (by decide), hindex⟩)).1]
    decide
  · rw [((slices_follow_rule (by decide) (by
      simp only [List.forall_mem_cons, List.not_mem_nil, false_implies, implies_true, and_true]
      exact ⟨hrange _ _ _ (by decide), hindex, hrange _ _ _ (by decide)⟩)).2 _ (by decide)).1]
    decide

/-- By the rule, the least of all steps selects the last position only. Its positions cannot be
counted. -/
theorem least_step_not_by_rule :
    (Slice.range none none (-Word.half)).ruled 5 5 = .ok ⟨4, -1, -Word.half, 1⟩ ∧
      ofSlices [5] [.range none none (-Word.half)] = .error (.fault .overflow) := by
  decide

end Region

end Hyperslab
