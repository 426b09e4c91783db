import Hyperslab.Proofs.AdmittedShapes
import Hyperslab.Proofs.AxisSlices
import Hyperslab.Proofs.Fillings

/-!
# Slices that are carried out

Slices that make a region of a shape meet words only while they are resolved: their bounds are cut
back to the axes. Slicing a dataset then multiplies its strides by the steps. Where two positions of
an axis are selected, a step leads from item to item, so the product is shorter than the buffer.
Where at most one is selected, the step leads nowhere, and nothing bounds it.
-/
namespace Hyperslab

open List Shape Word

/-! ## Resolving -/

namespace Slice

variable {x : Slice} {n : Nat} {span : Span}

theorem bounds_of_resolve (hn : n < half) (h : x.resolve n n = .ok span) :
    (-1 ≤ span.start ∧ span.start ≤ n) ∧ -1 ≤ span.stop ∧ span.stop ≤ n := by
  obtain ⟨-, -, rfl⟩ := resolve_eq_ok h
  have hlim : min (n : Int) (half - 1) = n := by omega
  have hforward {z : Int} : 0 ≤ clamp 0 n z ∧ clamp 0 n z ≤ n :=
    ⟨clamp_ge z (by omega), clamp_le z (by omega)⟩
  have hbackward {z : Int} : -1 ≤ clamp (-1) (n - 1) z ∧ clamp (-1) (n - 1) z ≤ n - 1 :=
    ⟨clamp_ge z (by omega), clamp_le z (by omega)⟩
  rw [signed_of_lt hn, hlim, Slice.span]
  split
  · have hstart := @hforward (x.start.elim 0 (wrap n))
    have hstop := @hforward (x.stop.elim n (wrap n))
    dsimp only
    omega
  · have hstart := @hbackward (x.start.elim (n - 1) (wrap n))
    have hstop := @hbackward (x.stop.elim (-1) (wrap n))
    dsimp only
    omega

theorem fits_neg_of_resolve (h : x.resolve n n = .ok span) (hcount : span.count ≠ 0) :
    fits (-x.step) := by
  obtain ⟨hstops, hindex⟩ := checks_of_resolve h
  obtain ⟨hstep, -, rfl⟩ := resolve_eq_ok h
  rw [resolve_of_checks hstep hstops hindex] at h
  by_contra hfits
  rw [if_pos ⟨hcount, hfits⟩] at h
  cases h

theorem fits_wrap {z : Int} (hn : n < half) (hz : fits z) : fits (wrap n z) := by
  rw [fits_iff] at hz ⊢
  unfold wrap
  split <;> omega

/-- The numbers met in resolving a slice on an axis of length `n`: its bounds, counted from the end
and cut back, and, if anything is selected, the distance between them, what it is divided by, the
number of positions and the way to the last one. -/
def numbers (x : Slice) (n : Nat) : List Int :=
  let span := x.span n n
  let bounds := [(n : Int), n - 1] ++ (x.start.toList ++ x.stop.toList).map (wrap n) ++
    [span.start, span.stop]
  if span.count = 0 then bounds
  else
    bounds ++ [span.stop - span.start, span.start - span.stop, -x.step, span.count,
      span.count - 1, (span.count - 1) * x.step, span.last]

/-- **A slice that can be resolved meets words only.** -/
theorem allFit_numbers (hx : x.checked = .ok x) (hn : n < half)
    (h : x.resolve n n = .ok span) : AllFit (x.numbers n) := by
  have hwithin := (settled_of_resolve h).within
  have hbounds := bounds_of_resolve hn h
  have hneg := fits_neg_of_resolve h
  obtain ⟨-, -, hspan⟩ := resolve_eq_ok h
  have hlim : min (n : Int) (half - 1) = n := by omega
  rw [signed_of_lt hn, hlim] at hspan
  have hgiven : ∀ z ∈ x.start.toList ++ x.stop.toList, fits z := by
    intro z hz
    unfold checked at hx
    split at hx
    · rename_i hall
      simp only [Bool.and_eq_true, Option.all_eq_true] at hall
      rcases mem_append.mp hz with hz | hz
      · exact hall.1.1 z (Option.mem_toList.mp hz)
      · exact hall.1.2 z (Option.mem_toList.mp hz)
    · cases hx
  have hfit : AllFit ([(n : Int), n - 1] ++ (x.start.toList ++ x.stop.toList).map (wrap n) ++
      [span.start, span.stop]) := by
    simp only [allFit_append, allFit_cons, allFit_nil, and_true, fits_iff]
    refine ⟨⟨by omega, ?_⟩, by omega⟩
    exact forall_mem_map.mpr fun z hz => fits_wrap hn (hgiven z hz)
  simp only [numbers, ← hspan]
  split
  · exact hfit
  · rename_i hcount
    have hpos : 0 < span.count := Nat.pos_of_ne_zero hcount
    have hcountle := hwithin.count_le
    obtain ⟨hfirst, hlast⟩ := hwithin.ends_inside hpos
    have hway : ((span.count : Int) - 1) * x.step = span.last - span.start := by
      rw [Span.last, hspan, step_span]
      ring
    rw [allFit_append, hway]
    refine ⟨hfit, ?_⟩
    simp only [allFit_cons, allFit_nil, and_true, hneg hcount, fits_iff, true_and]
    omega

end Slice

/-! ## Slicing -/

namespace Geometry

variable {g : Geometry} {length : Nat} {r : Region}

/-- Where two positions of an axis are selected, the step leads from item to item. -/
theorem Inside.fits_mul_step {i n : Nat} {t : Int} {x : Span} (h : g.Inside length)
    (hpos : 0 < g.shape.size) (hn : (g.shape : List Nat)[i]? = some n)
    (ht : (g.strides : List Int)[i]? = some t) (hx : x.Within n) (hcount : 1 < x.count) :
    Word.fits (t * x.step) := by
  have hfirst := hx.inside 0 (by omega)
  have hnext := hx.inside 1 hcount
  have hmove := h.abs_move_lt hpos hn ht (j := (x.coord 0).toNat) (k := (x.coord 1).toNat)
    (by omega) (by omega)
  have hstep : x.coord 1 - x.coord 0 = x.step := by
    simp only [Span.coord, Nat.cast_one, Nat.cast_zero]
    ring
  rw [Int.toNat_of_nonneg hfirst.1, Int.toNat_of_nonneg hnext.1, hstep, abs_lt, mul_comm] at hmove
  have hlength := h.length_lt
  rw [fits_iff]
  omega

/-- Only steps that lead nowhere can take a stride out of the words. -/
theorem Inside.allFit_strides_slice_iff (h : g.Inside length) (hpos : 0 < g.shape.size)
    (hr : r.Valid) (hsource : r.source = g.shape) :
    AllFit (g.slice r).strides ↔
      ∀ x ∈ g.strides.zip r.spans, x.2.count ≤ 1 → Word.fits (x.1 * x.2.step) := by
  have hstrides : (g.slice r).strides = (g.strides.zip r.spans).map fun x => x.1 * x.2.step := by
    rw [Geometry.slice, hr.steps_eq, zipWith_map_right, zip_eq_zipWith, map_zipWith]
  rw [hstrides, AllFit, forall_mem_map]
  refine forall₂_congr fun x hx => ⟨fun h _ => h, fun hone => ?_⟩
  rcases Nat.lt_or_ge 1 x.2.count with hcount | hcount
  · obtain ⟨i, hi, rfl⟩ := getElem_of_mem hx
    rw [length_zip, Nat.lt_min] at hi
    have hi' : i < r.source.length := hr.within.length_eq ▸ hi.2
    rw [getElem_zip] at hcount ⊢
    refine h.fits_mul_step hpos (n := r.source[i]) ?_ (getElem?_eq_getElem hi.1)
      (hr.within.get hi.2 hi') hcount
    rw [← hsource, getElem?_eq_getElem hi']
  · exact hone hcount

end Geometry

namespace Dataset

/-- **Slices that a dataset with items accepts are carried out in words, but for steps that lead
nowhere.** All numbers met while they are resolved are words. Those met on the way to a view, or to
a walk of the region, are words just if the strides of the axes of which at most one position is
selected are words when they are multiplied by the steps. Then both are made as over exact integers,
with what is attached to the data checked on its own, and otherwise neither is. -/
theorem slicing_fits_iff {d : Block} {slices : List Slice} {r : Region} (hd : d.Sound)
    (hpos : 0 < d.size) (hwords : ∀ x ∈ slices, x.checked = .ok x)
    (hr : Region.ofSlices d.shape slices = .ok r) :
    (∀ x ∈ slices.zip d.shape, AllFit (x.1.numbers x.2)) ∧
    (AllFit (d.geometry.sliceNumbers r) ↔
      ∀ x ∈ d.strides.zip r.spans, x.2.count ≤ 1 → Word.fits (x.1 * x.2.step) = true) ∧
    (AllFit (d.geometry.sliceNumbers r) →
      d.sliceViewInWords r = (do d.metadata.checkSlice r true; d.sliceView r) ∧
      RegionWalk.startInWords d.geometry r = .ok ⟨r, (d.geometry.slice r).walk⟩) ∧
    (¬ AllFit (d.geometry.sliceNumbers r) →
      d.sliceViewInWords r = .error (.fault .overflow) ∧
      RegionWalk.startInWords d.geometry r = .error (.fault .overflow)) := by
  have hvalid := Region.valid_ofSlices hr
  obtain ⟨hsource, hresolve⟩ := Region.exists_resolve_of_ofSlices hr
  have hinside : d.geometry.Inside d.buffer.size := hd.inside
  have hnumbers := hinside.allFit_sliceNumbers_iff hvalid hsource
  have hroom : r.shape.room d.itemSize < half :=
    (room_le_room (hsource ▸ hvalid.shape_le) le_rfl).trans_lt (Frame.Sound.room_lt hd hpos)
  have hsize := sizeChecked_of_room hd.itemSize_pos hroom
  have hviews : d.ViewsInWords r ↔ AllFit (d.geometry.sliceNumbers r) := by
    rw [Frame.viewsInWords_iff, hnumbers]
    exact ⟨fun h => h.2.2.1, fun h =>
      ⟨Frame.Sound.hasStrides hd hpos, hsize, h, stridesFit_of_room hd.itemSize_pos hroom⟩⟩
  have hstart : AllFit (d.geometry.sliceNumbers r) ↔
      r.shape.sizeChecked.isSome ∧ AllFit (d.geometry.slice r).strides := by
    rw [hnumbers, and_iff_right hsize]
  rw [sliceViewInWords_eq hd hvalid hsource, RegionWalk.startInWords_eq hinside hvalid hsource,
    ensure_congr hviews, ← ensure_congr hstart]
  refine ⟨fun x hx => ?_, ?_, fun h => ?_, fun h => ?_⟩
  · obtain ⟨hslice, hlength⟩ := of_mem_zip hx
    obtain ⟨span, hspan⟩ := hresolve x hx
    exact Slice.allFit_numbers (hwords _ hslice) (hinside.lt_half hpos hlength) hspan
  · rw [hnumbers]
    exact hinside.allFit_strides_slice_iff hpos hvalid hsource
  · rw [ensure_of h]
    exact ⟨rfl, rfl⟩
  · rw [ensure_of_not h]
    exact ⟨rfl, rfl⟩

theorem slicing_fits_iff_pairs :
    let slices := [Slice.range (some (-1)) none (-2), Slice.range none (some 1) 9]
    let r : Region := ⟨[3, 2], none, [⟨2, -1, -2, 2⟩, ⟨0, 1, 9, 1⟩], false, .none⟩
    (∀ x ∈ slices, x.checked = .ok x) ∧ Region.ofSlices pairRows.shape slices = .ok r ∧
      AllFit (pairRows.geometry.sliceNumbers r) ∧
      pairRows.sliceViewInWords r = pairRows.sliceView r ∧
      RegionWalk.startInWords pairRows.geometry r =
        .ok ⟨r, (pairRows.geometry.slice r).walk⟩ := by
  intro slices r
  have hpairs : pairRows.Made :=
    .ofElements (k := .int true .w32) (n := 2) (s := [3, 2])
      (l := (List.range 12).map fun i => Scalar.int i) rfl
  have hwords : ∀ x ∈ slices, x.checked = .ok x := by decide
  have hr : Region.ofSlices pairRows.shape slices = .ok r := rfl
  obtain ⟨-, hiff, hviews, -⟩ := slicing_fits_iff hpairs.sound (by decide) hwords hr
  have hfit := hiff.mpr (by decide)
  exact ⟨hwords, hr, hfit, hviews hfit⟩

/-- The longest step from the only position that is selected, times the stride of its axis. -/
theorem long_step_stops_slicing :
    ∃ d r, zeros (.int true .w32) 1 [2, 2] = .ok d ∧
      Region.ofSlices d.shape [Slice.range (some 0) (some 1) 9223372036854775807] = .ok r ∧
      r.shape = [1, 2] ∧ d.sliceViewInWords r = .error (.fault .overflow) ∧
      RegionWalk.startInWords d.geometry r = .error (.fault .overflow) :=
  ⟨_, _, rfl, rfl, rfl, rfl, rfl⟩

end Dataset

end Hyperslab
