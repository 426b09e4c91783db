import Hyperslab.Proofs.Broadcast
import Hyperslab.Proofs.Fields
import Hyperslab.Proofs.RegionSlices

/-!
# Fields that follow a host

A field that stands for a host has the rank of the host, and an axis of length 1 stands for all of
the host's axis. When the host is sliced, reshaped or transposed, the field is taken along on a way
of its own: it slices the axes that are not unit axes, regroups axes group by group, or reorders
them. What is then read for a position is what was read where the position comes from.
-/
namespace Hyperslab.Field

open List Permutation Region Shape Word

/-- The field fits the host, and the item that is read for position `q` of the host is `value q`. -/
structure Follows (f : Field) (host : Shape) (value : Position → List Scalar) : Prop where
  sound : f.Sound
  fits : f.shape.Fits host
  item_eq : ∀ q, host.contains q = true → f.item (f.shape.project q) = value q

namespace Follows

variable {f g : Field} {host : Shape} {value : Position → List Scalar}

variable (h : f.Follows host value)
include h

theorem congr {value' : Position → List Scalar}
    (hvalue : ∀ q, host.contains q → value q = value' q) : f.Follows host value' :=
  ⟨h.sound, h.fits, fun q hq => (h.item_eq q hq).trans (hvalue q hq)⟩

theorem dense : f.dense.Follows host value := by
  have hshows := shows_dense h.sound
  refine ⟨hshows.sound, h.fits, fun q hq => ?_⟩
  have hproject : f.dense.shape.contains (f.dense.shape.project q) := h.fits.contains_project hq
  rw [hshows.item_eq _ hproject]
  exact h.item_eq q hq

theorem broadcast {n : Nat} (hcount : elementCount host f.itemSize = .ok n) :
    ∃ g, f.broadcast host = .ok g ∧ g.shape = host ∧ g.Follows host value := by
  obtain ⟨ts, hts⟩ := h.fits.broadcastStrides_eq_ok h.sound.inside.length_strides
  have hframe : f.toFrame.broadcast host = .ok (f.withGeometry host f.offset ts) := by
    have hts : broadcastStrides f.shape f.toFrame.strides host = .ok ts := hts
    simp [Frame.broadcast, hcount, h.fits.broadcast_eq, hts, bind, Except.bind, pure, Except.pure]
  have hg : f.broadcast host = .ok (f.withFrame (f.withGeometry host f.offset ts)) := by
    rw [Field.broadcast, hframe]
    rfl
  obtain ⟨hshows, hshape⟩ := shows_broadcast h.sound hg
  refine ⟨_, hg, hshape, hshows.sound, hshape ▸ fits_refl host, fun q hq => ?_⟩
  rw [hshape, project_self hq, hshows.item_eq q (hshape ▸ hq), h.item_eq q hq]

theorem reshape {t : Shape} {map : Regrouping} (hmap : Regrouping.of host t = .ok map)
    (hg : f.followReshape map = .ok g) : g.Follows t fun q => value (unravel (t.ravel q) host) := by
  simp only [followReshape, bind_eq_ok] at hg
  obtain ⟨out, hout, hg⟩ := hg
  have hcarried := Regrouping.carried_reshapeShape hmap h.fits hout
  obtain ⟨hshows, hshape, -⟩ := shows_reshape h.sound hg
  refine ⟨hshows.sound, hshape ▸ hcarried.out_fits, fun q hq => ?_⟩
  have hpos : 0 < host.size := hcarried.size_eq ▸ size_pos_of_contains hq
  have hp := contains_unravel hpos (t.ravel q)
  have hravel := ravel_unravel (hcarried.size_eq ▸ ravel_lt hq)
  have hq' : g.shape.contains (g.shape.project q) := by
    rw [hshape]
    exact hcarried.out_fits.contains_project hq
  rw [hshows.item_eq _ hq', ← h.item_eq _ hp, hshape, ← hcarried.ravel_eq _ q hp hq hravel,
    unravel_ravel (h.fits.contains_project hp)]

theorem transpose {perm : List Nat} (hperm : Orders perm host.length)
    (hg : f.followTranspose perm = .ok g) :
    g.Follows (apply perm host) fun q => value (apply (inverse perm) q) := by
  have hrank : f.shape.length = host.length := h.fits.length_eq
  have hperm' : Orders perm f.rank := by rwa [Frame.rank, hrank]
  obtain ⟨hshows, hshape⟩ := shows_transposed h.sound hperm' hg
  have hfits := h.fits.apply hperm
  refine ⟨hshows.sound, hshape ▸ hfits, fun q hq => ?_⟩
  have hlength : q.length = f.shape.length := by
    rw [length_of_contains hq, length_apply fun a ha => hperm.mem_iff.mp ha, hperm.length_eq, hrank]
  have hq' : g.shape.contains (g.shape.project q) := by
    rw [hshape]
    exact hfits.contains_project hq
  rw [hshows.item_eq _ hq', hshape, apply_inverse_project hperm' hlength]
  exact h.item_eq _ (contains_apply_inverse hperm hq)

end Follows

/-! ## Slices -/

/-- How an axis of a field is sliced beside that of its host: it selects as many positions, or one,
and the coordinate that is read for one of the host is that of the host, or 0 on a unit axis. -/
structure AxisFollows (d : Nat) (host own : Span) : Prop where
  fits : own.count = host.count ∨ own.count = 1
  coord_eq : ∀ i < host.count,
    own.coord (if own.count = 1 then 0 else i) = if d = 1 then 0 else host.coord i

theorem axisFollows {f : Field} {r : Region} {axis d n : Nat} {slice : Slice} {host own : Span}
    (hr : r.Built) (hhost : r.spans[axis]? = some host) (hwithin : host.Within n) (hn : n < half)
    (hcount : 0 < host.count) (hfits : d = n ∨ d = 1) (hslice : f.followAxis r axis d n = .ok slice)
    (hown : slice.resolve d d = .ok own) : AxisFollows d host own := by
  unfold followAxis at hslice
  split at hslice
  · rename_i hsame
    have hdn : d = n := by omega
    subst hdn
    rw [hr.valid.axisSlice_eq_ok hhost, Except.ok.injEq] at hslice
    subst hslice
    obtain ⟨hstart, hstep, hcount⟩ := Slice.resolve_ofSpan hwithin
      (hr.ends host (mem_of_getElem? hhost)) hcount hn hown
    refine ⟨.inl hcount, fun i hi => ?_⟩
    have hcoord : own.coord (if own.count = 1 then 0 else i) = host.coord i := by
      simp only [Span.coord, hstart, hstep]
      split
      · rw [show i = 0 by omega]
      · rfl
    have hinside := hwithin.inside i hi
    rw [hcoord]
    split <;> omega
  · rename_i hother
    have hd : d = 1 := by omega
    subst hd
    rw [if_pos rfl, Except.ok.injEq] at hslice
    subst hslice
    have hspan : own = Span.full 1 := by
      have hfull : (Slice.between 0 1).resolve 1 1 = .ok (Span.full 1) := by decide
      exact Except.ok.inj (hown.symm.trans hfull)
    subst hspan
    exact ⟨.inr rfl, fun i _ => by simp [Span.full, Span.coord]⟩

/-- The region of a field that follows its host through a region. -/
theorem axisFollows_of_followSlices {f : Field} {r own : Region} {slices : List Slice}
    {q : Position} (hr : r.Built) (hfits : f.shape.Fits r.source)
    (hsmall : ∀ n ∈ r.source, n < half) (hq : r.shape.contains q)
    (hslices : f.followSlices r = .ok slices) (hown : ofSlices f.shape slices = .ok own) :
    own.rank = r.rank ∧ ∀ (i d : Nat) (host span : Span), (f.shape : List Nat)[i]? = some d →
      r.spans[i]? = some host → own.spans[i]? = some span → AxisFollows d host span := by
  have hrank : f.shape.length = r.spans.length := hfits.length_eq.trans hr.valid.length_source
  unfold followSlices at hslices
  split at hslices
  · simp at hslices
  rw [mapM_eq_ok] at hslices
  have hlength : slices.length = f.shape.length := by
    rw [← hslices.length_eq]
    simp [hfits.length_eq]
  obtain ⟨-, hspans⟩ := ofSlices_eq_ok hlength hown
  refine ⟨?_, fun i d host span hd hhost hspan => ?_⟩
  · have := hspans.length_eq
    simp only [length_zip, hlength, Nat.min_self] at this
    rw [rank, ← this, hrank, rank]
  have hi : i < r.spans.length := (List.getElem?_eq_some_iff.mp hhost).1
  -- The entries of the other lists at the axis.
  obtain ⟨n, hn⟩ : ∃ n, (r.source : List Nat)[i]? = some n := by
    exact ⟨_, getElem?_eq_getElem (hr.valid.length_source ▸ hi)⟩
  obtain ⟨slice, hslice⟩ : ∃ slice, slices[i]? = some slice := by
    exact ⟨_, getElem?_eq_getElem (by omega)⟩
  obtain ⟨c, hc⟩ : ∃ c, (q : List Nat)[i]? = some c := by
    refine ⟨_, getElem?_eq_getElem ?_⟩
    rw [length_of_contains hq, length_shape]
    exact hi
  have hcount : c < host.count := by
    refine rel_of_getElem? (contains_iff_forall₂.mp hq) hc ?_
    simp [shape, hhost]
  have hzip : (zip f.shape r.source)[i]? = some (d, n) := getElem?_zip_eq_some.mpr ⟨hd, hn⟩
  have haxis : f.followAxis r i d n = .ok slice := by
    refine rel_of_getElem? (a := ((d, n), i)) hslices ?_ hslice
    simp [getElem?_zipIdx, hzip]
  have hresolve : slice.resolve d d = .ok span :=
    rel_of_getElem? (a := (slice, d)) hspans (getElem?_zip_eq_some.mpr ⟨hslice, hd⟩) hspan
  exact axisFollows hr hhost (rel_of_getElem? hr.valid.within hhost hn)
    (hsmall n (mem_of_getElem? hn)) (by omega) (rel_of_getElem? hfits hd hn) haxis hresolve

/-- What a field selects beside its host is read where the host's selection is read. -/
theorem sourcePosition_project {s : Shape} {r own : Region} {q : Position}
    (hrank : own.rank = r.rank) (hs : s.length = r.rank) (hq : r.shape.contains q)
    (haxes : ∀ (i d : Nat) (host span : Span), (s : List Nat)[i]? = some d →
      r.spans[i]? = some host → own.spans[i]? = some span → AxisFollows d host span) :
    own.shape.Fits r.shape ∧
      own.sourcePosition (own.shape.project q) = s.project (r.sourcePosition q) := by
  have hrank : own.spans.length = r.spans.length := hrank
  have hlength : q.length = r.spans.length := by
    rw [length_of_contains hq, length_shape, rank]
  have hs : s.length = r.spans.length := hs
  have haxis (i : Nat) (hi : i < r.spans.length) : AxisFollows s[i] r.spans[i] own.spans[i] :=
    haxes i _ _ _ (getElem?_eq_getElem (by omega)) (getElem?_eq_getElem hi)
      (getElem?_eq_getElem (by omega))
  constructor
  · rw [Fits, forall₂_iff_get]
    refine ⟨by simp [shape, hrank], fun i hi hi' => ?_⟩
    simp only [shape, length_map] at hi'
    simpa [shape] using (haxis i hi').fits
  · have hsource : (r.sourcePosition q).length = s.length := by
      simp [sourcePosition, coords, hlength, hs]
    have hproject : q.length = own.shape.length := by simp [shape, hlength, hrank]
    rw [project_eq_zipWith hsource, project_eq_zipWith hproject]
    refine ext_getElem ?_ fun i hi hi' => ?_
    · simp [sourcePosition, coords, shape, hlength, hs, hrank]
    · have hlt : i < r.spans.length := by
        simp only [length_zipWith, lt_min_iff, hs] at hi'
        exact hi'.1
      have hcount : q[i] < r.spans[i].count := by
        have := (forall₂_iff_get.mp (contains_iff_forall₂.mp hq)).2 i (by omega)
          (by simpa [shape] using hlt)
        simpa [shape] using this
      have hcoord := (haxis i hlt).coord_eq q[i] hcount
      simp only [sourcePosition, coords, shape, getElem_map, getElem_zipWith, hcoord]
      split
      · rfl
      · rfl

namespace Follows

variable {f g : Field} {value : Position → List Scalar}

theorem slice {r : Region} {asView : Bool} (h : f.Follows r.source value) (hr : r.Built)
    (hsmall : ∀ n ∈ r.source, n < half) (hpos : 0 < size r.shape)
    (hg : f.followSlice r asView = .ok g) :
    g.Follows r.shape fun q => value (r.sourcePosition q) := by
  simp only [followSlice, bind_eq_ok] at hg
  obtain ⟨slices, hslices, own, hown, hg⟩ := hg
  obtain ⟨hshows, hshape⟩ : g.Shows f own.sourcePosition ∧ g.shape = own.shape := by
    have hvalid := valid_ofSlices hown
    cases asView with
    | true => exact shows_sliceView h.sound hvalid hg
    | false => exact shows_slice h.sound hvalid hg
  have hs : f.shape.length = r.rank := h.fits.length_eq.trans hr.valid.length_source
  obtain ⟨hrank, haxes⟩ := axisFollows_of_followSlices hr h.fits hsmall
    (contains_origin hpos) hslices hown
  refine ⟨hshows.sound, ?_, fun q hq => ?_⟩
  · rw [hshape]
    exact (sourcePosition_project hrank hs (contains_origin hpos) haxes).1
  · obtain ⟨hfits, hproject⟩ := sourcePosition_project hrank hs hq haxes
    have hq' : g.shape.contains (g.shape.project q) := by
      rw [hshape]
      exact hfits.contains_project hq
    have hhalf : half ≤ modulus := by decide
    rw [hshows.item_eq _ hq', hshape, hproject]
    exact h.item_eq _ (hr.valid.contains_sourcePosition
      (fun n hn => ((hsmall n hn).trans_le hhalf).le) hq)

end Follows

end Hyperslab.Field
