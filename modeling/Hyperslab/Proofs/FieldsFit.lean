import Hyperslab.Proofs.FieldsFollow

/-!
# Fields that can follow a host

A field that fits its host can follow it to every region that runs forward position by position. A
view of the field needs nothing else; a copy has to be set aside, which is possible if the field
could be set aside as a whole. A field does not follow a host that has become longer on an axis
where the field has one item for each position.

A field can follow its host to another shape if, in every group of axes that are merged or split, it
has all axes of the host or only unit axes.
-/
namespace Hyperslab

open List Permutation Region Shape Word

variable {s : Shape} {n m : Nat} {k : Kind}

/-! ## Setting aside -/

theorem Shape.sizeChecked_of_le {t : Shape} (hle : Forall₂ (· ≤ ·) t s)
    (h : s.sizeChecked = some n) : ∃ m ≤ n, t.sizeChecked = some m := by
  suffices ∀ a b, a ≤ b →
      s.foldlM (fun n d => if n * d < modulus then some (n * d) else none) b = some n →
      ∃ m ≤ n, t.foldlM (fun n d => if n * d < modulus then some (n * d) else none) a =
        some m from this 1 1 le_rfl h
  clear h
  induction hle with
  | nil =>
    intro a b hab h
    cases h
    exact ⟨a, hab, rfl⟩
  | @cons d e t s hde _ ih =>
    intro a b hab h
    simp only [foldlM_cons, Option.bind_eq_bind, Option.bind_eq_some_iff] at h
    obtain ⟨c, hc, h⟩ := h
    split at hc
    · next hlt =>
      cases hc
      have hmul : a * d ≤ b * e := Nat.mul_le_mul hab hde
      obtain ⟨m, hm, hfold⟩ := ih _ _ hmul h
      refine ⟨m, hm, ?_⟩
      rw [foldlM_cons, if_pos (hmul.trans_lt hlt)]
      exact hfold
    · cases hc

theorem elementCount_eq_ok_iff {k : Nat} : elementCount s k = .ok n ↔
    ∃ c, s.sizeChecked = some c ∧ c * k ≤ maxElements ∧ n = c * k := by
  unfold elementCount
  split
  · rename_i c hc
    simp only [Option.filter_eq_some_iff, decide_eq_true_eq] at hc
    simp [hc.1, hc.2, eq_comm]
  · rename_i hnone
    simp only [Option.filter_eq_none_iff, decide_eq_true_eq] at hnone
    constructor
    · intro h
      cases h
    · rintro ⟨c, hc, hle, -⟩
      exact absurd hle (hnone c hc)

theorem reserve_eq_ok_iff : reserve k s n = .ok m ↔
    ∃ c, s.sizeChecked = some c ∧ c * n ≤ maxElements ∧ c * n * k.bytes ≤ maxBytes ∧ m = c * n := by
  simp only [reserve, bind_eq_ok, elementCount_eq_ok_iff]
  constructor
  · rintro ⟨_, ⟨c, hc, hmax, rfl⟩, h⟩
    split at h
    · next hbytes =>
      cases h
      exact ⟨c, hc, hmax, hbytes, rfl⟩
    · cases h
  · rintro ⟨c, hc, hmax, hbytes, rfl⟩
    exact ⟨_, ⟨c, hc, hmax, rfl⟩, if_pos hbytes⟩

theorem reserve_of_le {t : Shape} (hle : Forall₂ (· ≤ ·) t s)
    (h : reserve k s n = .ok m) : ∃ l, reserve k t n = .ok l := by
  obtain ⟨c, hc, hmax, hbytes, -⟩ := reserve_eq_ok_iff.mp h
  obtain ⟨b, hbc, hb⟩ := sizeChecked_of_le hle hc
  have hmul : b * n ≤ c * n := Nat.mul_le_mul_right n hbc
  exact ⟨b * n, reserve_eq_ok_iff.mpr ⟨b, hb, hmul.trans hmax,
    (Nat.mul_le_mul_right _ hmul).trans hbytes, rfl⟩⟩

theorem Shape.sizeChecked_of_pos (hpos : 0 < s.size) (hlt : s.size < modulus) :
    s.sizeChecked = some s.size := by
  suffices ∀ m, 0 < m → m * s.size < modulus →
      s.foldlM (fun n d => if n * d < modulus then some (n * d) else none) m = some (m * s.size) by
    have := this 1 Nat.one_pos (by rwa [Nat.one_mul])
    rwa [Nat.one_mul] at this
  clear hlt
  induction s with
  | nil =>
    intro m _ _
    rw [size_nil, Nat.mul_one]
    rfl
  | cons d s ih =>
    intro m hm hlt
    rw [size_cons] at hpos hlt ⊢
    have hd : 0 < d := Nat.pos_of_mul_pos_right hpos
    have hs : 0 < size s := Nat.pos_of_mul_pos_left hpos
    rw [← Nat.mul_assoc] at hlt ⊢
    rw [foldlM_cons, if_pos ((Nat.le_mul_of_pos_right _ hs).trans_lt hlt)]
    exact ih hs _ (Nat.mul_pos hm hd) hlt

theorem reserve_apply {perm : List Nat} (hperm : Orders perm s.length) (hpos : 0 < s.size)
    (hn : 0 < n) (h : reserve k s n = .ok m) : reserve k (apply perm s) n = .ok m := by
  obtain ⟨c, hc, hmax, hbytes, rfl⟩ := reserve_eq_ok_iff.mp h
  obtain rfl := size_of_sizeChecked hc
  have hword : maxElements < modulus := by decide
  have hlt : s.size < modulus := ((Nat.le_mul_of_pos_right _ hn).trans hmax).trans_lt hword
  rw [← size_apply hperm] at hpos hlt hmax hbytes ⊢
  exact reserve_eq_ok_iff.mpr ⟨_, sizeChecked_of_pos hpos hlt, hmax, hbytes, rfl⟩

theorem Region.Valid.shape_le {r : Region} (hr : r.Valid) : Forall₂ (· ≤ ·) r.shape r.source := by
  rw [shape, forall₂_map_left_iff]
  exact hr.within.imp fun _ _ hs => hs.count_le

/-! ## Forward regions -/

/-- A slice that runs forward from a position, up to one or to the end, can be resolved on every
axis. -/
theorem Slice.exists_resolve {start : Int} {stop : Option Int} (hstart : 0 ≤ start)
    (hstop : ∀ z ∈ stop, 0 ≤ z) (length limit : Nat) :
    ∃ span, (range (some start) stop 1).resolve length limit = .ok span := by
  have hstops : (range (some start) stop 1).stops (signed length) = false := by
    cases stop with
    | none => simp [stops, range, Int.not_lt.mpr hstart]
    | some z => simp [stops, range, Int.not_lt.mpr hstart, Int.not_lt.mpr (hstop z rfl)]
  have hfits : fits (-1) := by decide
  have hindex : (range (some start) stop 1).index? = none := rfl
  simp only [resolve, hstops, hindex]
  simp [range, hfits]

/-- Every span of the region runs forward, position by position. -/
def Region.Forward (r : Region) : Prop := ∀ s ∈ r.spans, s.step = 1 ∧ 0 ≤ s.start

theorem Region.forward_full (s : Shape) : (full s).Forward := by
  intro span hspan
  obtain ⟨n, -, rfl⟩ := mem_map.mp hspan
  exact ⟨rfl, le_rfl⟩

namespace Field

variable {f : Field} {r : Region}

/-- An axis of a field that fits the host can be sliced beside a forward span of the host. -/
theorem exists_followAxis {axis d n : Nat} {host : Span} (hr : r.Valid)
    (hhost : r.spans[axis]? = some host) (hforward : host.step = 1 ∧ 0 ≤ host.start)
    (hfits : d = n ∨ d = 1) :
    ∃ slice span, f.followAxis r axis d n = .ok slice ∧ slice.resolve d d = .ok span := by
  by_cases hsame : d = n ∨ (n < d ∧ d ≠ 1)
  · have hstop : ∀ z ∈ (if host.stop < 0 then none else some host.stop), 0 ≤ z := by
      intro z hz
      split at hz
      · cases hz
      · cases hz
        omega
    obtain ⟨span, hspan⟩ := Slice.exists_resolve hforward.2 hstop d d
    refine ⟨Slice.ofSpan host, span, ?_, ?_⟩
    · rw [followAxis, if_pos hsame, hr.axisSlice_eq_ok hhost]
    · rw [Slice.ofSpan, hforward.1]
      exact hspan
  · obtain rfl : d = 1 := by omega
    refine ⟨Slice.between 0 1, Span.full 1, ?_, by decide⟩
    rw [followAxis, if_neg hsame, if_pos rfl]

/-- A field that fits the host has a region of its own beside each forward region of the host. -/
theorem exists_followRegion (hr : r.Valid) (hforward : r.Forward) (hfits : f.shape.Fits r.source) :
    ∃ slices own, f.followSlices r = .ok slices ∧ ofSlices f.shape slices = .ok own ∧
      own.Valid ∧ own.source = f.shape := by
  obtain ⟨axes, haxes⟩ : ∃ axes, axes = (zip f.shape r.source).zipIdx := ⟨_, rfl⟩
  obtain ⟨m, hm⟩ : ∃ m : List (Slice × Span), Forall₂ (fun p x =>
      f.followAxis r p.2 p.1.1 p.1.2 = .ok x.1 ∧ x.1.resolve p.1.1 p.1.1 = .ok x.2) axes m := by
    refine exists_forall₂ fun p hp => ?_
    obtain ⟨⟨d, n⟩, axis⟩ := p
    rw [haxes] at hp
    have hzip := mem_zipIdx_iff_getElem?.mp hp
    obtain ⟨hd, hn⟩ := getElem?_zip_eq_some.mp hzip
    have haxis : axis < r.spans.length := by
      have := (List.getElem?_eq_some_iff.mp hn).1
      rwa [hr.length_source] at this
    have hhost := getElem?_eq_getElem haxis
    obtain ⟨slice, span, hslice, hspan⟩ := exists_followAxis hr hhost
      (hforward _ (getElem_mem haxis)) ((forall₂_iff_zip.mp hfits).2 (mem_of_getElem? hzip))
    exact ⟨(slice, span), hslice, hspan⟩
  have hrank : ¬ f.rank ≠ r.source.length := not_not.mpr hfits.length_eq
  have hshape : axes.map (fun p => p.1.1) = f.shape := by
    have hfst : (fun p : (Nat × Nat) × Nat => p.1.1) = Prod.fst ∘ Prod.fst := rfl
    rw [haxes, hfst, ← map_map, zipIdx_map_fst, map_fst_zip hfits.length_eq.le]
  have hresolve : Forall₂ (fun (x : Slice × Nat) span => x.1.resolve x.2 x.2 = .ok span)
      ((m.map Prod.fst).zip f.shape) (m.map Prod.snd) := by
    rw [← hshape]
    clear haxes hshape
    induction hm with
    | nil => exact .nil
    | cons hx _ ih => exact .cons hx.2 ih
  have hown := ofSlices_of_resolve (by
    rw [length_map, ← hm.length_eq, ← hshape, length_map]) hresolve
  refine ⟨m.map Prod.fst, _, ?_, hown, valid_ofSlices hown, rfl⟩
  rw [followSlices, if_neg hrank, mapM_eq_ok, ← haxes, forall₂_map_right_iff]
  exact hm.imp fun _ _ hx => hx.1

theorem exists_sliceView {own : Region} (hsource : own.source = f.shape) :
    ∃ g, f.sliceView own = .ok g := by
  simp only [sliceView, Frame.slice, bind_eq_ok]
  exact ⟨_, _, ⟨(), if_pos hsource, rfl⟩, rfl⟩

theorem source_of_sliceView {g : Field} {own : Region} (hg : f.sliceView own = .ok g) :
    own.source = f.shape := by
  simp only [sliceView, bind_eq_ok] at hg
  obtain ⟨frame, hframe, -⟩ := hg
  exact (Frame.slice_eq_ok hframe).1

/-- A field that fits the host follows it to a view of a forward region. -/
theorem exists_followSlice_view (hr : r.Valid) (hforward : r.Forward)
    (hfits : f.shape.Fits r.source) : ∃ g, f.followSlice r true = .ok g := by
  obtain ⟨slices, own, hslices, hown, -, hsource⟩ := exists_followRegion hr hforward hfits
  obtain ⟨g, hg⟩ := exists_sliceView hsource
  exact ⟨g, by simp only [followSlice, bind_eq_ok]; exact ⟨slices, hslices, own, hown, hg⟩⟩

/-- The field fits the host, and a copy of it can be set aside. -/
structure Attachable (f : Field) (host : Shape) : Prop where
  sound : f.Sound
  fits : f.shape.Fits host
  room : ∃ n, reserve f.kind f.shape f.itemSize = .ok n

namespace Attachable

variable {g : Field} {host : Shape}

theorem dense (h : f.Attachable host) : f.dense.Attachable host :=
  ⟨(shows_dense h.sound).sound, h.fits, h.room⟩

theorem exists_followSlice (h : f.Attachable r.source) (hr : r.Valid) (hforward : r.Forward) :
    ∃ g, f.followSlice r false = .ok g := by
  obtain ⟨slices, own, hslices, hown, hvalid, hsource⟩ := exists_followRegion hr hforward h.fits
  obtain ⟨v, hv⟩ := exists_sliceView hsource
  obtain ⟨n, hn⟩ := h.room
  obtain ⟨l, hl⟩ := reserve_of_le (hsource ▸ hvalid.shape_le) hn
  have hread : v.checkRead = .ok () := by
    rw [checkRead, check_eq_ok]
    exact (shows_sliceView h.sound hvalid hv).1.sound.fault_eq_none
  refine ⟨v.dense, ?_⟩
  simp only [Field.followSlice, slice, Bool.false_eq_true, if_false, bind_eq_ok]
  exact ⟨slices, hslices, own, hown, v, hv, l, hl, (), hread, rfl⟩

end Attachable

/-- A field does not follow a host that is longer on an axis where the field has one item for each
position. -/
theorem followSlice_eq_error {asView : Bool} (hr : r.Valid)
    (hle : Forall₂ (fun d n => d ≤ n ∨ d = 1) f.shape r.source) (hfits : ¬ f.shape.Fits r.source) :
    f.followSlice r asView = .error (.incompatibleShapes f.shape r.source) := by
  have hrank : ¬ f.rank ≠ r.source.length := not_not.mpr hle.length_eq
  have hslices : f.followSlices r = .error (.incompatibleShapes f.shape r.source) := by
    rw [followSlices, if_neg hrank]
    refine mapM_eq_error ?_ ?_
    · rintro ⟨⟨d, n⟩, axis⟩ hp
      have hzip := mem_zipIdx_iff_getElem?.mp hp
      obtain ⟨-, hn⟩ := getElem?_zip_eq_some.mp hzip
      have haxis : axis < r.spans.length := by
        have := (List.getElem?_eq_some_iff.mp hn).1
        rwa [hr.length_source] at this
      by_cases hsame : d = n ∨ (n < d ∧ d ≠ 1)
      · exact .inl ⟨_, (if_pos hsame).trans (hr.axisSlice_eq_ok (getElem?_eq_getElem haxis))⟩
      · by_cases hd : d = 1
        · exact .inl ⟨_, (if_neg hsame).trans (if_pos hd)⟩
        · exact .inr ((if_neg hsame).trans (if_neg hd))
    · rw [Fits, forall₂_iff_zip] at hfits
      push Not at hfits
      obtain ⟨d, n, hdn, hne, hd⟩ := hfits hle.length_eq
      obtain ⟨axis, haxis⟩ := mem_iff_getElem?.mp hdn
      refine ⟨((d, n), axis), mem_zipIdx_iff_getElem?.mpr haxis, ?_⟩
      have hshorter := (forall₂_iff_zip.mp hle).2 hdn
      have hsame : ¬ (d = n ∨ (n < d ∧ d ≠ 1)) := by omega
      exact (if_neg hsame).trans (if_neg hd)
  rw [followSlice, hslices]
  rfl

end Field

/-! ## Reshapes -/

namespace Shape

theorem sizeChecked_squeeze (s : Shape) : s.squeeze.sizeChecked = s.sizeChecked := by
  suffices ∀ n < modulus,
      s.squeeze.foldlM (fun n d => if n * d < modulus then some (n * d) else none) n =
        s.foldlM (fun n d => if n * d < modulus then some (n * d) else none) n from
    this 1 (by decide)
  induction s with
  | nil => exact fun _ _ => rfl
  | cons d s ih =>
    intro n hn
    by_cases hd : d = 1
    · have hsqueeze : squeeze (d :: s) = squeeze s := filter_cons_of_neg (by simpa using hd)
      rw [foldlM_cons, hd, Nat.mul_one, if_pos hn]
      exact ih n hn
    · have hsqueeze : squeeze (d :: s) = d :: squeeze s := filter_cons_of_pos (by simpa using hd)
      rw [hsqueeze, foldlM_cons, foldlM_cons]
      by_cases hlt : n * d < modulus
      · rw [if_pos hlt]
        exact ih _ hlt
      · rw [if_neg hlt]
        rfl

theorem sizeChecked_pad (s : Shape) (rank : Nat) : (s.pad rank).sizeChecked = s.sizeChecked := by
  have hsqueeze : (s.pad rank).squeeze = s.squeeze := by simp [pad, squeeze]
  rw [← sizeChecked_squeeze, hsqueeze, sizeChecked_squeeze]

theorem Fits.le {s host : Shape} (h : s.Fits host) (hpos : 0 < host.size) :
    Forall₂ (· ≤ ·) s host := by
  induction h with
  | nil => exact .nil
  | @cons d n s host hdn _ ih =>
    have hn : 0 < n := Nat.pos_of_mul_pos_right hpos
    exact .cons (by omega) (ih (Nat.pos_of_mul_pos_left hpos))

theorem Fits.squeeze_eq_nil {s host : Shape} (h : s.Fits host) (hsize : host.size = 1) :
    s.squeeze = [] := by
  induction h with
  | nil => rfl
  | @cons d n s host hdn _ ih =>
    have hn : n = 1 := Nat.eq_one_of_mul_eq_one_right hsize
    have hd : d = 1 := by omega
    rw [squeeze, filter_cons_of_neg (by simpa using hd)]
    exact ih (Nat.eq_one_of_mul_eq_one_left hsize)

end Shape

/-- Axes of shapes that differ in unit axes only are not merged or split. -/
theorem AxisGroup.Passes.le_one {i j : Nat} {source target : Shape} {groups : List AxisGroup}
    (h : Passes i j source target groups) (hones : source.squeeze = target.squeeze) :
    ∀ g ∈ groups, g.sourceLength ≤ 1 ∧ g.targetLength ≤ 1 := by
  induction h with
  | nil => simp
  | goes _ ih | comes _ ih => simpa using ih (by simpa [squeeze] using hones)
  | @stays _ _ source target _ d _ ih =>
    have hrest : squeeze source = squeeze target := by
      by_cases hd : d = 1 <;> simpa [squeeze, hd] using hones
    simpa using ih hrest
  | regroups hd he hde _ _ _ _ =>
    -- Neither axis is a unit axis, so both are the first that count.
    simp [squeeze, hd, he, hde] at hones

namespace Regrouping

variable {map : Regrouping} {field source target out : Shape} {g : AxisGroup}

/-- A field of a host goes along to the other shape: it has all of the host's axes, or, in every
group of axes that are merged or split, all of them or only unit axes. -/
def Takes (map : Regrouping) (field : Shape) : Prop :=
  field = map.source ∨ ∃ groups, map.found = .ok groups ∧ ∀ g ∈ groups, g.isSingle = true ∨
    g.source field = g.source map.source ∨ ∀ n ∈ g.source field, n = 1

theorem groupShape_cases (map : Regrouping) (field : Shape) (g : AxisGroup) :
    (∃ out, map.groupShape field g = .ok out) ∧ (g.isSingle ∨
        g.source field = g.source map.source ∨ ∀ n ∈ g.source field, n = 1) ∨
      map.groupShape field g = .error (.unsupportedReshape field map.target .broadcastAxes) ∧
        ¬ (g.isSingle ∨ g.source field = g.source map.source ∨ ∀ n ∈ g.source field, n = 1) := by
  by_cases hsingle : g.isSingle
  · exact .inl ⟨⟨_, if_pos hsingle⟩, .inl hsingle⟩
  by_cases hwhole : g.source field = g.source map.source
  · exact .inl ⟨⟨_, (if_neg hsingle).trans (if_pos hwhole)⟩, .inr (.inl hwhole)⟩
  by_cases hones : ∀ n ∈ g.source field, n = 1
  · have hall : (g.source field).all (· == 1) := by simpa using hones
    exact .inl ⟨⟨_, (if_neg hsingle).trans ((if_neg hwhole).trans (if_pos hall))⟩,
      .inr (.inr hones)⟩
  · have hall : ¬ (g.source field).all (· == 1) := by simpa using hones
    refine .inr ⟨(if_neg hsingle).trans ((if_neg hwhole).trans (if_neg hall)), ?_⟩
    rintro (h | h | h)
    · exact hsingle h
    · exact hwhole h
    · exact hones h

theorem exists_reshapeShape (hlength : field.length = map.source.length) (h : map.Takes field) :
    ∃ out, map.reshapeShape field = .ok out := by
  by_cases hwhole : field = map.source
  · exact ⟨_, if_pos hwhole⟩
  · obtain ⟨groups, hfound, hgroups⟩ := h.resolve_left hwhole
    obtain ⟨parts, hparts⟩ := exists_forall₂
      fun g hg => by
        rcases map.groupShape_cases field g with ⟨hout, -⟩ | ⟨-, hnot⟩
        · exact hout
        · exact absurd (hgroups g hg) hnot
    refine ⟨parts.flatten, ?_⟩
    rw [reshapeShape, if_neg hwhole, if_neg (not_not.mpr hlength)]
    simp only [Regrouping.groups, hfound, bind_eq_ok, mapM_eq_ok]
    exact ⟨groups, rfl, parts, hparts, rfl⟩

theorem reshapeShape_eq_error (hlength : field.length = map.source.length) (h : ¬ map.Takes field) :
    ∃ s fault, map.reshapeShape field = .error (.unsupportedReshape s map.target fault) := by
  have hwhole : field ≠ map.source := fun hwhole => h (.inl hwhole)
  rw [reshapeShape, if_neg hwhole, if_neg (not_not.mpr hlength)]
  cases hfound : map.found with
  | error fault =>
    refine ⟨map.source, fault, ?_⟩
    simp only [Regrouping.groups, hfound]
    rfl
  | ok groups =>
    refine ⟨field, .broadcastAxes, ?_⟩
    have herror : groups.mapM (map.groupShape field) =
        .error (.unsupportedReshape field map.target .broadcastAxes) := by
      refine mapM_eq_error (fun g _ => ?_) ?_
      · exact (map.groupShape_cases field g).imp And.left And.left
      · by_contra hnone
        refine h (.inr ⟨groups, hfound, fun g hg => ?_⟩)
        rcases map.groupShape_cases field g with ⟨-, hok⟩ | ⟨herror, -⟩
        · exact hok
        · exact absurd ⟨g, hg, herror⟩ hnone
    simp only [Regrouping.groups, hfound]
    exact congrArg (· >>= fun parts => pure (flatten parts)) herror

/-- Both shapes have a size that is a word, and empty ones whose axes correspond differ in unit axes
only. -/
theorem sizeChecked_of_eq_ok (hmap : of source target = .ok map) :
    ∃ n, source.sizeChecked = some n ∧ target.sizeChecked = some n ∧
      (n = 0 → ∀ groups, map.found = .ok groups → source.squeeze = target.squeeze) := by
  unfold of at hmap
  split at hmap
  · rename_i m n hm hn
    split at hmap
    · rename_i hmn
      subst hmn
      cases hmap
      refine ⟨m, hm, hn, fun hzero groups hfound => ?_⟩
      by_contra hne
      have hdiffers : m = 0 ∧ ¬ source.differsByOnes target := by
        refine ⟨hzero, ?_⟩
        simpa [differsByOnes] using hne
      simp only [if_pos hdiffers] at hfound
      cases hfound
    · cases hmap
  · cases hmap

theorem sizeChecked_reshapeShape {n : Nat} (hmap : of source target = .ok map)
    (hfits : field.Fits source) (hn : field.sizeChecked = some n)
    (hout : map.reshapeShape field = .ok out) : out.sizeChecked = some n := by
  obtain ⟨size, hsource, htarget, hempty⟩ := sizeChecked_of_eq_ok hmap
  have hcarried := carried_reshapeShape hmap hfits hout
  have hsize := size_of_sizeChecked hsource
  by_cases hpos : 0 < target.size
  · obtain ⟨m, -, hm⟩ := sizeChecked_of_le (hcarried.out_fits.le hpos) htarget
    rw [hm, ← size_of_sizeChecked hm, ← hcarried.field_eq, size_of_sizeChecked hn]
  · obtain ⟨-, hmsource, hmtarget, hbetween⟩ := of_eq_ok hmap
    rcases reshapeShape_eq_ok hmap hout with
      ⟨rfl, rfl⟩ | ⟨groups, parts, hfound, hgrouped, hparts, rfl⟩
    · rw [htarget, ← hn, hsource]
    · have hzero : size = 0 := by
        rw [← hsize, hcarried.size_eq]
        omega
      have hunits := (AxisGroup.passes_of_between (hbetween groups hfound)).le_one
        (hempty hzero groups hfound)
      -- An axis stays as it is, or it is a unit axis that comes or goes.
      have hsqueeze : squeeze parts.flatten = squeeze (field.drop 0) := by
        refine induction_grouped (P := fun _ field _ out => squeeze out = squeeze field)
          rfl ?_ ?_ hgrouped hmsource hmtarget hfits hparts
        · intro _ _ _ _ _ _ _ _ h₁ h₂
          rw [squeeze, squeeze, filter_append, filter_append]
          exact congrArg₂ (· ++ ·) h₁ h₂
        · intro g hg out hout hsize hlength hsingle hfits
          by_cases hone : g.isSingle
          · rw [Except.ok.inj (hout.symm.trans (if_pos hone))]
          · have hpart := carried_groupShape hout hsize hlength hsingle hfits
            obtain ⟨hm, hn⟩ := hunits g hg
            have hsource : Shape.size (g.source map.source) = 1 := by
              simp only [AxisGroup.isSingle, Bool.and_eq_true, beq_iff_eq] at hone
              by_cases hm : g.sourceLength = 0
              · rw [AxisGroup.source, hm]
                rfl
              · have hn : g.targetLength = 0 := by omega
                rw [hsize, AxisGroup.target, hn]
                rfl
            rw [hpart.fits.squeeze_eq_nil hsource, hpart.out_fits.squeeze_eq_nil (hsize ▸ hsource)]
      rw [← sizeChecked_squeeze, hsqueeze, sizeChecked_squeeze]
      exact hn

end Regrouping

namespace Field

variable {f g : Field} {map : Regrouping} {source target : Shape}

theorem shape_reshape {s : Shape} (h : f.reshape s = .ok g) : g.shape = s := by
  simp only [reshape, bind_eq_ok, pure_eq_ok] at h
  obtain ⟨map, hmap, rfl⟩ := h
  obtain ⟨-, -, htarget, -⟩ := Regrouping.of_eq_ok hmap
  cases hframe : f.regrouped? map with
  | some frame =>
    simp only [regrouped, hframe]
    exact (Frame.regrouped_eq_some hframe).1.trans htarget
  | none =>
    simp only [regrouped, hframe]
    exact htarget

section

variable (hmap : Regrouping.of source target = .ok map) (hfits : f.shape.Fits source)
include hmap hfits

theorem fits_of_followReshape (hg : f.followReshape map = .ok g) : g.shape.Fits target := by
  simp only [followReshape, bind_eq_ok] at hg
  obtain ⟨out, hout, hg⟩ := hg
  rw [shape_reshape hg]
  exact (Regrouping.carried_reshapeShape hmap hfits hout).out_fits

theorem exists_followReshape {n : Nat} (hn : f.shape.sizeChecked = some n) (h : map.Takes f.shape) :
    ∃ g, f.followReshape map = .ok g := by
  obtain ⟨-, hsource, -, -⟩ := Regrouping.of_eq_ok hmap
  obtain ⟨out, hout⟩ := Regrouping.exists_reshapeShape (hsource ▸ hfits.length_eq) h
  have hsize := Regrouping.sizeChecked_reshapeShape hmap hfits hn hout
  obtain ⟨own, hown⟩ : ∃ own, Regrouping.of f.shape out = .ok own := by
    simp only [Regrouping.of, hn, hsize]
    exact ⟨_, rfl⟩
  refine ⟨f.regrouped own, ?_⟩
  simp only [followReshape, reshape, bind_eq_ok]
  exact ⟨out, hout, own, hown, rfl⟩

end

theorem followReshape_eq_error (hlength : f.shape.length = map.source.length)
    (h : ¬ map.Takes f.shape) : ∃ s fault,
      f.followReshape map = .error (.unsupportedReshape s map.target fault) := by
  obtain ⟨s, fault, herror⟩ := Regrouping.reshapeShape_eq_error hlength h
  refine ⟨s, fault, ?_⟩
  rw [followReshape, herror]
  rfl

end Field

end Hyperslab
