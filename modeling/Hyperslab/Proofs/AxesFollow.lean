import Hyperslab.Proofs.AxisFields
import Hyperslab.Proofs.ErrorsFollow

/-!
# Values along axes follow the data

Any number of fields of values can be attached to each axis of a dataset. When the dataset is sliced,
reshaped or transposed, the lists of fields change on one way and each field on another. However
many such steps there are, the two stay together: each field of the result stands along the axis in
whose list it is, and has the values that its positions had before.
-/
namespace Hyperslab

open List Permutation Shape

open Dataset

/-! ## Lists of values -/

/-- For each axis a list of fields, each of them given by its values. -/
abbrev AxisLists := List (List (List (List Scalar)))

namespace AxisLists

/-- A slice keeps the values of the positions that it keeps. -/
def slice (r : Region) (lists : AxisLists) : AxisLists :=
  List.zipWith (fun fields span => fields.map (Span.kept span)) lists r.spans

/-- Another shape keeps the list of an axis that alone becomes one axis. Every other axis has no
values. -/
def reshape (s t : Shape) (lists : AxisLists) : AxisLists :=
  (List.range t.length).map fun j => ((Regrouping.keptAxis? s t j).bind (lists[·]?)).getD []

end AxisLists

/-- The lists of a dataset of shape `t` that an operation derives from one of shape `s`, if the
operation is a slice, an order of axes or another shape. -/
def ViewOp.axisLists? (s t : Shape) (lists : AxisLists) : ViewOp → Option AxisLists
  | view | copy => some lists
  | slice r _ | sliceView r _ => some (lists.slice r)
  | transposed axes =>
      match Permutation.ofAxes s.length axes with
      | .ok perm => some (Permutation.apply perm lists)
      | .error _ => none
  | reshape _ | setShape _ | squeeze | squeezeEnds | squeezeAxes _ | flatten =>
      some (lists.reshape s t)
  | _ => none

/-! ## Fields and their lists -/

namespace AxisValues

/-- The fields of each axis are fields along it, with the listed values. -/
structure Holds (a : AxisValues) (host : Shape) (lists : AxisLists) : Prop where
  shape_eq : a.shape = host
  length_axes : a.axes.length = host.length
  length_lists : lists.length = host.length
  along : ∀ i fields values, a.axes[i]? = some fields → lists[i]? = some values →
    List.Forall₂ (fun f v => Field.Along f host i v) fields values

variable {a a' : AxisValues} {host : Shape} {lists : AxisLists}

/-- Fields that are taken through a step one by one keep to what becomes of their values. -/
private theorem forall₂_step {P R : Field → List (List Scalar) → Prop}
    {step : Field → Except Error Field} {fields fields' : List Field}
    {values : List (List (List Scalar))} (change : List (List Scalar) → List (List Scalar))
    (h : Forall₂ P fields values) (hfields : Forall₂ (fun f g => step f = .ok g) fields fields')
    (hstep : ∀ f g v, P f v → step f = .ok g → R g (change v)) :
    Forall₂ R fields' (values.map change) := by
  induction hfields generalizing values with
  | nil =>
    cases h
    exact .nil
  | cons hg _ ih =>
    cases h with
    | cons hf hrest => exact .cons (hstep _ _ _ hf hg) (ih hrest)

namespace Holds

theorem copy (h : a.Holds host lists) : a.copy.Holds host lists where
  shape_eq := h.shape_eq
  length_axes := by simp [AxisValues.copy, h.length_axes]
  length_lists := h.length_lists
  along i fields values hfields hvalues := by
    simp only [AxisValues.copy, getElem?_map, Option.map_eq_some_iff] at hfields
    obtain ⟨fields, hfields, rfl⟩ := hfields
    rw [forall₂_map_left_iff]
    exact (h.along i fields values hfields hvalues).imp fun _ _ => Field.Along.dense

theorem onSlice {r : Region} {asView : Bool} (h : a.Holds r.source lists) (hr : r.Built)
    (hsmall : ∀ n ∈ r.source, n < Word.half) (hpos : 0 < size r.shape)
    (ha : a.onSlice r asView = .ok a') : a'.Holds r.shape (lists.slice r) := by
  simp only [AxisValues.onSlice, bind_eq_ok, pure_eq_ok, mapM_eq_ok] at ha
  obtain ⟨axes, haxes, rfl⟩ := ha
  have hrank : r.source.length = r.rank := hr.valid.length_source
  refine ⟨rfl, ?_, ?_, fun i fields' values' hfields' hvalues' => ?_⟩
  · rw [← haxes.length_eq, h.length_axes, hrank, Region.length_shape]
  · rw [AxisLists.slice, length_zipWith, h.length_lists, Region.length_shape, hrank]
    exact Nat.min_self _
  · obtain ⟨fields, hfields, hstep⟩ := exists_of_getElem? haxes hfields'
    simp only [AxisLists.slice, getElem?_zipWith_eq_some] at hvalues'
    obtain ⟨values, span, hvalues, hspan, rfl⟩ := hvalues'
    exact forall₂_step span.kept (h.along i fields values hfields hvalues) hstep
      fun f g v hf hg => hf.slice hr hsmall hpos hspan hg

theorem onTranspose {perm : List Nat} (h : a.Holds host lists) (hperm : Orders perm host.length)
    (ha : a.onTranspose perm = .ok a') : a'.Holds (apply perm host) (apply perm lists) := by
  have hlt : ∀ i ∈ perm, i < host.length := fun i hi => hperm.mem_iff.mp hi
  have hchecked {α : Type} {l : List α} (hl : l.length = host.length) :
      applyChecked perm l = .ok (apply perm l) := by
    rw [applyChecked, if_pos (by simpa [hl] using hlt)]
  simp only [AxisValues.onTranspose, hchecked h.length_axes, h.shape_eq, hchecked rfl, bind_eq_ok,
    pure_eq_ok, mapM_eq_ok, Except.ok.injEq] at ha
  obtain ⟨_, rfl, axes, haxes, _, rfl, rfl⟩ := ha
  have hlength : (apply perm host).length = host.length := by
    rw [length_apply hlt, hperm.length_eq]
  refine ⟨rfl, ?_, ?_, fun i fields' values hfields' hvalues => ?_⟩
  · rw [← haxes.length_eq, length_apply (h.length_axes ▸ hlt), hperm.length_eq, hlength]
  · rw [length_apply (h.length_lists ▸ hlt), hperm.length_eq, hlength]
  · obtain ⟨fields, hfields, hstep⟩ := exists_of_getElem? haxes hfields'
    rw [getElem?_apply (h.length_axes ▸ hlt)] at hfields
    rw [getElem?_apply (h.length_lists ▸ hlt)] at hvalues
    obtain ⟨axis, haxis, hfields⟩ := Option.bind_eq_some_iff.mp hfields
    rw [haxis] at hvalues
    have := forall₂_step id (h.along axis fields values hfields hvalues) hstep
      fun f g v hf hg => hf.transpose hperm haxis hg
    rwa [map_id] at this

theorem onReshape {t : Shape} {map : Regrouping} (h : a.Holds host lists)
    (hmap : Regrouping.of host t = .ok map) (hpos : 0 < t.size)
    (ha : a.onReshape map = .ok a') : a'.Holds t (lists.reshape host t) := by
  obtain ⟨-, -, htarget, -⟩ := Regrouping.of_eq_ok hmap
  simp only [AxisValues.onReshape, bind_eq_ok, pure_eq_ok, mapM_eq_ok] at ha
  obtain ⟨entries, hentries, axes, haxes, rfl⟩ := ha
  have hentries := Regrouping.remapAxes_eq_ok hmap hentries
  refine ⟨htarget, ?_, by simp [AxisLists.reshape], fun j fields' values hfields' hvalues => ?_⟩
  · rw [← haxes.length_eq, hentries, List.length_map, List.length_range]
  · obtain ⟨entry, hentry, hstep⟩ := exists_of_getElem? haxes hfields'
    rw [hentries, List.getElem?_map, Option.map_eq_some_iff] at hentry
    obtain ⟨k, hk, rfl⟩ := hentry
    rw [AxisLists.reshape, List.getElem?_map, hk, Option.map_some, Option.some.injEq] at hvalues
    obtain rfl : j = k := by simpa using (List.getElem?_eq_some_iff.mp hk).2
    subst hvalues
    cases hkept : Regrouping.keptAxis? host t j with
    | none =>
      rw [hkept] at hstep
      cases hstep
      exact .nil
    | some i =>
      have hi := (Regrouping.aligned_of_keptAxis hkept).lt_length.1
      obtain ⟨fields, hfields⟩ : ∃ fields, a.axes[i]? = some fields :=
        ⟨_, List.getElem?_eq_getElem (h.length_axes ▸ hi)⟩
      obtain ⟨values, hvalues⟩ : ∃ values, lists[i]? = some values :=
        ⟨_, List.getElem?_eq_getElem (h.length_lists ▸ hi)⟩
      simp only [hkept, Option.bind_some, List.getElem?_map, hfields, Option.map_some,
        Option.join_some] at hstep
      have := forall₂_step id (h.along i fields values hfields hvalues) hstep
        fun f g v hf hg => hf.reshape hmap hkept hpos hg
      simpa [hvalues] using this

end Holds

end AxisValues

namespace Metadata

variable {m m' : Metadata} {k : Nat} {host : Shape} {lists : AxisLists}

/-- The values along axes with number `k` hold the listed values. -/
def Holds (m : Metadata) (k : Nat) (host : Shape) (lists : AxisLists) : Prop :=
  ∃ a, m.axes[k]? = some a ∧ a.Holds host lists

namespace Holds

theorem copy (h : m.Holds k host lists) : m.copy.Holds k host lists := by
  obtain ⟨a, ha, hholds⟩ := h
  exact ⟨a.copy, by simp [Metadata.copy, ha], hholds.copy⟩

/-- What each of the attached values keeps, the one with number `k` keeps. -/
private theorem exists_of_mapM {step : AxisValues → Except Error AxisValues}
    {axes axes' : List AxisValues} {a : AxisValues} (ha : axes[k]? = some a)
    (h : Forall₂ (fun a a' => step a = .ok a') axes axes') :
    ∃ a', axes'[k]? = some a' ∧ step a = .ok a' := by
  obtain ⟨a', ha', hstep⟩ := exists_of_getElem? h.flip ha
  exact ⟨a', ha', hstep⟩

theorem onSlice {r : Region} {asView : Bool} (h : m.Holds k r.source lists) (hr : r.Built)
    (hsmall : ∀ n ∈ r.source, n < Word.half) (hpos : 0 < size r.shape)
    (hm : m.onSlice r asView = .ok m') : m'.Holds k r.shape (lists.slice r) := by
  obtain ⟨a, ha, hholds⟩ := h.copy
  simp only [Metadata.onSlice, bind_eq_ok, pure_eq_ok, mapM_eq_ok] at hm
  obtain ⟨-, -, axes, haxes, -, -, rfl⟩ := hm
  obtain ⟨a', ha', hstep⟩ := exists_of_mapM ha haxes
  exact ⟨a', ha', hholds.onSlice hr hsmall hpos hstep⟩

theorem onTranspose {perm : List Nat} (h : m.Holds k host lists) (hperm : Orders perm host.length)
    (hm : m.onTranspose perm = .ok m') : m'.Holds k (apply perm host) (apply perm lists) := by
  obtain ⟨a, ha, hholds⟩ := h.copy
  simp only [Metadata.onTranspose, bind_eq_ok, pure_eq_ok, mapM_eq_ok] at hm
  obtain ⟨-, -, axes, haxes, -, -, rfl⟩ := hm
  obtain ⟨a', ha', hstep⟩ := exists_of_mapM ha haxes
  exact ⟨a', ha', hholds.onTranspose hperm hstep⟩

theorem onReshape {t : Shape} {map : Regrouping} (h : m.Holds k host lists)
    (hmap : Regrouping.of host t = .ok map) (hpos : 0 < t.size)
    (hm : m.onReshape map = .ok m') : m'.Holds k t (lists.reshape host t) := by
  obtain ⟨a, ha, hholds⟩ := h.copy
  simp only [Metadata.onReshape, bind_eq_ok, pure_eq_ok, mapM_eq_ok] at hm
  obtain ⟨-, -, axes, haxes, -, -, rfl⟩ := hm
  obtain ⟨a', ha', hstep⟩ := exists_of_mapM ha haxes
  exact ⟨a', ha', hholds.onReshape hmap hpos hstep⟩

end Holds

end Metadata

/-! ## Operations -/

namespace AxisGroup

theorem between_self (i j : Nat) (s : Shape) :
    between i j s s = .ok ((List.range s.length).map fun k => ⟨i + k, 1, j + k, 1⟩) := by
  induction s generalizing i j with
  | nil => simp [between]
  | cons d s ih =>
    rw [between, ih]
    simp [List.range_succ_eq_map, Nat.add_assoc, Nat.add_comm 1]

end AxisGroup

theorem AxisLists.reshape_self {s : Shape} {lists : AxisLists} (h : lists.length = s.length) :
    lists.reshape s s = lists := by
  refine List.ext_getElem (by simp [reshape, h]) fun j hj hj' => ?_
  have hkept : Regrouping.keptAxis? s s j = some j := by
    have hlt : j < s.length := h ▸ hj'
    simpa [Regrouping.keptAxis?, AxisGroup.between_self, AxisGroup.isSingle, hlt] using
      fun i hi => Nat.ne_of_lt hi
  simp [reshape, hkept, hj']

namespace Dataset

variable {β : Type} {h v : Dataset β} {k : Nat} {lists : AxisLists}

theorem holds_transposed {axes : List Int} {perm : List Nat} (hv : h.transposed axes = .ok v)
    (hperm : ofAxes h.rank axes = .ok perm) (hholds : h.metadata.Holds k h.shape lists) :
    v.metadata.Holds k v.shape (apply perm lists) := by
  have horders := orders_of_ofAxes hperm
  simp only [Dataset.transposed, hperm, bind_eq_ok, Except.ok.injEq] at hv
  obtain ⟨_, rfl, hv⟩ := hv
  split at hv
  · rename_i hid
    simp only [pure_eq_ok] at hv
    subst hv
    obtain ⟨a, ha, hlists⟩ := hholds.copy
    have hrange : perm = List.range lists.length := by
      rw [isIdentity_iff.mp hid, horders.length_eq, hlists.length_lists]
      rfl
    rw [hrange, apply_range]
    exact ⟨a, ha, hlists⟩
  · simp only [bind_eq_ok, pure_eq_ok] at hv
    obtain ⟨-, -, m, hm, rfl⟩ := hv
    exact hholds.onTranspose horders hm

end Dataset

namespace Handle

variable {s s' : Store} {h v : Handle} {k : Nat} {lists : AxisLists}

theorem holds_reshape {t : Shape} (hh : h.Held s) (hrun : (h.reshape t).run s = (.ok v, s'))
    (hpos : 0 < v.shape.size) (hholds : h.metadata.Holds k h.shape lists) :
    v.metadata.Holds k v.shape (lists.reshape h.shape v.shape) := by
  rcases run_reshape_eq_ok hrun with ⟨hview, rfl⟩ | ⟨map, m, hmap, hm, hadopt⟩
  · obtain ⟨map, hmap, -, -, hm⟩ := reshapeView_eq_some hview
    rw [(shown_reshape hh.sound hview).1] at hpos ⊢
    exact hholds.onReshape hmap hpos hm
  · cases hadopt
    exact hholds.onReshape hmap hpos hm

theorem holds_setShape {t : Shape} (hh : h.Held s) (hrun : (h.setShape t).run s = (.ok v, s'))
    (hpos : 0 < v.shape.size) (hholds : h.metadata.Holds k h.shape lists) :
    v.metadata.Holds k v.shape (lists.reshape h.shape v.shape) := by
  rcases run_setShape_eq_ok hrun with ⟨-, rfl, -⟩ | ⟨u, isView, hreshape, rfl⟩
  · obtain ⟨a, ha, hlists⟩ := hholds
    rw [AxisLists.reshape_self hlists.length_lists]
    exact ⟨a, ha, hlists⟩
  · exact holds_reshape (v := u) hh hreshape hpos hholds

end Handle

/-- **Values along axes go through an operation as their lists do.** -/
theorem ViewOp.holds {op : ViewOp} {h v : Handle} {s s' : Store} {k : Nat}
    {lists lists' : AxisLists} (hh : h.Held s) (hrun : (op.run h).run s = (.ok v, s'))
    (hlists : op.axisLists? h.shape v.shape lists = some lists') (hpos : 0 < v.shape.size)
    (hholds : h.metadata.Holds k h.shape lists) : v.metadata.Holds k v.shape lists' := by
  cases op with
  | view =>
    cases hrun
    cases hlists
    exact hholds.copy
  | copy =>
    obtain ⟨-, hadopt⟩ := Handle.run_copy_eq_ok hrun
    cases hadopt
    cases hlists
    exact hholds.copy
  | slice r hr =>
    obtain ⟨d, hslice, hadopt⟩ := Handle.run_slice_eq_ok hrun
    cases hadopt
    cases hlists
    obtain ⟨hsource, hshape, hm⟩ := slice_eq_ok hslice
    rw [hshape] at hpos ⊢
    exact Metadata.Holds.onSlice (hsource ▸ hholds) hr
      (Frame.Sound.lt_half_of_region hh.sound hr.valid hsource hpos) hpos hm
  | sliceView r hr =>
    rw [ViewOp.run, run_lift, Prod.mk.injEq] at hrun
    cases hlists
    obtain ⟨hsource, hshape, hm⟩ := sliceView_eq_ok hrun.1
    rw [hshape] at hpos ⊢
    exact Metadata.Holds.onSlice (hsource ▸ hholds) hr
      (Frame.Sound.lt_half_of_region hh.sound hr.valid hsource hpos) hpos hm
  | transposed axes =>
    rw [ViewOp.run, run_lift, Prod.mk.injEq] at hrun
    simp only [axisLists?] at hlists
    split at hlists
    · rename_i perm hperm
      cases hlists
      exact holds_transposed hrun.1 hperm hholds
    · simp at hlists
  | reshape t | squeeze | squeezeEnds | flatten =>
    cases hlists
    exact Handle.holds_reshape hh hrun hpos hholds
  | setShape t =>
    cases hlists
    exact Handle.holds_setShape hh hrun hpos hholds
  | squeezeAxes axes =>
    cases hlists
    simp only [ViewOp.run, Handle.squeezeAxes, run_bind] at hrun
    cases ht : h.shape.squeezeAxes axes with
    | error e =>
      rw [ht] at hrun
      cases hrun
    | ok t =>
      rw [ht] at hrun
      exact Handle.holds_reshape hh hrun hpos hholds
  | swapAxes | rollAxis | flip | rot90 | broadcastView => cases hlists

/-! ## Filling the lists -/

/-- One axis among units fits a host that has as many positions on it, or if it is a unit too. -/
theorem Shape.fits_along {host : Shape} {i n m : Nat} (hn : (host : List Nat)[i]? = some n)
    (hm : m = n ∨ m = 1) : (along host.length i m).Fits host := by
  rw [Fits, forall₂_iff_get]
  refine ⟨length_along, fun j hj hj' => ?_⟩
  have hentry := @getElem?_along host.length i m j hj'
  rw [getElem?_eq_getElem hj, Option.some.injEq] at hentry
  rw [get_eq_getElem, hentry, get_eq_getElem]
  by_cases h : j = i
  · subst h
    rw [getElem?_eq_getElem hj', Option.some.injEq] at hn
    rw [if_pos rfl, hn]
    exact hm
  · exact .inr (if_neg h)

/-- Values that are laid along an axis are a field along it, of doubles. -/
theorem Field.along_of_reshape {f g : Field} {host : Shape} {i n : Nat} (hf : f.Sound)
    (hroomy : f.Roomy) (hn : (host : List Nat)[i]? = some n) (hsize : f.size = n ∨ f.size = 1)
    (hg : (f.cast .double).reshape (Shape.along host.length i f.size) = .ok g) :
    g.Along host i (f.itemList.map (·.map Kind.double.cast)) := by
  obtain ⟨hshows, hshape, -⟩ := shows_reshape (sound_cast hf hroomy) hg
  have hi := (List.getElem?_eq_some_iff.mp hn).1
  have hitems : f.itemList = f.shape.positions.map f.item := Frame.items_eq ..
  have hlength : (f.itemList.map (·.map Kind.double.cast)).length = f.size := by
    rw [hitems, length_map, length_map, length_positions]
    rfl
  have hfits := fits_along hn hsize
  refine ⟨⟨hshows.sound, hshape ▸ hfits, fun q hq => ?_⟩, by rw [hshape, hlength]⟩
  -- What is read of the field for a position is the value with the number of its coordinate.
  have hproject := hfits.contains_project hq
  rw [project_along (length_of_contains hq)] at hproject
  have hlt := ravel_lt hproject
  rw [ravel_along hi, size_along hi] at hlt
  rw [hlength, hshape, project_along (length_of_contains hq),
    hshows.item_eq _ (hshape ▸ hproject), ravel_along hi]
  change (f.cast .double).item (Shape.unravel _ f.shape) = _
  have hlt' : (if f.size = 1 then 0 else (q : List Nat).getD i 0) < f.shape.size := hlt
  generalize (if f.size = 1 then 0 else (q : List Nat).getD i 0) = x at hlt' ⊢
  rw [item_cast hf hroomy (contains_unravel (Nat.zero_lt_of_lt hlt') _), hitems, positions_eq]
  simp [hlt']

/-- All items in row-major order, as doubles. -/
def Dataset.doubles (d : Block) : List (List Scalar) := d.field.itemList.map (·.map Kind.double.cast)

/-- The items of a dataset of a course can be read as doubles. -/
theorem Course.field_sound_and_roomy {α : Type} {n : Notes α} {s : Store} {es : List (Handle × α)}
    {e : Handle × α} (h : Course n s es) (he : e ∈ es) :
    (s.read e.1).field.Sound ∧ (s.read e.1).field.Roomy :=
  ⟨(h.held e he).sound, (h.held_and_keeps (keeps_roomy n) e he).2⟩

namespace AxisValues

variable {a a' : AxisValues} {host : Shape} {lists : AxisLists} {axis : Int} {f : Field}

theorem holds_empty (s : Shape) : (empty s).Holds s (s.map fun _ => []) where
  shape_eq := rfl
  length_axes := length_map ..
  length_lists := length_map ..
  along i fields values hfields hvalues := by
    simp only [empty, getElem?_map, Option.map_eq_some_iff] at hfields hvalues
    obtain ⟨-, -, rfl⟩ := hfields
    obtain ⟨-, -, rfl⟩ := hvalues
    exact .nil

theorem Holds.set {i : Nat} {fields : List Field} {values : List (List (List Scalar))}
    (h : a.Holds host lists) (hnew : Forall₂ (fun f v => Field.Along f host i v) fields values) :
    AxisValues.Holds ⟨host, a.axes.set i fields⟩ host (lists.set i values) := by
  refine ⟨rfl, by simp [h.length_axes], by simp [h.length_lists], ?_⟩
  intro j fields' values' hfields' hvalues'
  by_cases hj : i = j
  · subst hj
    have hi : i < host.length := by
      have := (List.getElem?_eq_some_iff.mp hfields').1
      rwa [length_set, h.length_axes] at this
    rw [getElem?_set_self (h.length_axes ▸ hi), Option.some.injEq] at hfields'
    rw [getElem?_set_self (h.length_lists ▸ hi), Option.some.injEq] at hvalues'
    exact hfields' ▸ hvalues' ▸ hnew
  · rw [getElem?_set_ne hj] at hfields' hvalues'
    exact h.along j fields' values' hfields' hvalues'

theorem Holds.add (h : a.Holds host lists) (hf : f.Sound) (hroomy : f.Roomy)
    (ha : a.add axis f = .ok a') :
    a'.Holds host (lists.modify (axisOf axis host.length)
      (· ++ [f.itemList.map (·.map Kind.double.cast)])) := by
  simp only [AxisValues.add, bind_eq_ok, h.shape_eq] at ha
  obtain ⟨i, hi, ha⟩ := ha
  split at ha
  · simp at ha
  rename_i hsize
  simp only [bind_eq_ok, pure_eq_ok] at ha
  obtain ⟨-, -, g, hg, rfl⟩ := ha
  obtain ⟨rfl, hlt⟩ := normalizeAxis_eq_ok hi
  generalize axisOf axis host.length = i at hlt hg hsize ⊢
  have hn : (host : List Nat)[i]? = some (host.getD i 0) := by
    simp [getD_eq_getElem?_getD, hlt]
  rw [map_const'] at hg
  have hnew := Field.along_of_reshape hf hroomy hn (by omega) hg
  have hfields : i < a.axes.length := h.length_axes ▸ hlt
  have hvalues : i < lists.length := h.length_lists ▸ hlt
  rw [modify_eq_set_get _ hfields, modify_eq_set_get _ hvalues]
  refine h.set (rel_append ?_ (.cons hnew .nil))
  exact h.along i _ _ (by simp) (by simp)

theorem Holds.replace (h : a.Holds host lists) (hf : f.Sound) (hroomy : f.Roomy)
    (ha : a.replace axis f = .ok a') :
    a'.Holds host (lists.set (axisOf axis host.length)
      [f.itemList.map (·.map Kind.double.cast)]) := by
  simp only [AxisValues.replace, bind_eq_ok, h.shape_eq] at ha
  obtain ⟨i, hi, ha⟩ := ha
  obtain ⟨rfl, hlt⟩ := normalizeAxis_eq_ok hi
  have hadded := (h.set .nil).add hf hroomy ha
  rw [modify_eq_set_get _ (by simpa [h.length_lists] using hlt)] at hadded
  simpa using hadded

/-- The values `a` were made for the shape `s` and filled, in any number of steps, with values of
datasets of any courses; `lists` says what is in them. -/
inductive Filled : Shape → AxisLists → AxisValues → Prop where
  | empty (s : Shape) : Filled s (s.map fun _ => []) (.empty s)
  | add {α : Type} {n : Notes α} {store : Store} {es : List (Handle × α)} {e : Handle × α}
      {s : Shape} {lists : AxisLists} {a a' : AxisValues} (axis : Int) : Course n store es → e ∈ es →
      Filled s lists a → a.add axis (store.read e.1).field = .ok a' →
      Filled s (lists.modify (Shape.axisOf axis s.length) (· ++ [(store.read e.1).doubles])) a'
  | replace {α : Type} {n : Notes α} {store : Store} {es : List (Handle × α)} {e : Handle × α}
      {s : Shape} {lists : AxisLists} {a a' : AxisValues} (axis : Int) : Course n store es → e ∈ es →
      Filled s lists a → a.replace axis (store.read e.1).field = .ok a' →
      Filled s (lists.set (Shape.axisOf axis s.length) [(store.read e.1).doubles]) a'

theorem Filled.holds {s : Shape} (h : Filled s lists a) : a.Holds s lists := by
  induction h with
  | empty s => exact holds_empty s
  | add axis hcourse he _ ha ih =>
    obtain ⟨hsound, hroomy⟩ := hcourse.field_sound_and_roomy he
    exact ih.add hsound hroomy ha
  | replace axis hcourse he _ ha ih =>
    obtain ⟨hsound, hroomy⟩ := hcourse.field_sound_and_roomy he
    exact ih.replace hsound hroomy ha

/-- What the fields of values are, of a host that has items. -/
theorem Holds.fields_eq (h : a.Holds host lists) (hpos : 0 < host.size) :
    (∀ i fields, a.axes[i]? = some fields → ∀ f ∈ fields,
      f.shape = Shape.along host.length i f.size ∧
        (f.size = 1 ∨ (host : List Nat)[i]? = some f.size)) ∧
      a.axes.map (·.map Field.itemList) = lists := by
  have hlists {i : Nat} {fields : List Field} (hi : a.axes[i]? = some fields) :
      i < host.length ∧ ∃ values, lists[i]? = some values ∧
        List.Forall₂ (fun f v => Field.Along f host i v) fields values := by
    have hlt : i < host.length := h.length_axes ▸ (List.getElem?_eq_some_iff.mp hi).1
    have hvalues : lists[i]? = some (lists.get ⟨i, h.length_lists ▸ hlt⟩) := by simp
    exact ⟨hlt, _, hvalues, h.along i fields _ hi hvalues⟩
  constructor
  · intro i fields hfields f hf
    obtain ⟨hlt, values, -, hrel⟩ := hlists hfields
    obtain ⟨j, hj⟩ := List.mem_iff_getElem?.mp hf
    obtain ⟨v, hv, halong⟩ := exists_of_getElem? hrel.flip hj
    have hsize : f.size = v.length := by
      rw [Frame.size, halong.shape_eq, size_along hlt]
    have hn : (host : List Nat)[i]? = some (host.get ⟨i, hlt⟩) := by simp
    refine ⟨by rw [hsize]; exact halong.shape_eq, ?_⟩
    rcases halong.length_eq hn with hlength | hone
    · exact .inr (by rw [hn, hsize, hlength])
    · exact .inl (hsize.trans hone)
  · refine List.ext_getElem? fun i => ?_
    by_cases hi : i < a.axes.length
    · have hfields : a.axes[i]? = some (a.axes.get ⟨i, hi⟩) := by simp
      obtain ⟨hlt, values, hvalues, hrel⟩ := hlists hfields
      rw [List.getElem?_map, hfields, Option.map_some, hvalues, Option.some.injEq]
      refine List.forall₂_eq_eq_eq ▸ (List.forall₂_map_left_iff.mpr ?_)
      exact hrel.imp fun f v halong => halong.itemList_eq hlt hpos
    · rw [List.getElem?_eq_none (by simpa using hi),
        List.getElem?_eq_none (by rw [h.length_lists, ← h.length_axes]; omega)]

end AxisValues

/-! ## The law -/

namespace Handle

/-- The dataset `r` of the store `s'` was derived from `d` of the store `s` by any number of slices,
orders of axes and other shapes, and `lists'` is what becomes of `lists` on the way. -/
inductive Route (s : Store) (d : Handle) (lists : AxisLists) :
    Store → Handle → AxisLists → Prop where
  | start : Route s d lists s d lists
  | step {s' s'' : Store} {h v : Handle} {lists' lists'' : AxisLists} (op : ViewOp) :
      Route s d lists s' h lists' → (op.run h).run s' = (.ok v, s'') →
      op.axisLists? h.shape v.shape lists' = some lists'' → Route s d lists s'' v lists''

theorem Route.holds {s s' : Store} {d r : Handle} {lists lists' : AxisLists}
    (hr : Route s d lists s' r lists') (hd : d.Held s) : r.Held s' ∧
      ∀ k, 0 < r.shape.size → d.metadata.Holds k d.shape lists →
        r.metadata.Holds k r.shape lists' := by
  induction hr with
  | start => exact ⟨hd, fun _ _ hholds => hholds⟩
  | @step s' s'' h v lists' lists'' op _ hrun hlists ih =>
    obtain ⟨hh, hholds⟩ := ih
    have hop : op.repeats = false := by
      cases op with
      | broadcastView t => cases hlists
      | _ => rfl
    have hderives := ViewOp.derives hh hop hrun
    refine ⟨hderives.held hh, fun k hpos hd => ?_⟩
    -- What has items was derived from something that has items.
    have hsize : 0 < h.shape.size := size_pos_of_contains
      ((hderives.shows hh).contains _ (contains_origin hpos))
    exact ViewOp.holds hh hrun hlists hpos (hholds k hsize hd)

end Handle

/-- **Values along axes follow the data.** Attach values along axes to any dataset of a course and
derive from it by slices, orders of axes and other shapes. If the result has any items, it has values
along axes for its own shape, each field of them stands along the axis in whose list it is, with one
value for each position or one for all, and the values are those that became of the given ones. -/
theorem Course.axes_follow {α : Type} {n : Notes α} {s s' : Store} {es : List (Handle × α)}
    (hcourse : Course n s es) {h : Handle × α} (hh : h ∈ es) {a : AxisValues}
    {lists lists' : AxisLists} (ha : AxisValues.Filled h.1.shape lists a) {m : Metadata} {k : Nat}
    (hm : m.axes[k]? = some a) {r : Handle}
    (hroute : Handle.Route s { h.1 with metadata := m } lists s' r lists')
    (hpos : 0 < r.shape.size) :
    ∃ a', r.metadata.axes[k]? = some a' ∧ a'.shape = r.shape ∧ a'.axes.length = r.rank ∧
      (∀ i fields, a'.axes[i]? = some fields → ∀ f ∈ fields,
        f.shape = Shape.along r.rank i f.size ∧
          (f.size = 1 ∨ (r.shape : List Nat)[i]? = some f.size)) ∧
      a'.axes.map (·.map Field.itemList) = lists' := by
  have hheld := hcourse.held h hh
  have hd : Handle.Held { h.1 with metadata := m } s := ⟨hheld.buffer_lt, hheld.sound⟩
  obtain ⟨a', ha', hholds⟩ := (hroute.holds hd).2 k hpos ⟨a, hm, ha.holds⟩
  obtain ⟨hfields, hlists⟩ := hholds.fields_eq hpos
  exact ⟨a', ha', hholds.shape_eq, hholds.length_axes, hfields, hlists⟩

/-- A dataset whose frame allows another shape gets it over its own buffer. -/
theorem Handle.run_reshape_of_regrouped {h : Handle} {s : Store} {t : Shape} {map : Regrouping}
    {frame : Frame} {m : Metadata} (hmap : Regrouping.of h.shape t = .ok map)
    (hfault : h.regroupFault? map = none) (hframe : h.regrouped? map = some frame)
    (hm : h.metadata.onReshape map = .ok m) :
    (h.reshape t).run s = (.ok (h.through frame m), s) := by
  have hview : h.reshapeView? t = .ok (some (h.through frame m)) := by
    simp only [reshapeView?, hmap, ok_bind, hfault, hframe, hm]
    rfl
  simp only [Handle.reshape, run_bind, hview]
  rfl

/-- A unit axis comes between two axes. -/
def parted : Regrouping := ⟨[2, 2], [2, 1, 2], .ok [⟨0, 1, 0, 1⟩, ⟨1, 0, 1, 1⟩, ⟨1, 1, 2, 1⟩]⟩

theorem between_parted : AxisGroup.between 0 0 [2, 2] [2, 1, 2] =
    .ok [⟨0, 1, 0, 1⟩, ⟨1, 0, 1, 1⟩, ⟨1, 1, 2, 1⟩] := by
  simp [AxisGroup.between, bind, Except.bind, pure, Except.pure]

theorem of_eq_parted : Regrouping.of [2, 2] [2, 1, 2] = .ok parted := by
  have hsizes : sizeChecked [2, 2] = some 4 ∧ sizeChecked [2, 1, 2] = some 4 := ⟨rfl, rfl⟩
  simp [Regrouping.of, hsizes, between_parted, parted]

/-- A grid gets a value for each column and one for all rows. Two columns are taken, last one first,
and the axes are reversed. The result can get a unit axis between its axes. -/
theorem Course.exists_route_of_columns : ∃ (s s' : Store) (es : List (Handle × Unit))
    (h : Handle × Unit) (a : AxisValues) (m : Metadata) (u : Handle) (lists : AxisLists),
    Course Notes.none s es ∧ h ∈ es ∧ AxisValues.Filled h.1.shape lists a ∧ m.axes[0]? = some a ∧
      Handle.Route s { h.1 with metadata := m } lists s' u
        [[[[Kind.double.cast (.int 30)], [Kind.double.cast (.int 10)]]],
          [[[Kind.double.cast (.int 7)]]]] ∧
      u.shape = [2, 2] ∧ ∃ v, (u.reshape [2, 1, 2]).run s' = (.ok v, s') ∧ v.shape = [2, 1, 2] := by
  have hrows : Dataset.Made (ofList (.int true .w32) [] 1 ([7].map Scalar.int)) :=
    .ofElements (n := 1) (s := []) (l := [7].map Scalar.int) rfl
  have hcourse := (((Course.start (n := Notes.none)).make made_grid).make made_columns).make hrows
  have hfilled := ((AxisValues.Filled.empty [2, 3]).add 1 hcourse
    (mem_cons_of_mem _ mem_cons_self) rfl).add (-2) hcourse mem_cons_self rfl
  exact ⟨_, _, _, _, _, ⟨[], [_], [], [], []⟩, _, _, hcourse,
    mem_cons_of_mem _ (mem_cons_of_mem _ mem_cons_self), hfilled, rfl,
    (Handle.Route.start.step (.sliceView outerPair built_outerPair) rfl rfl).step (.transposed [])
      rfl rfl, rfl,
    _, Handle.run_reshape_of_regrouped of_eq_parted rfl rfl rfl, rfl⟩

theorem Course.axes_follow_columns : ∃ (r : Handle) (a : AxisValues), r.shape = [2, 1, 2] ∧
    r.metadata.axes[0]? = some a ∧ a.shape = [2, 1, 2] ∧
      a.axes.map (·.map Field.itemList) =
        [[[[Kind.double.cast (.int 30)], [Kind.double.cast (.int 10)]]], [],
          [[[Kind.double.cast (.int 7)]]]] := by
  obtain ⟨s, s', es, h, a, m, u, lists, hcourse, hh, ha, hm, hroute, hu, v, hrun, hv⟩ :=
    Course.exists_route_of_columns
  have hlast := hroute.step (.reshape [2, 1, 2]) hrun rfl
  obtain ⟨a', ha', hshape, -, -, hlists⟩ :=
    hcourse.axes_follow hh ha hm hlast (by rw [hv]; decide)
  refine ⟨v, a', hv, ha', hshape.trans hv, hlists.trans ?_⟩
  simp [AxisLists.reshape, hu, hv, Regrouping.keptAxis?, between_parted, List.range_succ,
    AxisGroup.isSingle]

end Hyperslab
