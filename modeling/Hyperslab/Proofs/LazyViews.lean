import Hyperslab.Proofs.Contents
import Hyperslab.Lazy.Resident

/-!
# Lazy views show what eager views show

A lazy dataset over data in memory remembers one region of the data and one order of axes. However
slices and transposes follow each other, what it reads is what the same slices and transposes of
the data itself show.
-/
namespace Hyperslab

open Dataset List Permutation Region Shape

theorem Task.run_ofAction {σ α : Type} (context : String) (a : Action σ α) (s : σ) :
    (ofAction context a).run s = ((a s).1.mapError (.ofIoFailure context), (a s).2) := by
  change ofAction context a s = _
  rcases h : a s with ⟨e | x, s'⟩ <;> simp only [ofAction, h] <;> rfl

open Permutation (apply inverse Orders)

/-! ## What a lazy dataset covers -/

/-- The order of the axes of the region that a lazy dataset covers. -/
def Lazy.order {σ : Type} (l : Lazy σ) : List Nat := l.perm.getD (List.range l.rank)

/-- The lazy dataset `l` stands for the view `v` of `d`: item `q` of the view is the item of `d`
that the covered region selects at `q` with its axes put back in order. -/
structure Lazy.Tracks {σ : Type} (l : Lazy σ) (v d : Block) : Prop where
  kind_eq : l.kind = v.kind
  name_eq : l.name = v.name
  shape_eq : l.shape = v.shape
  itemSize_eq : l.itemSize = v.itemSize
  metadata_eq : l.metadata = .empty
  base_none : l.base = none → l.perm = none
  orders : Orders l.order l.rank
  covered_valid : l.covered.Valid
  covered_source : l.covered.source = d.shape
  covered_shape : l.covered.shape = apply (inverse l.order) l.shape
  isView : v.IsView d fun q => l.covered.sourcePosition (apply (inverse l.order) q)

namespace Lazy

variable {σ : Type} {l : Lazy σ} {v d : Block} {r : Region}

/-- A region with its axes put back in the order of the covered region. -/
private theorem exists_inner (hr : r.Valid) (hrank : r.rank = l.rank)
    (horders : Orders l.order l.rank) :
    ∃ inner, (l.perm.elim (.ok r) fun p => r.permuted? (inverse p)) = .ok inner ∧ inner.Valid ∧
      inner.source = apply (inverse l.order) r.source ∧
      inner.shape = apply (inverse l.order) r.shape ∧
      ∀ q, r.shape.contains q → inner.sourcePosition (apply (inverse l.order) q) =
        apply (inverse l.order) (r.sourcePosition q) := by
  cases hperm : l.perm with
  | none =>
    have horder : l.order = List.range r.rank := by rw [order, hperm, Option.getD_none, hrank]
    have hid {α : Type} {x : List α} (hx : x.length = r.rank) : apply (inverse l.order) x = x := by
      rw [horder, apply_inverse_range hx]
    refine ⟨r, rfl, hr, (hid hr.length_source).symm, (hid (length_shape r)).symm, fun q hq => ?_⟩
    have hq := (length_of_contains hq).trans (length_shape r)
    rw [hid hq, hid]
    simp [Region.sourcePosition, Region.coords, hq, Region.rank]
  | some p =>
    have horder : l.order = p := by rw [order, hperm, Option.getD_some]
    rw [horder] at horders ⊢
    have hinverse : Orders (inverse p) r.rank := hrank ▸ Permutation.orders_inverse horders
    have hpermuted : r.permuted? (inverse p) = .ok (r.permuted (inverse p)) := by
      unfold Region.permuted?
      rw [if_pos]
      rw [List.all_eq_true]
      intro a ha
      have ha : a < r.rank := hinverse.mem_iff.mp ha
      simp only [List.all_append, List.all_cons, List.all_nil, hr.length_source, ha, decide_true,
        Bool.true_and, List.all_map, List.all_eq_true, Option.mem_toList,
        Function.comp_apply, decide_eq_true_eq]
      exact fun limits hlimits => hr.limits limits hlimits ▸ ha
    exact ⟨r.permuted (inverse p), hpermuted, hr.permuted hinverse, rfl, shape_permuted ..,
      fun q hq => sourcePosition_permuted hinverse hq⟩

theorem Tracks.toSource_eq (h : l.Tracks v d) (hr : r.Valid) (hsource : r.source = v.shape) :
    ∃ source, l.toSource r = .ok source ∧ source.Valid ∧ source.source = d.shape ∧
      source.shape = apply (inverse l.order) r.shape ∧
      ∀ q, r.shape.contains q → source.sourcePosition (apply (inverse l.order) q) =
        l.covered.sourcePosition (apply (inverse l.order) (r.sourcePosition q)) := by
  have hrank : r.rank = l.rank := by
    rw [← hr.length_source, hsource, ← h.shape_eq]
    rfl
  have hlengths {q : Position} (hq : r.shape.contains q) : ∀ n ∈ v.shape, n ≤ Word.modulus := by
    have hsize : 0 < v.shape.size := hsource ▸ (size_pos_of_contains hq).trans_le hr.size_le
    exact fun n hn => h.isView.sound.inside.small hsize hn
  obtain ⟨inner, hinner, hvalid, hinsource, hinshape, hposition⟩ := exists_inner hr hrank h.orders
  have hdo : l.toSource r = l.base.elim (.ok inner) fun b => b.compose inner := by
    simp [toSource, hsource, h.shape_eq, hinner, bind, Except.bind]
  cases hbase : l.base with
  | none =>
    -- Nothing is remembered yet: the dataset covers all of the data in its own order.
    have hperm := h.base_none hbase
    have hcovered : l.covered = full l.shape := by simp [covered, hbase, hperm]
    have horder : l.order = List.range l.rank := by simp [order, hperm]
    have hid {q : Position} (hq : q.length = l.rank) : apply (inverse l.order) q = q := by
      rw [horder, apply_inverse_range hq]
    obtain rfl : inner = r := by simpa [hperm] using hinner.symm
    refine ⟨inner, by rw [hdo, hbase, Option.elim_none], hr, ?_, hinshape, fun q hq => ?_⟩
    · have := h.covered_source
      rw [hcovered] at this
      rw [hsource, ← h.shape_eq]
      exact this
    · have hcontains : l.shape.contains (inner.sourcePosition q) := by
        rw [h.shape_eq, ← hsource]
        exact hr.contains_sourcePosition (hsource ▸ hlengths hq) hq
      have hlength : (inner.sourcePosition q).length = l.rank := length_of_contains hcontains
      have hq' : q.length = l.rank := by
        rw [length_of_contains hq, length_shape, hrank]
      rw [hid hq', hid hlength, hcovered, sourcePosition_full (h.shape_eq ▸ hlengths hq) hcontains]
  | some b =>
    have hcovered : l.covered = b := by simp [covered, hbase]
    have hb : b.Valid := hcovered ▸ h.covered_valid
    have hshape : inner.source = b.shape := by
      rw [← hcovered, h.covered_shape, hinsource, hsource, h.shape_eq]
    obtain ⟨source, hcompose⟩ : ∃ source, b.compose inner = .ok source :=
      ⟨_, hb.compose_eq hvalid hshape⟩
    obtain ⟨hsource', hshape'⟩ := hb.shape_compose hvalid hcompose
    refine ⟨source, by rw [hdo, hbase, Option.elim_some, hcompose], hb.compose hvalid hcompose,
      ?_, hshape'.trans hinshape, fun q hq => ?_⟩
    · rw [hsource', ← hcovered]
      exact h.covered_source
    · have hcontains : inner.shape.contains (apply (inverse l.order) q) := by
        rw [hinshape]
        exact contains_apply (by rw [length_shape, hrank]; exact orders_inverse h.orders) hq
      have hsmall : ∀ n ∈ inner.source, n ≤ Word.modulus := by
        intro n hn
        rw [hinsource, hsource] at hn
        obtain ⟨a, -, ha⟩ := mem_filterMap.mp hn
        exact hlengths hq n (mem_of_getElem? ha)
      rw [hb.sourcePosition_compose hvalid hcompose hcontains hsmall, hposition q hq, hcovered]

theorem tracks_of (loader : Option (Loader σ)) (h : d.Sound) (hmeta : d.metadata = .empty) :
    (of loader d.kind d.name d.itemSize d.shape).Tracks d d := by
  have hcovered : (of loader d.kind d.name d.itemSize d.shape).covered = full d.shape := rfl
  have horder : (of loader d.kind d.name d.itemSize d.shape).order =
    List.range d.shape.length := rfl
  have hid {q : Position} (hq : q.length = d.shape.length) :
      apply (inverse (List.range d.shape.length)) q = q := by
    rw [apply_inverse_range hq]
  have hsame : d.IsView d id :=
    ⟨h, rfl, rfl, hmeta, rfl, h.inside.length_strides, fun _ hp => hp, fun _ _ => rfl⟩
  refine ⟨rfl, rfl, rfl, rfl, rfl, fun _ => rfl, orders_range _, ?_, rfl, ?_,
    hsame.congr fun q hq => ?_⟩
  · exact valid_full _
  · rw [hcovered, shape_full]
    exact (hid rfl).symm
  · have hlength := length_of_contains hq
    have hsmall : ∀ n ∈ d.shape, n ≤ Word.modulus :=
      fun n hn => h.inside.small (size_pos_of_contains hq) hn
    rw [hcovered, horder, hid hlength, sourcePosition_full hsmall hq, id]

end Lazy

/-! ## Steps -/

/-- What can be done to a view without reading it. -/
inductive ViewStep where
  | slice (r : Region) (hr : r.Built)
  | transpose (axes : List Int)

namespace ViewStep

/-- The step on a dataset. -/
def onBlock (d : Block) : ViewStep → Except Error Block
  | slice r _ => d.sliceView r
  | transpose axes => d.transposed axes

def onLazy {σ : Type} (l : Lazy σ) : ViewStep → Except Error (Lazy σ)
  | slice r _ => l.sliceView r
  | transpose axes => l.transposed axes

end ViewStep

/-- Both sides are refused for the same reason, or the lazy side stands for the other one. -/
def Lazy.Agree {σ : Type} (d : Block) (x : Except Error (Lazy σ)) (y : Except Error Block) : Prop :=
  (∃ e, x = .error e ∧ y = .error e) ∨ ∃ l v, x = .ok l ∧ y = .ok v ∧ l.Tracks v d

namespace Lazy

variable {σ : Type} {l : Lazy σ} {v d : Block} {r : Region}

theorem Tracks.slice (h : l.Tracks v d) (hr : r.Valid) :
    Agree d (l.sliceView r) (v.sliceView r) := by
  by_cases hsource : r.source = v.shape
  · obtain ⟨source, hto, hvalid, hsource', hshape, hposition⟩ := h.toSource_eq hr hsource
    obtain ⟨e, he, hview, hname, heshape⟩ :=
      h.isView.sound.sliceView_eq h.isView.metadata_eq hr hsource
    have hrank : r.shape.length = l.shape.length := by
      rw [length_shape, ← hr.length_source, hsource, h.shape_eq]
    let l' : Lazy σ := { l with name := l.name ++ r.text, shape := r.shape, base := some source }
    have horder : l'.order = l.order := by simp only [order, rank, l', hrank]
    refine .inr ⟨l', e, ?_, he, ?_⟩
    · simp [sliceView, hto, h.metadata_eq, bind, Except.bind, pure, Except.pure, l']
    refine ⟨h.kind_eq.trans hview.kind_eq.symm, by rw [hname, ← h.name_eq], heshape.symm,
      h.itemSize_eq.trans hview.itemSize_eq.symm, h.metadata_eq, by simp [l'], ?_, hvalid, hsource',
      by rw [horder]; exact hshape, (hview.trans h.isView).congr fun q hq => ?_⟩
    · have := h.orders
      rw [horder]
      simpa only [rank, l', hrank] using this
    · rw [heshape] at hq
      rw [horder]
      exact (hposition q hq).symm
  · refine .inl ⟨.incompatibleShapes r.source v.shape, ?_, ?_⟩
    · simp [sliceView, toSource, h.shape_eq, hsource, bind, Except.bind]
    · simp [Dataset.sliceView, Frame.slice, Frame.checkRegion, hsource, bind, Except.bind]

private theorem elim_applyChecked {p : List Nat} (horders : Orders l.order l.rank)
    (hp : Orders p l.rank) :
    l.perm.elim (.ok p) (applyChecked p) = (.ok (apply p l.order) : Except Error _) := by
  cases hperm : l.perm with
  | none =>
    have horder : l.order = List.range l.rank := by simp [order, hperm]
    rw [Option.elim_none, horder, apply_range_right fun a ha => hp.mem_iff.mp ha]
  | some q =>
    have horder : l.order = q := by simp [order, hperm]
    rw [horder] at horders ⊢
    have hall : p.all (· < q.length) := by
      simp only [all_eq_true, decide_eq_true_eq]
      exact fun a ha => horders.length_eq ▸ hp.mem_iff.mp ha
    simp [applyChecked, hall]

theorem Tracks.transpose (h : l.Tracks v d) (axes : List Int) :
    Agree d (l.transposed axes) (v.transposed axes) := by
  have hrank : v.rank = l.rank := congrArg length h.shape_eq.symm
  cases hperm : ofAxes l.rank axes with
  | error e =>
    refine .inl ⟨e, ?_, ?_⟩
    · simp [transposed, hperm, bind, Except.bind]
    · simp [Dataset.transposed, hrank, hperm, bind, Except.bind]
  | ok p =>
    obtain ⟨e, he, hview, hname, hshape⟩ :=
      h.isView.sound.transposed_eq h.isView.metadata_eq (hrank ▸ hperm)
    have hp : Orders p l.rank := orders_of_ofAxes hperm
    have hp' : Orders p l.shape.length := hp
    have hview := hview.trans h.isView
    by_cases hid : isIdentity p
    · have hrange : p = List.range l.shape.length := by
        rw [← hp'.length_eq]
        exact isIdentity_iff.mp hid
      have hsame : e.shape = v.shape := by
        rw [hshape, hrange, h.shape_eq, apply_range]
      refine .inr ⟨l, e, ?_, he, ?_⟩
      · have hcopy : l.copy = l := by rw [copy, h.metadata_eq, Metadata.copy_empty, ← h.metadata_eq]
        simp [transposed, hperm, hid, hcopy, bind, Except.bind, pure, Except.pure]
      refine ⟨h.kind_eq.trans (hview.kind_eq.trans h.isView.kind_eq.symm).symm,
        h.name_eq.trans hname.symm, h.shape_eq.trans hsame.symm,
        h.itemSize_eq.trans (hview.itemSize_eq.trans h.isView.itemSize_eq.symm).symm,
        h.metadata_eq, h.base_none, h.orders, h.covered_valid, h.covered_source, h.covered_shape,
        hview.congr fun q hq => ?_⟩
      have hq : q.length = l.shape.length := by
        rw [length_of_contains hq, hsame, h.shape_eq]
      rw [hrange, apply_inverse_range hq]
    · let perm := apply p l.order
      let l' : Lazy σ := { l with
        shape := apply p l.shape
        base := some l.covered
        perm := if isIdentity perm then none else some perm }
      have hrank' : l'.rank = l.rank := by
        simp only [rank]
        rw [length_apply fun a ha => hp'.mem_iff.mp ha, hp'.length_eq]
      have horders : Orders perm l.rank := orders_apply hp h.orders
      have horder : l'.order = perm := by
        simp only [order, hrank', l']
        split
        · rename_i hidentity
          rw [← horders.length_eq]
          exact (isIdentity_iff.mp hidentity).symm
        · rw [Option.getD_some]
      refine .inr ⟨l', e, ?_, he, ?_⟩
      · simp [transposed, hperm, hid, elim_applyChecked h.orders hp, h.metadata_eq, bind,
          Except.bind, pure, Except.pure, l', perm]
      refine ⟨h.kind_eq.trans (hview.kind_eq.trans h.isView.kind_eq.symm).symm,
        h.name_eq.trans hname.symm, by rw [hshape, ← h.shape_eq],
        h.itemSize_eq.trans (hview.itemSize_eq.trans h.isView.itemSize_eq.symm).symm,
        h.metadata_eq, by simp [l'], by rw [horder, hrank']; exact horders, h.covered_valid,
        h.covered_source, ?_, hview.congr fun q hq => ?_⟩
      · have hlength : (apply p l.shape).length = l.rank := hrank'
        rw [horder, apply_inverse_comp (hlength ▸ hp) (hlength ▸ h.orders), apply_inverse_apply hp']
        exact h.covered_shape
      · have hq : q.length = l.rank := by
          rw [length_of_contains hq, hshape, ← h.shape_eq]
          exact hrank'
        rw [horder, apply_inverse_comp (hq ▸ hp) (hq ▸ h.orders)]
        rfl

theorem Tracks.step (h : l.Tracks v d) (step : ViewStep) :
    Agree d (step.onLazy l) (step.onBlock v) := by
  cases step with
  | slice r hr => exact h.slice hr.valid
  | transpose axes => exact h.transpose axes

theorem Tracks.run (h : l.Tracks v d) (steps : List ViewStep) :
    Agree d (steps.foldlM ViewStep.onLazy l) (steps.foldlM ViewStep.onBlock v) := by
  induction steps generalizing l v with
  | nil => exact .inr ⟨l, v, rfl, rfl, h⟩
  | cons step steps ih =>
    rw [foldlM_cons, foldlM_cons]
    rcases h.step step with ⟨e, hl, hv⟩ | ⟨l', v', hl, hv, h'⟩
    · rw [hl, hv]
      exact .inl ⟨e, rfl, rfl⟩
    · rw [hl, hv]
      exact ih h'

/-! ## Reading -/

/-- Data that was read under the covered order of axes, in the order of the lazy dataset. -/
theorem arranged_eq (k : Kind) (name : String) {n : Nat} {source : Region} {t : Shape}
    {item : Position → List Scalar} (horders : Orders l.order l.rank)
    (ht : t.length = l.rank) (hshape : source.shape = apply (inverse l.order) t) (hn : 0 < n)
    (hitem : ∀ p, source.shape.contains p → (item p).length = n)
    (hlist : k.bytes * (source.shape.size * n) < Word.half) :
    l.arranged source (ofItems k name source.shape n item) =
      .ok (ofItems k name t n fun q => item (apply (inverse l.order) q)) := by
  have hdata : (ofItems k name source.shape n item).shape = source.shape := rfl
  cases hperm : l.perm with
  | none =>
    have hid {α : Type} {x : List α} (hx : x.length = l.rank) : apply (inverse l.order) x = x := by
      rw [order, hperm, Option.getD_none, apply_inverse_range hx]
    rw [hid ht] at hshape
    simp only [arranged, hdata, if_true, hperm, bind_eq_ok, pure_eq_ok]
    refine ⟨_, rfl, ?_⟩
    rw [hshape]
    refine ofItems_congr fun q hq => ?_
    rw [hid ((length_of_contains hq).trans ht)]
  | some p =>
    have horder : l.order = p := by simp [order, hperm]
    rw [horder] at horders hshape ⊢
    have hp : Orders p t.length := ht ▸ horders
    have hsound : (ofItems k name source.shape n item).Sound := sound_ofItems hn hitem hlist
    have hrank : (ofItems k name source.shape n item).rank = l.rank := by
      change source.shape.length = l.rank
      rw [hshape, length_apply (inverse_lt hp), length_inverse, horders.length_eq]
    obtain ⟨e, he, hview, hname, heshape⟩ :=
      hsound.transposed_eq rfl (hrank ▸ ofAxes_map_ofNat horders)
    have heshape : e.shape = t := by
      rw [heshape, hdata, hshape, apply_apply_inverse hp]
    simp only [arranged, hdata, if_true, hperm, bind_eq_ok, pure_eq_ok]
    refine ⟨_, rfl, e, he, ?_⟩
    rw [dense_eq, hview.kind_eq, hname, heshape, hview.itemSize_eq]
    refine ofItems_congr fun q hq => ?_
    have hq : e.shape.contains q := heshape ▸ hq
    rw [hview.item_eq hsound hq]
    exact item_ofItems hn hitem hlist (hview.shows.contains q hq)

section

variable {loader : Loader σ} {source : Region} {state : σ} {arrange : Block → Except Error Block}
  (hloader : l.loader = some loader)
include hloader

theorem run_load {out : Except IoFailure Block} (hread : loader.read source state = (out, state)) :
    (l.load r source arrange).run state = ((do
      let data ← out.mapError (.ofIoFailure ("reading " ++ (l.name ++ r.text)))
      let c ← arrange data
      let m ← l.metadata.onSlice r false
      return { c with name := l.name ++ r.text, metadata := m }), state) := by
  simp only [load, hloader, run_bind, Task.run_ofAction, hread]
  cases out with
  | error e => rfl
  | ok data =>
    simp only [Except.mapError, andThen_ok, ok_bind]
    cases arrange data with
    | error e => rfl
    | ok c => cases l.metadata.onSlice r false <;> rfl

end

/-- **A region of the view is the arranged copy of what it stands for.** The copy has the same items
under the covered order of axes, so both orders have to be within what can be set aside. -/
theorem Tracks.exists_arranged (h : l.Tracks v d) (hd : d.Sound) (hmeta : d.metadata = .empty)
    (hr : r.Valid) (hsource : r.source = v.shape) {n m : Nat}
    (hn : reserve v.kind r.shape v.itemSize = .ok n)
    (hm : reserve v.kind (apply (inverse l.order) r.shape) v.itemSize = .ok m) :
    ∃ source data c, l.toSource r = .ok source ∧ source.Valid ∧ source.source = d.shape ∧
      source.shape = apply (inverse l.order) r.shape ∧
      reserve d.kind source.shape d.itemSize = .ok m ∧ d.slice source = .ok data ∧
      l.arranged source data = .ok c ∧
      v.slice r = .ok { c with name := l.name ++ r.text, metadata := .empty } := by
  obtain ⟨source, hto, hvalid, hsource', hshape, hposition⟩ := h.toSource_eq hr hsource
  have hrank : r.shape.length = l.rank := by
    rw [length_shape, ← hr.length_source, hsource, ← h.shape_eq]
    rfl
  rw [h.isView.kind_eq, h.isView.itemSize_eq, ← hshape] at hm
  obtain ⟨rfl, hmax⟩ := elementCount_eq_ok (reserve_eq_ok hm)
  have harranged := l.arranged_eq d.kind (d.name ++ source.text) h.orders hrank hshape
    hd.itemSize_pos (fun p _ => length_item d (source.sourcePosition p))
    (bytes_mul_lt hmax)
  refine ⟨source, _, _, hto, hvalid, hsource', hshape, hm, hd.slice_eq hvalid hsource' hmeta hm,
    harranged, (h.isView.sound.slice_eq hr hsource h.isView.metadata_eq hn).trans ?_⟩
  have hitems : ∀ q, r.shape.contains q → item v (r.sourcePosition q) =
      item d (source.sourcePosition (apply (inverse l.order) q)) := by
    intro q hq
    rw [hposition q hq]
    exact h.isView.item_eq hd (h.isView.sound.inside.contains_sourcePosition hr hsource hq)
  rw [ofItems_congr hitems, h.name_eq, h.isView.kind_eq, h.isView.itemSize_eq]
  rfl

/-- **A region of a lazy dataset is read as the copy of that region of the view.** -/
theorem Tracks.slice_run {loader : Loader σ} {state : σ} (h : l.Tracks v d) (hd : d.Sound)
    (hmeta : d.metadata = .empty) (hloader : l.loader = some loader)
    (hread : ∀ source b, d.slice source = .ok b → loader.read source state = (.ok b, state))
    (hr : r.Valid) (hsource : r.source = v.shape)
    {n m : Nat} (hn : reserve v.kind r.shape v.itemSize = .ok n)
    (hm : reserve v.kind (apply (inverse l.order) r.shape) v.itemSize = .ok m) :
    ∃ b, v.slice r = .ok b ∧ (l.slice r).run state = (.ok b, state) := by
  obtain ⟨source, data, c, hto, -, -, -, -, hdata, hc, hslice⟩ :=
    h.exists_arranged hd hmeta hr hsource hn hm
  refine ⟨_, hslice, ?_⟩
  simp only [Lazy.slice, run_bind, run_lift, hto, andThen_ok,
    run_load hloader (hread source data hdata), Except.mapError, hc, ok_bind, h.metadata_eq,
    Metadata.onSlice_empty]
  rfl

end Lazy

/-! ## Data in memory -/

namespace Depot

theorem setMemory_memory (i : Nat) (depot : Depot) :
    depot.setMemory i (depot.memory i) = depot := by
  unfold setMemory memory
  have hsame : depot.memories.setIfInBounds i (depot.memories.getD i noMemory) =
      depot.memories := by
    apply Array.ext (by simp)
    intro j hj hj'
    by_cases hij : i = j
    · subst hij
      simp [hj']
    · rw [Array.getElem_setIfInBounds hj', if_neg hij]
  rw [hsame]

theorem read_memorySaver (i : Nat) (depot : Depot) (r : Region) : (memorySaver i).read r depot =
    (((depot.memory i).stored.sliceInWords r).mapError Memory.refusal, depot) := by
  change (_, depot.setMemory i (depot.memory i)) = _
  rw [setMemory_memory]
  rfl

theorem memory_keep (d : Block) (depot : Depot) :
    (keep d depot).2.memory (keep d depot).1 = .of d := by
  simp [keep, addMemory, memory]

theorem read_memorySaver_keep (d : Block) (depot : Depot) (r : Region) :
    (memorySaver (keep d depot).1).read r (keep d depot).2 =
      ((d.sliceInWords r).mapError Memory.refusal, (keep d depot).2) := by
  rw [read_memorySaver, memory_keep]
  rfl

theorem read_memoryLoader_keep {d b : Block} {depot : Depot} {r : Region} (h : d.slice r = .ok b) :
    (memoryLoader (keep d depot).1).read r (keep d depot).2 = (.ok b, (keep d depot).2) := by
  simp only [memoryLoader, memory_keep, Memory.of, h]
  rfl

end Depot

theorem ViewStep.onLazy_loader {σ : Type} {l l' : Lazy σ} {step : ViewStep}
    (h : step.onLazy l = .ok l') : l'.loader = l.loader := by
  cases step with
  | slice r hr =>
    simp only [onLazy, Lazy.sliceView, bind_eq_ok, pure_eq_ok] at h
    obtain ⟨-, -, -, -, rfl⟩ := h
    rfl
  | transpose axes =>
    simp only [onLazy, Lazy.transposed, bind_eq_ok] at h
    obtain ⟨p, -, h⟩ := h
    split at h
    · simp only [pure_eq_ok] at h
      exact h ▸ rfl
    · simp only [bind_eq_ok, pure_eq_ok] at h
      obtain ⟨-, -, -, -, rfl⟩ := h
      rfl

end Hyperslab
