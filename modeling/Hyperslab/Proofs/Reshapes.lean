import Hyperslab.Proofs.AxesFollow
import Hyperslab.Proofs.CopiesAndViews

/-!
# Reshapes

Another shape of the same size is made in one of three ways: a dense layout gets the strides of the
new shape, a strided layout whose unit axes come and go keeps the strides of the others, and
everything else is copied into a packed buffer. All three keep the items in their row-major order.
-/
namespace Hyperslab

open Dataset List Shape Word

/-! ## Unit axes -/

namespace Shape

theorem differsByOnes_iff {s t : Shape} : s.differsByOnes t ↔ s.squeeze = t.squeeze := beq_iff_eq

theorem squeeze_cons_of_ne {d : Nat} (hd : d ≠ 1) (s : Shape) :
    squeeze (d :: s) = d :: squeeze s := filter_cons_of_pos (by simpa using hd)

theorem squeeze_squeeze (s : Shape) : s.squeeze.squeeze = s.squeeze := by simp [squeeze]

theorem squeeze_dropWhile (s : Shape) : squeeze (s.dropWhile (· == 1)) = squeeze s := by
  induction s with
  | nil => rfl
  | cons d s ih =>
    by_cases hd : d = 1
    · subst hd
      exact ih
    · simp [hd]

theorem squeeze_squeezeEnds (s : Shape) : s.squeezeEnds.squeeze = s.squeeze := by
  have hreverse (s : Shape) : squeeze s.reverse = s.squeeze.reverse := filter_reverse
  rw [squeezeEnds, hreverse, squeeze_dropWhile, hreverse, squeeze_dropWhile, reverse_reverse]

theorem squeeze_squeezeAxes {s t : Shape} {axes : List Int} (h : s.squeezeAxes axes = .ok t) :
    t.squeeze = s.squeeze := by
  simp only [squeezeAxes, bind_eq_ok] at h
  obtain ⟨is, -, h⟩ := h
  split at h
  · cases h
  · rename_i hnone
    cases h
    have hones : ∀ i ∈ is, s[i]? = some 1 := by simpa [find?_eq_none] using hnone
    -- An axis that is no unit axis is not named.
    have hkept : ∀ p ∈ s.zipIdx, p.1 ≠ 1 → p.2 ∉ is := by
      intro p hp hne hmem
      have hget := mem_zipIdx_iff_getElem?.mp hp
      rw [hones _ hmem, Option.some.injEq] at hget
      exact hne hget.symm
    have hfilter : (s.zipIdx.filter fun p => p.2 ∉ is).filter (fun p => p.1 ≠ 1) =
        s.zipIdx.filter fun p => p.1 ≠ 1 := by
      rw [filter_filter]
      refine filter_congr fun p hp => ?_
      by_cases hone : p.1 = 1
      · simp [hone]
      · simp [hkept p hp hone]
    have hmap (l : List (Nat × Nat)) :
        squeeze (l.map Prod.fst) = (l.filter fun p => p.1 ≠ 1).map Prod.fst := filter_map
    rw [hmap, hfilter, ← hmap, zipIdx_map_fst]

/-- The sizes of both shapes are the same word. -/
def SameSize (s t : Shape) : Prop := ∃ n, s.sizeChecked = some n ∧ t.sizeChecked = some n

theorem SameSize.symm {s t : Shape} (h : s.SameSize t) : t.SameSize s := let ⟨n, hs, ht⟩ := h
  ⟨n, ht, hs⟩

theorem SameSize.size_eq {s t : Shape} (h : s.SameSize t) : s.size = t.size := by
  obtain ⟨n, hs, ht⟩ := h
  rw [size_of_sizeChecked hs, size_of_sizeChecked ht]

theorem lt_of_sizeChecked {s : Shape} {n : Nat} (h : s.sizeChecked = some n) : n < modulus := by
  suffices ∀ m < modulus,
      s.foldlM (fun n d => if n * d < modulus then some (n * d) else none) m = some n →
        n < modulus from this 1 (by decide) h
  clear h
  induction s with
  | nil =>
    intro m hm h
    cases h
    exact hm
  | cons d s ih =>
    intro m _ h
    rw [foldlM_cons] at h
    split at h
    · rename_i hlt
      exact ih _ hlt h
    · cases h

theorem sizeChecked_singleton {n : Nat} (h : n < modulus) : sizeChecked [n] = some n := by
  simp [sizeChecked, h]

end Shape

namespace Regrouping

variable {source target s t : Shape} {map : Regrouping}

theorem exists_of_iff : (∃ map, of source target = .ok map) ↔ source.SameSize target := by
  constructor
  · rintro ⟨map, hmap⟩
    obtain ⟨n, hsource, htarget, -⟩ := sizeChecked_of_eq_ok hmap
    exact ⟨n, hsource, htarget⟩
  · rintro ⟨n, hsource, htarget⟩
    simp [of, hsource, htarget]

theorem isOnesOnly_cons (g : AxisGroup) (x : Except RegroupFault (List AxisGroup)) :
    isOnesOnly ⟨s, t, do return g :: (← x)⟩ = (g.isUnit && isOnesOnly ⟨s, t, x⟩) := by
  cases x with
  | ok groups => rfl
  | error fault => simp [isOnesOnly, bind, Except.bind]

/-- Axes correspond one by one just if the shapes are the same apart from unit axes. -/
theorem isOnesOnly_between (i j : Nat) (source target : Shape) :
    isOnesOnly ⟨s, t, AxisGroup.between i j source target⟩ = source.differsByOnes target := by
  fun_induction AxisGroup.between i j source target with
  | case1 => rfl
  | case2 i j source ih | case7 i j source e target _ ih =>
    rw [isOnesOnly_cons, ih]
    rfl
  | case3 i j d source hd =>
    simp [isOnesOnly, Shape.differsByOnes, Shape.squeeze, hd]
  | case4 i j target ih | case8 i j d source target _ _ ih =>
    rw [isOnesOnly_cons, ih]
    rfl
  | case5 i j e target he =>
    simp [isOnesOnly, Shape.differsByOnes, Shape.squeeze, he]
  | case6 i j source d target ih =>
    rw [isOnesOnly_cons, ih]
    by_cases hd : d = 1
    · rw [hd]
      rfl
    · simp [AxisGroup.isUnit, Shape.differsByOnes, squeeze_cons_of_ne hd]
  | case9 i j d source e target hne hd he ih =>
    -- An axis that is merged or split is in a group of more than one axis.
    have hdiffers : Shape.differsByOnes (d :: source) (e :: target) = false := by
      simp [Shape.differsByOnes, squeeze_cons_of_ne hd, squeeze_cons_of_ne he, hne]
    rw [hdiffers]
    cases hmatch : AxisGroup.matchProducts d e source target with
    | error fault => rfl
    | ok counts =>
      obtain ⟨m, n⟩ := counts
      have hmore := AxisGroup.matchProducts_ne hne hmatch
      simp only [bind, Except.bind]
      split
      · rfl
      · have hunit : AxisGroup.isUnit ⟨i, m + 1, j, n + 1⟩ = false := by
          simp only [AxisGroup.isUnit, Bool.and_eq_false_iff, decide_eq_false_iff_not]
          omega
        refine (isOnesOnly_cons _ _).trans ?_
        rw [hunit, Bool.false_and]

/-- Only unit axes come and go just if the shapes are the same apart from unit axes. -/
theorem isOnesOnly_of (hmap : of source target = .ok map) :
    map.isOnesOnly = source.differsByOnes target := by
  obtain ⟨n, hsource, htarget, -⟩ := sizeChecked_of_eq_ok hmap
  simp only [of, hsource, htarget, if_true, Except.ok.injEq] at hmap
  subst hmap
  split
  · rename_i hdiffers
    simp [isOnesOnly, hdiffers.2]
  · exact isOnesOnly_between 0 0 source target

theorem isSome_unitStrides (map : Regrouping) (ts : Strides) :
    (map.unitStrides ts).isSome = map.isOnesOnly := by
  unfold unitStrides
  cases hfound : map.found with
  | ok groups => cases h : map.isOnesOnly <;> simp
  | error fault => simp [isOnesOnly, hfound]

theorem stridesFault_eq_none {ts : Strides} (hmap : of source target = .ok map)
    (hts : ts.length = source.length) : map.stridesFault? ts = none := by
  obtain ⟨-, -, -, hbetween⟩ := of_eq_ok hmap
  unfold stridesFault?
  cases hfound : map.found with
  | error fault => rfl
  | ok groups =>
    have hgrouped := AxisGroup.grouped_of_between (hbetween groups hfound)
    refine if_neg fun h => ?_
    obtain ⟨g, hg, hstays⟩ := any_eq_true.mp h.2
    simp only [Bool.and_eq_true, decide_eq_true_eq] at hstays
    obtain ⟨a, -, hstart, -, s₁, s₂, -, -, d, rfl, -, rfl, -⟩ := hgrouped.aligned hg hstays.1
    have hle := hstays.2
    rw [hts, length_append, length_cons] at hle
    omega

end Regrouping

/-! ## Frames -/

namespace Frame

variable {f f' : Frame} {map : Regrouping} {t : Shape} {length : Nat}

/-- The shape `t` needs no new buffer. -/
def KeepsBuffer (f : Frame) (t : Shape) : Prop :=
  f.layout.isDense = true ∨ f.shape.differsByOnes t = true

instance (f : Frame) (t : Shape) : Decidable (f.KeepsBuffer t) :=
  inferInstanceAs (Decidable (_ ∨ _))

theorem isSome_regrouped_iff (hmap : Regrouping.of f.shape t = .ok map) :
    (f.regrouped? map).isSome ↔ f.KeepsBuffer t := by
  rw [KeepsBuffer, ← Regrouping.isOnesOnly_of hmap, ← map.isSome_unitStrides f.strides]
  unfold regrouped?
  cases hdense : f.layout.isDense <;> simp

theorem Sound.regroupFault_eq_none (h : f.Sound length)
    (hmap : Regrouping.of f.shape t = .ok map) : f.regroupFault? map = none := by
  unfold regroupFault?
  split
  · rfl
  · exact Regrouping.stridesFault_eq_none hmap h.inside.length_strides

theorem layout_regrouped (hdense : f.layout.isDense) (hf : f.regrouped? map = some f') :
    f'.layout.isDense := by
  simp only [regrouped?, hdense, if_true, Option.some.injEq] at hf
  subst hf
  simp [withGeometry, Layout.ofStrides, Layout.isDense]

/-- The numbers met on the way to the shape `t` are words: its strides if the buffer is kept, and
those of the walk of all items if they are copied. -/
structure ReshapesInWords (f : Frame) (t : Shape) : Prop where
  strides : f.KeepsBuffer t → t.stridesFit f.itemSize = true
  walk : ¬ f.KeepsBuffer t → Word.AllFit f.geometry.walkNumbers

theorem reshapesInWords_iff : f.ReshapesInWords t ↔
    if f.KeepsBuffer t then t.stridesFit f.itemSize = true else AllFit f.geometry.walkNumbers := by
  split
  · rename_i hkeeps
    exact ⟨fun h => h.strides hkeeps, fun h => ⟨fun _ => h, fun hnot => absurd hkeeps hnot⟩⟩
  · rename_i hkeeps
    exact ⟨fun h => h.walk hkeeps, fun h => ⟨fun hnot => absurd hnot hkeeps, fun _ => h⟩⟩

instance (f : Frame) (t : Shape) : Decidable (f.ReshapesInWords t) :=
  decidable_of_iff _ reshapesInWords_iff.symm

theorem checkReshape_eq (hsize : f.shape.SameSize t) :
    f.checkReshape t = ensure (f.ReshapesInWords t) := by
  obtain ⟨map, hmap⟩ := Regrouping.exists_of_iff.mpr hsize
  rw [checkReshape, hmap, ok_bind, ensure_congr reshapesInWords_iff]
  by_cases hkeeps : f.KeepsBuffer t
  · rw [if_pos ((isSome_regrouped_iff hmap).mpr hkeeps), stridesChecked_bind, bind_pure]
    exact ensure_congr (iff_of_eq (if_pos hkeeps).symm)
  · have hstrides : f.HasStrides := fun hdense => absurd (.inl (by rw [hdense]; rfl)) hkeeps
    rw [if_neg (mt (isSome_regrouped_iff hmap).mp hkeeps), checkWalk_eq]
    exact ensure_congr ((and_iff_right hstrides).trans (iff_of_eq (if_neg hkeeps).symm))

/-- Items that stay where they are get strides that are words. -/
theorem Sound.reshapesInWords_of_keepsBuffer (h : f.Sound length) (hsize : f.shape.SameSize t)
    (hpos : 0 < f.size) (hkeeps : f.KeepsBuffer t) : f.ReshapesInWords t where
  strides _ := by
    have hlt : f.shape.size * f.itemSize < half := h.inside.size_lt
    have hpos : 0 < f.shape.size := hpos
    rw [hsize.size_eq] at hlt hpos
    exact stridesFit_of_pos h.inside.itemSize_pos hpos hlt
  walk hnot := absurd hkeeps hnot

theorem reshapesInWords_of_empty (hempty : f.size = 0) (hkeeps : ¬ f.KeepsBuffer t) :
    f.ReshapesInWords t where
  strides hnot := absurd hnot hkeeps
  walk _ := by
    have hsize : f.geometry.shape.size = 0 := hempty
    rw [Geometry.walkNumbers, if_pos hsize]
    exact allFit_nil

/-- Items are copied in words, if the buffer takes up no more than half of the words and the strides
of unit axes do not lead out of them. -/
theorem Sound.reshapesInWords_of_room (h : f.Sound length) (hsize : f.shape.SameSize t)
    (hpos : 0 < f.size) (hroom : 2 * length ≤ half)
    (hunit : ∀ x ∈ zip f.shape f.strides, x.1 = 1 → |x.2| + length ≤ half) :
    f.ReshapesInWords t where
  strides hkeeps := (h.reshapesInWords_of_keepsBuffer hsize hpos hkeeps).strides hkeeps
  walk _ := h.inside.allFit_walkNumbers hroom hunit

end Frame

/-! ## Datasets of a store -/

/-- Items in the same row-major order make the same elements. -/
theorem Dataset.toList_eq_of_unravel {d e : Block} (hsize : e.shape.size = d.shape.size)
    (hitem : ∀ q, e.shape.contains q → e.item q = d.item (unravel (e.shape.ravel q) d.shape)) :
    e.toList = d.toList := by
  have hitems : e.shape.positions.map e.item = d.shape.positions.map d.item := by
    rw [positions_eq, positions_eq, map_map, map_map, hsize]
    refine map_congr_left fun k hk => ?_
    have hlt : k < e.shape.size := by
      rw [hsize]
      exact mem_range.mp hk
    have hpos : 0 < e.shape.size := (Nat.zero_le k).trans_lt hlt
    simp only [Function.comp_apply]
    rw [hitem _ (contains_unravel hpos k), ravel_unravel hlt]
  calc e.toList = (e.shape.positions.map e.item).flatten := Frame.elements_eq ..
    _ = (d.shape.positions.map d.item).flatten := by rw [hitems]
    _ = d.toList := (Frame.elements_eq ..).symm

namespace Handle

variable {h v : Handle} {s s' : Store} {t : Shape}

/-- The dataset `v` of the store `s'` is the dataset `h` of the store `s` under the shape `t`. It
looks at the buffer of `h` just if the shape needs no new one; otherwise no dataset of `s` and `v`
see what is written to the other. -/
structure Reshaped (h : Handle) (s : Store) (t : Shape) (v : Handle) (s' : Store) : Prop where
  held : v.Held s'
  metadata_eq : v.metadata = .empty
  shape_eq : v.shape = t
  itemSize_eq : v.itemSize = h.itemSize
  item_eq : ∀ q, t.contains q = true →
    (s'.read v).item q = (s.read h).item (Shape.unravel (t.ravel q) h.shape)
  toList_eq : (s'.read v).toList = (s.read h).toList
  shares_iff : v.sharesBuffer h = true ↔ h.KeepsBuffer t
  store_eq : v.sharesBuffer h = true → s' = s
  apart : v.sharesBuffer h = false → ∀ g : Handle, g.Held s → ∀ b : Buffer,
    (s'.setBuffer v.buffer b).read g = s.read g ∧ (s'.setBuffer g.buffer b).read v = s'.read v
  keepsBuffer_back : v.KeepsBuffer h.shape

theorem Held.run_reshape {map : Regrouping} (hh : h.Held s) (hmeta : h.metadata = .empty)
    (hmap : Regrouping.of h.shape t = .ok map) :
    (h.KeepsBuffer t ∧ ∃ frame, h.regrouped? map = some frame ∧
      (h.reshape t).run s = (.ok (h.through frame .empty), s)) ∨
    (¬ h.KeepsBuffer t ∧ ∃ d : Block, d.layout = .dense ∧ d.metadata = .empty ∧
      (h.reshape t).run s = (.ok (s.adopt d).1, (s.adopt d).2)) := by
  have hfault : h.regroupFault? map = none := hh.sound.regroupFault_eq_none hmap
  have hkeeps := Frame.isSome_regrouped_iff hmap
  cases hframe : h.regrouped? map with
  | some frame =>
    rw [hframe] at hkeeps
    refine .inl ⟨hkeeps.mp rfl, frame, rfl, ?_⟩
    exact run_reshape_of_regrouped hmap hfault hframe (by rw [hmeta, Metadata.onReshape_empty])
  | none =>
    rw [hframe] at hkeeps
    refine .inr ⟨fun hnot => (by simpa using hkeeps.mpr hnot),
      ofField { (s.read h).field.dense with shape := t } .empty, rfl, rfl, ?_⟩
    have hview : h.reshapeView? t = .ok none := by
      simp only [Dataset.reshapeView?, hmap, ok_bind, hfault, hframe]
      rfl
    have hmap' : Regrouping.of (s.read h).shape t = .ok map := hmap
    have hfault' : (s.read h).regroupFault? map = none := hfault
    have hframe' : (s.read h).regrouped? map = none := hframe
    have hmeta' : (s.read h).metadata = .empty := hmeta
    have hread : (s.read h).checkRead = .ok () := check_eq_ok.mpr hh.sound.fault_eq_none
    have hcopy : (s.read h).reshape t =
        .ok (ofField { (s.read h).field.dense with shape := t } .empty) := by
      simp only [Dataset.reshape, hmap', ok_bind, hfault', hframe', hread, hmeta']
      rfl
    simp only [Handle.reshape, run_bind, run_lift, hview, andThen_ok, run_peek, hcopy, run_adopt]

theorem Held.exists_reshape_iff (hh : h.Held s) (hmeta : h.metadata = .empty) :
    (∃ v s', (h.reshape t).run s = (.ok v, s')) ↔ h.shape.SameSize t := by
  rw [← Regrouping.exists_of_iff]
  constructor
  · rintro ⟨v, s', hrun⟩
    rcases run_reshape_eq_ok hrun with ⟨hview, -⟩ | ⟨map, m, hmap, -⟩
    · obtain ⟨map, hmap, -⟩ := reshapeView_eq_some hview
      exact ⟨map, hmap⟩
    · exact ⟨map, hmap⟩
  · rintro ⟨map, hmap⟩
    rcases hh.run_reshape hmeta hmap with ⟨-, frame, -, hrun⟩ | ⟨-, d, -, -, hrun⟩
    · exact ⟨_, _, hrun⟩
    · exact ⟨_, _, hrun⟩

theorem read_setBuffer_of_ne {id : BufferId} {b : Buffer} (hne : v.buffer ≠ id) :
    (s.setBuffer id b).read v = s.read v := by
  rw [Store.read, Store.buffer_setBuffer, if_neg fun h => hne h.1]
  rfl

theorem apart_adopt {g : Handle} (hg : g.Held s) (d : Block) (b : Buffer) :
    ((s.adopt d).2.setBuffer (s.adopt d).1.buffer b).read g = s.read g ∧
      ((s.adopt d).2.setBuffer g.buffer b).read (s.adopt d).1 =
        (s.adopt d).2.read (s.adopt d).1 := by
  have hne : g.buffer ≠ s.buffers.size := hg.buffer_lt.ne
  refine ⟨(read_setBuffer_of_ne hne).trans ?_, read_setBuffer_of_ne hne.symm⟩
  have hbuffer : (s.adopt d).2.buffer g.buffer = s.buffer g.buffer :=
    Store.buffer_push hg.buffer_lt d.buffer
  rw [Store.read, hbuffer]
  rfl

/-- **Another shape keeps the items in their order**, on each of the three ways. -/
theorem Held.reshaped (hh : h.Held s) (hmeta : h.metadata = .empty)
    (hrun : (h.reshape t).run s = (.ok v, s')) : h.Reshaped s t v s' := by
  have hsize := (hh.exists_reshape_iff hmeta).mp ⟨v, s', hrun⟩
  obtain ⟨map, hmap⟩ := Regrouping.exists_of_iff.mpr hsize
  obtain ⟨hshape, hderives⟩ := derives_reshape hh hrun
  have hshows := hderives.shows hh
  have hitem (q : Position) (hq : t.contains q) :
      (s'.read v).item q = (s.read h).item (unravel (t.ravel q) h.shape) :=
    hshows.item_eq q (hshape ▸ hq)
  have hlist : (s'.read v).toList = (s.read h).toList := by
    have hvshape : (s'.read v).shape = t := hshape
    refine toList_eq_of_unravel ?_ ?_
    · rw [hvshape]
      exact hsize.size_eq.symm
    · rw [hvshape]
      exact hitem
  rcases hh.run_reshape hmeta hmap with ⟨hkeeps, frame, hframe, hrun'⟩ |
    ⟨hkeeps, d, hdense, hdmeta, hrun'⟩
  · cases hrun.symm.trans hrun'
    refine ⟨hderives.held hh, rfl, hshape, hshows.itemSize_eq, hitem, hlist, ?_, fun _ => rfl,
      ?_, ?_⟩
    · exact iff_of_true (beq_self_eq_true _) hkeeps
    · intro hnot
      simp [sharesBuffer, through] at hnot
    · rcases hkeeps with hdense | hones
      · exact .inl (Frame.layout_regrouped hdense hframe)
      · refine .inr (differsByOnes_iff.mpr ?_)
        rw [hshape]
        exact (differsByOnes_iff.mp hones).symm
  · cases hrun.symm.trans hrun'
    have hnot : (s.adopt d).1.sharesBuffer h = false := beq_eq_false_iff_ne.mpr hh.buffer_lt.ne'
    refine ⟨hderives.held hh, hdmeta, hshape, hshows.itemSize_eq, hitem, hlist, ?_, ?_, ?_, ?_⟩
    · rw [hnot]
      exact iff_of_false Bool.false_ne_true hkeeps
    · intro hshares
      rw [hnot] at hshares
      cases hshares
    · exact fun _ g hg b => apart_adopt hg d b
    · refine .inl ?_
      change d.layout.isDense
      rw [hdense]
      rfl

/-- The way back from another shape leads to every item where it was, without a new buffer. -/
theorem Reshaped.back (hv : h.Reshaped s t v s') (hsize : h.shape.SameSize t) :
    ∃ w, (v.reshape h.shape).run s' = (.ok w, s') ∧ v.Reshaped s' h.shape w s' ∧
      ∀ p, h.shape.contains p → (s'.read w).item p = (s.read h).item p := by
  have hsize' : v.shape.SameSize h.shape := by
    rw [hv.shape_eq]
    exact hsize.symm
  obtain ⟨w, s'', hrun⟩ := (hv.held.exists_reshape_iff hv.metadata_eq).mpr hsize'
  have hw := hv.held.reshaped hv.metadata_eq hrun
  obtain rfl := hw.store_eq (hw.shares_iff.mpr hv.keepsBuffer_back)
  refine ⟨w, hrun, hw, fun p hp => ?_⟩
  have hlt : h.shape.ravel p < t.size := hsize.size_eq ▸ ravel_lt hp
  have hpos : 0 < t.size := (Nat.zero_le _).trans_lt hlt
  rw [hw.item_eq p hp, hv.shape_eq, hv.item_eq _ (contains_unravel hpos _),
    ravel_unravel hlt, unravel_ravel hp]

theorem Held.reshaped_self (hh : h.Held s) (hmeta : h.metadata = .empty) :
    h.Reshaped s h.shape h s where
  held := hh
  metadata_eq := hmeta
  shape_eq := rfl
  itemSize_eq := rfl
  item_eq q hq := by rw [unravel_ravel hq]
  toList_eq := rfl
  shares_iff := iff_of_true (beq_self_eq_true _) (.inr (differsByOnes_iff.mpr rfl))
  store_eq _ := rfl
  apart hnot := by simp [sharesBuffer] at hnot
  keepsBuffer_back := .inr (differsByOnes_iff.mpr rfl)

theorem Reshaped.mark (hv : h.Reshaped s t v s') (isView : Bool) :
    h.Reshaped s t { v with isView := isView } s' where
  held := ⟨hv.held.buffer_lt, hv.held.sound.inside, hv.held.sound.listable⟩
  metadata_eq := hv.metadata_eq
  shape_eq := hv.shape_eq
  itemSize_eq := hv.itemSize_eq
  item_eq := hv.item_eq
  toList_eq := hv.toList_eq
  shares_iff := hv.shares_iff
  store_eq := hv.store_eq
  apart hnot g hg b := by
    obtain ⟨hleft, hright⟩ := hv.apart hnot g hg b
    exact ⟨hleft, congrArg (fun d : Block => { d with isView := isView }) hright⟩
  keepsBuffer_back := hv.keepsBuffer_back

/-! ## In words -/

theorem run_reshapeInWords (hmeta : h.metadata = .empty) (hsize : h.shape.SameSize t) :
    (h.reshapeInWords t).run s =
      if h.ReshapesInWords t then (h.reshape t).run s else (.error (.fault .overflow), s) := by
  simp only [reshapeInWords, run_bind, Dataset.checkRegrouped_of_empty hmeta,
    Frame.checkReshape_eq hsize, ensure]
  split <;> rfl

theorem run_reshapeInWords_of_not (hsize : ¬ h.shape.SameSize t) :
    ∃ e, (h.reshapeInWords t).run s = (.error e, s) := by
  cases hmap : Regrouping.of h.shape t with
  | ok map => exact absurd (Regrouping.exists_of_iff.mp ⟨map, hmap⟩) hsize
  | error e =>
    refine ⟨e, ?_⟩
    have hcheck : h.checkRegrouped t = .error e := by
      simp [Dataset.checkRegrouped, Frame.checkReshape, hmap, bind, Except.bind]
    simp only [reshapeInWords, run_bind, hcheck]
    rfl

theorem run_reshapeInWords_eq_ok_iff (hmeta : h.metadata = .empty) :
    (h.reshapeInWords t).run s = (.ok v, s') ↔
      h.shape.SameSize t ∧ h.ReshapesInWords t ∧ (h.reshape t).run s = (.ok v, s') := by
  by_cases hsize : h.shape.SameSize t
  · rw [run_reshapeInWords hmeta hsize]
    split
    · rename_i hwords
      simp [hsize, hwords]
    · rename_i hwords
      exact iff_of_false nofun fun hok => hwords hok.2.1
  · obtain ⟨e, he⟩ := run_reshapeInWords_of_not hsize
    rw [he]
    exact iff_of_false nofun fun hok => hsize hok.1

end Handle

namespace Handle

variable {h v : Handle} {s s' : Store} {t : Shape}

theorem run_setShapeInWords_eq_ok_iff : (h.setShapeInWords t).run s = (.ok v, s') ↔
    t = h.shape ∧ v = h ∧ s' = s ∨ t ≠ h.shape ∧ ∃ u, (h.reshapeInWords t).run s = (.ok u, s') ∧
      v = { u with isView := h.isView && u.sharesBuffer h } := by
  by_cases ht : t = h.shape
  · have hrun : (h.setShapeInWords t).run s = (.ok h, s) := by
      simp [setShapeInWords, setShape, ht]
    rw [hrun]
    constructor
    · intro hok
      cases hok
      exact .inl ⟨ht, rfl, rfl⟩
    · rintro (⟨-, rfl, rfl⟩ | ⟨hne, -⟩)
      · rfl
      · exact absurd ht hne
  · have hrun : (h.setShapeInWords t).run s = andThen ((h.reshapeInWords t).run s) fun u =>
        pure { u with isView := h.isView && u.sharesBuffer h } := by
      simp only [setShapeInWords, setShape, reshapeInWords, if_pos ht, if_neg ht, run_bind,
        run_lift]
      cases h.checkRegrouped t with
      | error e => rfl
      | ok _ => simp only [andThen_ok, run_bind]
    rw [hrun]
    constructor
    · intro hok
      rcases hreshape : (h.reshapeInWords t).run s with ⟨e | u, s''⟩
      · rw [hreshape] at hok
        cases hok
      · rw [hreshape] at hok
        cases hok
        exact .inr ⟨ht, u, rfl, rfl⟩
    · rintro (⟨heq, -⟩ | ⟨-, u, hreshape, rfl⟩)
      · exact absurd heq ht
      · rw [hreshape]
        rfl

end Handle

/-! ## Shapes that a dataset can be given by name -/

/-- An operation that gives a dataset another shape: one that is named, or one made from its own. -/
inductive Reshaping where
  | named (t : Shape)
  | squeeze
  | squeezeEnds
  | squeezeAxes (axes : List Int)
  | flatten

namespace Reshaping

/-- The operation on a dataset of a store. -/
def run (h : Handle) : Reshaping → StoreM Handle
  | named t => h.reshapeInWords t
  | squeeze => h.squeezeInWords
  | squeezeEnds => h.squeezeEndsInWords
  | squeezeAxes axes => h.squeezeAxesInWords axes
  | flatten => h.flattenInWords

/-- The shape that a dataset of the shape `s` gets. -/
def target (s : Shape) : Reshaping → Except Error Shape
  | named t => .ok t
  | squeeze => .ok s.squeeze
  | squeezeEnds => .ok s.squeezeEnds
  | squeezeAxes axes => s.squeezeAxes axes
  | flatten => do return [← s.sizeWord]

theorem run_eq_ok_iff {op : Reshaping} {h v : Handle} {s s' : Store} :
    (op.run h).run s = (.ok v, s') ↔
      ∃ t, op.target h.shape = .ok t ∧ (h.reshapeInWords t).run s = (.ok v, s') := by
  have hrun : (op.run h).run s = andThen (op.target h.shape, s) h.reshapeInWords := by
    cases op with
    | named t | squeeze | squeezeEnds => rfl
    | squeezeAxes axes => simp only [run, Handle.squeezeAxesInWords, run_bind, run_lift, target]
    | flatten =>
      simp only [run, Handle.flattenInWords, run_bind, target]
      cases h.shape.sizeWord <;> rfl
  rw [hrun]
  cases op.target h.shape with
  | ok t => simp
  | error e => exact iff_of_false nofun nofun

/-- The shape is named, or has the axes of the old one apart from unit axes, or has one axis for all
items. -/
theorem target_cases {op : Reshaping} {s t : Shape} {n : Nat} (h : op.target s = .ok t)
    (hsize : s.sizeChecked = some n) :
    op = named t ∨ s.SameSize t ∧ (s.differsByOnes t ∨ op = flatten ∧ t = [n]) := by
  have hsame {t : Shape} (hones : s.squeeze = t.squeeze) : s.SameSize t ∧ s.differsByOnes t := by
    refine ⟨⟨n, hsize, ?_⟩, differsByOnes_iff.mpr hones⟩
    rw [← sizeChecked_squeeze, ← hones, sizeChecked_squeeze, hsize]
  cases op with
  | named t' =>
    cases h
    exact .inl rfl
  | squeeze =>
    cases h
    obtain ⟨hsame, hones⟩ := hsame s.squeeze_squeeze.symm
    exact .inr ⟨hsame, .inl hones⟩
  | squeezeEnds =>
    cases h
    obtain ⟨hsame, hones⟩ := hsame s.squeeze_squeezeEnds.symm
    exact .inr ⟨hsame, .inl hones⟩
  | squeezeAxes axes =>
    obtain ⟨hsame, hones⟩ := hsame (squeeze_squeezeAxes h).symm
    exact .inr ⟨hsame, .inl hones⟩
  | flatten =>
    simp only [target, sizeWord, hsize, ok_bind, pure_eq_ok] at h
    subst h
    exact .inr ⟨⟨n, hsize, sizeChecked_singleton (lt_of_sizeChecked hsize)⟩, .inr ⟨rfl, rfl⟩⟩

end Reshaping

/-! ## All ways to another shape -/

namespace Handle

variable {h v : Handle} {s s' : Store} {t : Shape}

/-- The dataset `v` gets back the shape of `h` without a new buffer, and then has every item of `h`
where `h` has it. -/
def LeadsBack (h : Handle) (s : Store) (v : Handle) (s' : Store) : Prop :=
  ∃ w, (v.reshape h.shape).run s' = (.ok w, s') ∧ w.shape = h.shape ∧
    (∀ p, h.shape.contains p = true → (s'.read w).item p = (s.read h).item p) ∧
    (h.shape.stridesFit h.itemSize = true → (v.reshapeInWords h.shape).run s' = (.ok w, s'))

theorem Reshaped.leadsBack (hv : h.Reshaped s t v s') (hsize : h.shape.SameSize t) :
    h.LeadsBack s v s' := by
  obtain ⟨w, hrun, hw, hitem⟩ := hv.back hsize
  refine ⟨w, hrun, hw.shape_eq, hitem, fun hfit => ?_⟩
  rw [run_reshapeInWords_eq_ok_iff hv.metadata_eq, hv.shape_eq]
  refine ⟨hsize.symm, ⟨fun _ => ?_, fun hnot => absurd hv.keepsBuffer_back hnot⟩, hrun⟩
  rw [hv.itemSize_eq]
  exact hfit

/-- **Another shape keeps the elements in their order.** A dataset gets just the shapes of the same
size, over its own buffer if it is dense or only unit axes come and go, and over a new one
otherwise; the old shape brings every item back. So it is for flat shapes, shapes without unit axes
and shapes set in place. In words, strides and walks have to be words where they are met. -/
theorem reshape_keeps_order (hh : h.Held s) (hmeta : h.metadata = .empty) :
    (∀ t, (∃ v s', (h.reshape t).run s = (.ok v, s')) ↔ h.shape.SameSize t) ∧
    (∀ t v s', (h.reshape t).run s = (.ok v, s') →
      h.Reshaped s t v s' ∧ h.LeadsBack s v s') ∧
    (∀ op : Reshaping,
      ((∃ v s', (op.run h).run s = (.ok v, s')) ↔
        ∃ t, op.target h.shape = .ok t ∧ h.shape.SameSize t ∧ h.ReshapesInWords t) ∧
      (∀ v s', (op.run h).run s = (.ok v, s') → ∃ t, op.target h.shape = .ok t ∧
        h.Reshaped s t v s' ∧ h.LeadsBack s v s') ∧
      ∀ t n, op.target h.shape = .ok t → h.shape.sizeChecked = some n → op = .named t ∨
        h.shape.SameSize t ∧ (h.shape.differsByOnes t = true ∨ op = .flatten ∧ t = [n])) ∧
    (∀ t, ((∃ v s', (h.setShapeInWords t).run s = (.ok v, s')) ↔
        t = h.shape ∨ h.shape.SameSize t ∧ h.ReshapesInWords t) ∧
      ∀ v s', (h.setShapeInWords t).run s = (.ok v, s') →
        h.Reshaped s t v s' ∧ (h.shape.SameSize t → h.LeadsBack s v s')) ∧
    ∀ t, h.shape.SameSize t →
      (¬ h.ReshapesInWords t → (h.reshapeInWords t).run s = (.error (.fault .overflow), s)) ∧
      (0 < h.size → h.KeepsBuffer t → h.ReshapesInWords t) ∧
      (h.size = 0 → ¬ h.KeepsBuffer t → h.ReshapesInWords t) ∧
      (0 < h.size → 2 * (s.buffer h.buffer).size ≤ Word.half →
        (∀ x ∈ List.zip h.shape h.strides, x.1 = 1 →
          |x.2| + (s.buffer h.buffer).size ≤ Word.half) → h.ReshapesInWords t) := by
  have hexists (t : Shape) := hh.exists_reshape_iff hmeta (t := t)
  have hboth (t : Shape) (v : Handle) (s' : Store) (hrun : (h.reshape t).run s = (.ok v, s')) :
      h.Reshaped s t v s' ∧ h.LeadsBack s v s' := by
    have hreshaped := hh.reshaped hmeta hrun
    exact ⟨hreshaped, hreshaped.leadsBack ((hexists t).mp ⟨v, s', hrun⟩)⟩
  refine ⟨hexists, hboth, fun op => ⟨?_, fun v s' hrun => ?_, fun t n => Reshaping.target_cases⟩,
    fun t => ⟨?_, fun v s' hrun => ?_⟩, fun t hsize => ⟨fun hwords => ?_, fun hpos hkeeps => ?_,
      fun hempty => Frame.reshapesInWords_of_empty hempty, fun hpos => ?_⟩⟩
  · simp only [Reshaping.run_eq_ok_iff, run_reshapeInWords_eq_ok_iff hmeta]
    constructor
    · rintro ⟨v, s', t, htarget, hsize, hwords, -⟩
      exact ⟨t, htarget, hsize, hwords⟩
    · rintro ⟨t, htarget, hsize, hwords⟩
      obtain ⟨v, s', hrun⟩ := (hexists t).mpr hsize
      exact ⟨v, s', t, htarget, hsize, hwords, hrun⟩
  · obtain ⟨t, htarget, hrun⟩ := Reshaping.run_eq_ok_iff.mp hrun
    exact ⟨t, htarget, hboth t v s' ((run_reshapeInWords_eq_ok_iff hmeta).mp hrun).2.2⟩
  · simp only [run_setShapeInWords_eq_ok_iff, run_reshapeInWords_eq_ok_iff hmeta]
    constructor
    · rintro ⟨v, s', ⟨ht, -⟩ | ⟨-, u, ⟨hsize, hwords, -⟩, -⟩⟩
      · exact .inl ht
      · exact .inr ⟨hsize, hwords⟩
    · intro hsizes
      by_cases ht : t = h.shape
      · exact ⟨h, s, .inl ⟨ht, rfl, rfl⟩⟩
      · obtain ⟨hsize, hwords⟩ := hsizes.resolve_left ht
        obtain ⟨u, s', hrun⟩ := (hexists t).mpr hsize
        exact ⟨_, s', .inr ⟨ht, u, ⟨hsize, hwords, hrun⟩, rfl⟩⟩
  · have hreshaped : h.Reshaped s t v s' := by
      rcases run_setShapeInWords_eq_ok_iff.mp hrun with ⟨rfl, rfl, rfl⟩ | ⟨-, u, hreshape, rfl⟩
      · exact hh.reshaped_self hmeta
      · exact (hboth t u s' ((run_reshapeInWords_eq_ok_iff hmeta).mp hreshape).2.2).1.mark _
    exact ⟨hreshaped, hreshaped.leadsBack⟩
  · rw [run_reshapeInWords hmeta hsize, if_neg hwords]
  · exact hh.sound.reshapesInWords_of_keepsBuffer hsize hpos hkeeps
  · exact hh.sound.reshapesInWords_of_room hsize hpos

def pairStore : Store := (Store.empty.adopt Dataset.pairRows).2

def pairHandle : Handle := (Store.empty.adopt Dataset.pairRows).1

/-- The outer rows of the pairs, the last one first. -/
def outerPairs : Handle :=
  { pairHandle with shape := [2, 2], offset := 8, layout := .strided [-8, 2] }

theorem reshape_keeps_order_pairs : ∃ (s s' : Store) (h v w : Handle),
    h.layout = .strided [-8, 2] ∧ h.shape = [2, 2] ∧ h.Held s ∧
      (h.reshapeInWords [4]).run s = (.ok v, s') ∧ v.sharesBuffer h = false ∧
      (s'.read v).toList = [8, 9, 10, 11, 0, 1, 2, 3].map Scalar.int ∧
      (v.reshapeInWords [2, 2]).run s' = (.ok w, s') ∧
      (s'.read w).item [1, 0] = (s.read h).item [1, 0] := by
  have hh : outerPairs.Held pairStore := by decide +kernel
  obtain ⟨-, -, hops, -⟩ := reshape_keeps_order hh rfl
  obtain ⟨hexists, hgives, -⟩ := hops (.named [4])
  obtain ⟨v, s', hrun⟩ := hexists.mpr ⟨[4], rfl, ⟨4, rfl, rfl⟩, by decide⟩
  obtain ⟨t, ht, hv, w, -, -, hitem, hback⟩ := hgives v s' hrun
  cases ht
  have hnot : v.sharesBuffer outerPairs = false := by
    rw [← Bool.not_eq_true, hv.shares_iff]
    decide
  exact ⟨_, s', _, v, w, rfl, rfl, hh, hrun, hnot, hv.toList_eq, hback (by decide),
    hitem [1, 0] rfl⟩

/-- No items. -/
def nothing : Block := Dataset.ofList (.int true .w32) [0] 1 []

/-- Data without items gets a shape of no items, of which only the strides are no words. -/
theorem empty_strides_stop_reshape : ∃ (s : Store) (h v : Handle),
    h.Held s ∧ h.metadata = .empty ∧ h.shape = [0] ∧
      h.shape.SameSize [4, 0, 4611686018427387904] ∧
      (h.reshape [4, 0, 4611686018427387904]).run s = (.ok v, s) ∧
      (h.reshapeInWords [4, 0, 4611686018427387904]).run s = (.error (.fault .overflow), s) :=
  ⟨(Store.empty.adopt nothing).2, (Store.empty.adopt nothing).1, _, by decide +kernel, rfl, rfl,
    ⟨0, rfl, rfl⟩, rfl, rfl⟩

end Handle

end Hyperslab
