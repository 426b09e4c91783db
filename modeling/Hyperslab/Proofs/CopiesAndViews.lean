import Hyperslab.Proofs.SlicesInWords

/-!
# Copies and views of a region

A region of a dataset can be copied into a packed buffer, viewed in place, or walked item by item
with its positions in the dataset. All three meet the same items in the same order. In words they
also stop at the same regions: the numbers met in reading the copy, in reading the view and in the
walk are those of one walk.
-/
namespace Hyperslab

open List Word

/-! ## Walks of regions -/

namespace Geometry

theorem map_walk (g : Geometry) : g.walk.toList.map (fun o => (o.pos, o.index 0)) =
    g.shape.positions.map fun p => (p, g.indexOf p) := by
  have hwalk := congrArg (map fun v : Position × List Int => (v.1, unsigned ((v.2[0]?).getD 0)))
    (Odometer.toList_start g.shape [⟨signed g.offset, g.strides⟩])
  rw [map_map, map_map] at hwalk
  exact hwalk

theorem Inside.cast_sourcePosition {g : Geometry} {length : Nat} (h : g.Inside length) {r : Region}
    (hr : r.Valid) (hsource : r.source = g.shape) {p : Position}
    (hp : r.shape.contains p) : (r.sourcePosition p).map Int.ofNat = r.coords p := by
  have hs : 0 < g.shape.size :=
    hsource ▸ (Shape.size_pos_of_contains hp).trans_le hr.size_le
  exact hr.cast_sourcePosition (fun d hd => h.small hs (hsource ▸ hd)) hp

end Geometry

namespace RegionWalk

variable {g : Geometry} {r : Region} {length : Nat}

theorem start_eq (hsource : r.source = g.shape) : start g r = .ok ⟨r, (g.slice r).walk⟩ :=
  if_pos hsource

theorem map_index_toList (r : Region) (o : Odometer) :
    (RegionWalk.mk r o).toList.map index = o.toList.map (·.index 0) := by
  rw [toList, map_map]
  rfl

theorem map_pos_toList (g : Geometry) (r : Region) :
    (RegionWalk.mk r (g.slice r).walk).toList.map (fun x => x.odometer.pos) =
      r.shape.positions := by
  have hpos := congrArg (map Prod.fst) (g.slice r).map_walk
  rw [map_map, map_map] at hpos
  rw [toList, map_map]
  exact hpos.trans (map_id _)

section

variable (h : g.Inside length) (hr : r.Valid) (hsource : r.source = g.shape)
include h hr hsource

/-- At every visit of a region inside a buffer, the position in the dataset is that of the item
visited. -/
theorem index_eq_of_mem {x : RegionWalk} (hx : x ∈ (RegionWalk.mk r (g.slice r).walk).toList) :
    x.index = g.indexOf x.sourcePos ∧ x.sourcePos.map Int.ofNat = r.coords x.odometer.pos := by
  obtain ⟨o, ho, rfl⟩ := mem_map.mp hx
  obtain ⟨hpos, hindex⟩ := Geometry.mem_walk ho
  constructor
  · exact hindex.trans ((h.shows_slice hr hsource).indexOf_eq h (h.slice hr hsource) hpos)
  · exact h.cast_sourcePosition hr hsource hpos

/-- A walk of a region of a geometry inside a buffer starts in words just if the size and the
strides of the region are words. -/
theorem startInWords_eq :
    startInWords g r = do
      ensure (r.shape.sizeChecked.isSome ∧ AllFit (g.slice r).strides)
      return ⟨r, (g.slice r).walk⟩ := by
  rw [startInWords, start_eq hsource, ok_bind, h.sliceInWords_eq hr hsource]
  simp only [bind_assoc, pure_bind]

theorem toListInWords_eq :
    (RegionWalk.mk r (g.slice r).walk).toListInWords = do
      ensure (AllFit (g.slice r).walkNumbers)
      return (RegionWalk.mk r (g.slice r).walk).toList := by
  rw [toListInWords, Geometry.toListInWords_walk (h.slice hr hsource).length_strides,
    check_eq_ensure]
  simp only [bind_assoc]
  rfl

end

end RegionWalk

/-! ## Reading copies and views -/

namespace Dataset

variable {d copy view : Block} {r : Region} {n : Nat}

theorem geometry_sliceView {β : Type} {d view : Dataset β} (h : d.sliceView r = .ok view) :
    view.geometry = d.geometry.slice r := by
  simp only [sliceView, bind_eq_ok, pure_eq_ok] at h
  obtain ⟨frame, hframe, m, -, rfl⟩ := h
  exact (Frame.slice_eq_ok hframe).2.1

theorem hasStrides_sliceView (hgeometry : view.geometry = d.geometry.slice r)
    (hviews : d.ViewsInWords r) : view.HasStrides := by
  have hshape : view.shape = r.shape := congrArg Geometry.shape hgeometry
  have hitem : view.itemSize = d.itemSize := congrArg Geometry.itemSize hgeometry
  intro _
  rw [hshape, hitem]
  exact hviews.packed

theorem Sound.toListInWords_of_dense (h : d.Sound) (hdense : d.layout = .dense) :
    d.toListInWords = do
      ensure (d.shape.stridesFit d.itemSize)
      return d.toList := by
  rw [h.toListInWords_eq, ensure_congr (Q := d.shape.stridesFit d.itemSize)]
  exact ⟨fun hwords => hwords.1 hdense,
    fun hfit => ⟨fun _ => hfit, Frame.Sound.allFit_walkNumbers_of_dense h hdense⟩⟩

/-- The dataset `e` has the items of a region of `d` in a packed buffer. -/
structure IsCopy (e d : Block) (r : Region) : Prop where
  sound : e.Sound
  layout_eq : e.layout = .dense
  shape_eq : e.shape = r.shape
  itemSize_eq : e.itemSize = d.itemSize
  name_eq : e.name = d.name ++ r.text
  item_eq : ∀ p, r.shape.contains p = true → e.item p = d.item (r.sourcePosition p)

theorem Sound.exists_copy (h : d.Sound) (hmeta : d.metadata = .empty) (hr : r.Valid)
    (hsource : r.source = d.shape) (hreserve : reserve d.kind r.shape d.itemSize = .ok n) :
    ∃ copy, d.slice r = .ok copy ∧ copy.IsCopy d r := by
  have hpos : 0 < d.itemSize := h.inside.itemSize_pos
  have hlist : d.kind.bytes * (r.shape.size * d.itemSize) < half := by
    have hle : r.shape.size ≤ d.shape.size := hsource ▸ hr.size_le
    exact (Nat.mul_le_mul_left _ (Nat.mul_le_mul_right _ hle)).trans_lt h.listable
  exact ⟨_, h.slice_eq hr hsource hmeta hreserve, sound_ofItems hpos (by simp) hlist, rfl, rfl, rfl,
    rfl, fun p hp => item_ofItems hpos (by simp) hlist hp⟩

theorem toList_eq_of_items (hshape : copy.shape = view.shape)
    (hitem : ∀ p, view.shape.contains p → copy.item p = view.item p) :
    copy.toList = view.toList := by
  refine (Frame.elements_eq ..).trans (Eq.trans ?_ (Frame.elements_eq ..).symm)
  rw [hshape]
  exact congrArg _ (map_congr_left fun p hp => hitem p (Shape.mem_positions.mp hp))

section Words

variable (hd : d.Sound) (hr : r.Valid) (hsource : r.source = d.shape)

include hd hr hsource

/-- A region is copied in words, and the copy read, just if the numbers met in reading the region
are words. -/
theorem Sound.sliceInWords_toListInWords (hmeta : d.metadata = .empty)
    (hreserve : reserve d.kind r.shape d.itemSize = .ok n) (hslice : d.slice r = .ok copy)
    (hcopy : copy.IsCopy d r) :
    (do (← d.sliceInWords r).toListInWords) = do
      ensure (d.ReadsInWords r)
      return copy.toList := by
  rw [hd.sliceInWords_eq hmeta hr hsource hreserve, hslice, bind_assoc, ok_bind,
    hcopy.sound.toListInWords_of_dense hcopy.layout_eq, hcopy.shape_eq, hcopy.itemSize_eq,
    ensure_and, ensure_congr (Q := d.ReadsInWords r)]
  rw [Frame.readsInWords_iff, Frame.viewsInWords_iff, Frame.LoadsInWords]
  tauto

/-- A region is viewed in words, and the view read, just if the numbers met in reading the region
are words. -/
theorem Sound.sliceViewInWords_toListInWords (hmeta : d.metadata = .empty)
    (hview : d.sliceView r = .ok view) (hsound : view.Sound) :
    (do (← d.sliceViewInWords r).toListInWords) = do
      ensure (d.ReadsInWords r)
      return view.toList := by
  have hgeometry := geometry_sliceView hview
  rw [sliceViewInWords_of_empty hd hmeta hr hsource, hview, bind_assoc, ok_bind,
    hsound.toListInWords_eq, hgeometry, ensure_and, ensure_congr (Q := d.ReadsInWords r)]
  rw [Frame.readsInWords_iff]
  exact and_congr_right fun hviews => and_iff_right (hasStrides_sliceView hgeometry hviews)

/-- A region that selects something is walked in words just if the numbers met in reading it are
words. -/
theorem Sound.startInWords_toListInWords (hpos : 0 < r.size) :
    (do (← RegionWalk.startInWords d.geometry r).toListInWords) = do
      ensure (d.ReadsInWords r)
      return (RegionWalk.mk r (d.geometry.slice r).walk).toList := by
  have hiff := Frame.Sound.readsInWords_iff_of_pos hd hr hsource hpos
  rw [RegionWalk.startInWords_eq hd.inside hr hsource, bind_assoc, pure_bind,
    RegionWalk.toListInWords_eq hd.inside hr hsource, ensure_and,
    ensure_congr (Q := d.ReadsInWords r)]
  exact ⟨fun hfits => hiff.mpr hfits.2, fun hreads => ⟨⟨hreads.size, hreads.strides⟩, hreads.walk⟩⟩

theorem Sound.copy_of_readsInWords (hmeta : d.metadata = .empty)
    (hreserve : reserve d.kind r.shape d.itemSize = .ok n) (hslice : d.slice r = .ok copy)
    (hcopy : copy.IsCopy d r) (hreads : d.ReadsInWords r) :
    d.sliceInWords r = .ok copy ∧ copy.toListInWords = .ok copy.toList := by
  constructor
  · rw [hd.sliceInWords_eq hmeta hr hsource hreserve,
      ensure_of ⟨hreads.own, hreads.size, hreads.strides, hreads.walk⟩, hslice]
    rfl
  · rw [hcopy.sound.toListInWords_of_dense hcopy.layout_eq, hcopy.shape_eq, hcopy.itemSize_eq,
      ensure_of hreads.packed]
    rfl

/-- Where the numbers met are words, the view, its elements and its walk are those over exact
integers. -/
theorem Sound.view_of_readsInWords (hmeta : d.metadata = .empty)
    (hview : d.sliceView r = .ok view) (hsound : view.Sound) (hreads : d.ReadsInWords r) :
    (d.sliceViewInWords r = .ok view ∧ view.toListInWords = .ok view.toList) ∧
      view.geometry.walk.toListInWords = .ok view.geometry.walk.toList := by
  have hgeometry := geometry_sliceView hview
  refine ⟨⟨?_, ?_⟩, ?_⟩
  · rw [sliceViewInWords_of_empty hd hmeta hr hsource, ensure_of hreads.toViewsInWords, hview]
    rfl
  · rw [hsound.toListInWords_eq, hgeometry,
      ensure_of ⟨hasStrides_sliceView hgeometry hreads.toViewsInWords, hreads.walk⟩]
    rfl
  · rw [hgeometry, Geometry.toListInWords_walk (hd.inside.slice hr hsource).length_strides,
      check_eq_ensure, ensure_of hreads.walk]
    rfl

theorem Sound.walk_of_readsInWords (hreads : d.ReadsInWords r) :
    RegionWalk.startInWords d.geometry r = .ok ⟨r, (d.geometry.slice r).walk⟩ ∧
      (RegionWalk.mk r (d.geometry.slice r).walk).toListInWords =
        .ok (RegionWalk.mk r (d.geometry.slice r).walk).toList := by
  rw [RegionWalk.startInWords_eq hd.inside hr hsource,
    RegionWalk.toListInWords_eq hd.inside hr hsource, ensure_of ⟨hreads.size, hreads.strides⟩,
    ensure_of hreads.walk]
  exact ⟨rfl, rfl⟩

end Words

/-- A region that selects something is read in words, if the buffer takes up no more than half of
the words and the strides of its unit axes do not lead out of them. -/
theorem Sound.readsInWords_of_room (h : d.Sound) (hr : r.Valid) (hsource : r.source = d.shape)
    (hpos : 0 < r.size) (hroom : 2 * d.buffer.size ≤ half)
    (hunit : ∀ x ∈ zip r.shape (d.geometry.slice r).strides, x.1 = 1 →
      |x.2| + d.buffer.size ≤ half) : d.ReadsInWords r :=
  (Frame.Sound.readsInWords_iff_of_pos h hr hsource hpos).mpr
    ((h.inside.slice hr hsource).allFit_walkNumbers hroom hunit)

/-- **Copying, viewing and walking a region agree.** Copy and view have the same shape, item size,
name and elements, the item at `p` being that of the dataset at `start + p * step`, and the walk
goes through the indices of the view in order. In words this holds where the numbers met are words;
elsewhere nothing can be read or walked. -/
theorem copy_view_walk_agree (hd : d.Sound) (hmeta : d.metadata = .empty) (hr : r.Built)
    (hsource : r.source = d.shape) (hroom : reserve d.kind r.shape d.itemSize = .ok n) :
    ∃ (copy view : Block) (w : RegionWalk),
      (d.slice r = .ok copy ∧ d.sliceView r = .ok view ∧ RegionWalk.start d.geometry r = .ok w) ∧
      (copy.shape = r.shape ∧ view.shape = r.shape ∧ copy.itemSize = view.itemSize ∧
        copy.name = view.name ∧ copy.toList = view.toList) ∧
      (∀ p, r.shape.contains p = true → copy.item p = d.item (r.sourcePosition p) ∧
        view.item p = d.item (r.sourcePosition p) ∧
        (r.sourcePosition p).map Int.ofNat = r.coords p) ∧
      (w.toList.map RegionWalk.index = view.geometry.walk.toList.map (·.index 0) ∧
        w.toList.map (·.odometer.pos) = r.shape.positions ∧
        ∀ x ∈ w.toList, x.index = d.geometry.indexOf x.sourcePos ∧
          x.sourcePos.map Int.ofNat = r.coords x.odometer.pos) ∧
      (d.ReadsInWords r →
        (d.sliceInWords r = .ok copy ∧ copy.toListInWords = .ok copy.toList) ∧
        (d.sliceViewInWords r = .ok view ∧ view.toListInWords = .ok view.toList) ∧
        RegionWalk.startInWords d.geometry r = .ok w ∧ w.toListInWords = .ok w.toList ∧
        view.geometry.walk.toListInWords = .ok view.geometry.walk.toList) ∧
      (¬ d.ReadsInWords r →
        (do (← d.sliceInWords r).toListInWords) = .error (.fault .overflow) ∧
        (do (← d.sliceViewInWords r).toListInWords) = .error (.fault .overflow) ∧
        (0 < r.size → (do (← RegionWalk.startInWords d.geometry r).toListInWords) =
          .error (.fault .overflow))) ∧
      (0 < r.size → 2 * d.buffer.size ≤ Word.half →
        (∀ x ∈ List.zip r.shape (d.geometry.slice r).strides, x.1 = 1 →
          |x.2| + d.buffer.size ≤ Word.half) → d.ReadsInWords r) := by
  have hvalid := hr.valid
  have hinside : d.geometry.Inside d.buffer.size := hd.inside
  obtain ⟨copy, hslice, hcopy⟩ := hd.exists_copy hmeta hvalid hsource hroom
  obtain ⟨view, hview, hisview, hvname, hvshape⟩ := hd.sliceView_eq hmeta hvalid hsource
  have hvitem (p : Position) (hp : r.shape.contains p = true) :
      view.item p = d.item (r.sourcePosition p) := hisview.item_eq hd (hvshape ▸ hp)
  refine ⟨copy, view, ⟨r, (d.geometry.slice r).walk⟩,
    ⟨hslice, hview, RegionWalk.start_eq hsource⟩,
    ⟨hcopy.shape_eq, hvshape, hcopy.itemSize_eq.trans hisview.itemSize_eq.symm,
      hcopy.name_eq.trans hvname.symm, ?_⟩,
    fun p hp => ⟨hcopy.item_eq p hp, hvitem p hp, hinside.cast_sourcePosition hvalid hsource hp⟩,
    ⟨?_, RegionWalk.map_pos_toList _ _,
      fun x hx => RegionWalk.index_eq_of_mem hinside hvalid hsource hx⟩,
    fun hreads => ?_, fun hreads => ⟨?_, ?_, fun hpos => ?_⟩,
    fun hpos => hd.readsInWords_of_room hvalid hsource hpos⟩
  · exact toList_eq_of_items (hcopy.shape_eq.trans hvshape.symm) fun p hp =>
      (hcopy.item_eq p (hvshape ▸ hp)).trans (hvitem p (hvshape ▸ hp)).symm
  · rw [RegionWalk.map_index_toList, geometry_sliceView hview]
  · obtain ⟨hviews, hwalk⟩ := hd.view_of_readsInWords hvalid hsource hmeta hview hisview.sound hreads
    obtain ⟨hstart, hvisits⟩ := hd.walk_of_readsInWords hvalid hsource hreads
    exact ⟨hd.copy_of_readsInWords hvalid hsource hmeta hroom hslice hcopy hreads, hviews, hstart,
      hvisits, hwalk⟩
  · rw [hd.sliceInWords_toListInWords hvalid hsource hmeta hroom hslice hcopy,
      Word.ensure_of_not hreads]
    rfl
  · rw [hd.sliceViewInWords_toListInWords hvalid hsource hmeta hview hisview.sound,
      Word.ensure_of_not hreads]
    rfl
  · rw [hd.startInWords_toListInWords hvalid hsource hpos, Word.ensure_of_not hreads]
    rfl

def pairRows : Block :=
  ofList (.int true .w32) [3, 2] 2 ((List.range 12).map fun i => Scalar.int i)

/-- The outer rows of `pairRows`, the last one first. -/
def outerRows : Region := ⟨[3, 2], none, [⟨2, -1, -2, 2⟩, ⟨0, 2, 1, 2⟩], false, .none⟩

theorem built_outerRows : outerRows.Built :=
  @Region.Built.ofSlices [3, 2] [.range none none (-2)] outerRows rfl

def secondColumn : Region := ⟨[2, 2], none, [⟨0, 2, 1, 2⟩, ⟨1, 2, 1, 1⟩], false, .none⟩

theorem built_secondColumn : secondColumn.Built :=
  @Region.Built.ofSlices [2, 2] [.all, .index 1] secondColumn rfl

theorem copy_view_walk_agree_pairs : ∃ (d copy view : Block) (w : RegionWalk),
    pairRows.sliceView outerRows = .ok d ∧ d.layout = .strided [-8, 2] ∧ d.offset = 8 ∧
      d.sliceInWords secondColumn = .ok copy ∧ d.sliceViewInWords secondColumn = .ok view ∧
      RegionWalk.startInWords d.geometry secondColumn = .ok w ∧
      copy.toList = view.toList ∧ view.toListInWords = .ok ([10, 11, 2, 3].map Scalar.int) ∧
      w.toList.map RegionWalk.index = view.geometry.walk.toList.map (·.index 0) := by
  obtain ⟨d, hd, hsound, hmeta, hshape, hlayout, hoffset, hroom, hreads, hlist⟩ : ∃ d : Block,
      pairRows.sliceView outerRows = .ok d ∧ d.Sound ∧ d.metadata = .empty ∧
      secondColumn.source = d.shape ∧ d.layout = .strided [-8, 2] ∧ d.offset = 8 ∧
      reserve d.kind secondColumn.shape d.itemSize = .ok 4 ∧ d.ReadsInWords secondColumn ∧
      ∀ view, d.sliceView secondColumn = .ok view →
        view.toList = [10, 11, 2, 3].map Scalar.int := by
    refine ⟨_, rfl, by decide +kernel, rfl, rfl, rfl, rfl, rfl, by decide, fun view hview => ?_⟩
    cases hview
    rfl
  obtain ⟨copy, view, w, ⟨-, hsliced, -⟩, ⟨-, -, -, -, hsame⟩, -, ⟨hindices, -⟩, hwords, -⟩ :=
    copy_view_walk_agree hsound hmeta built_secondColumn hshape hroom
  obtain ⟨⟨hcopy, -⟩, ⟨hview, hread⟩, hw, -⟩ := hwords hreads
  exact ⟨d, copy, view, w, hd, hlayout, hoffset, hcopy, hview, hw, hsame,
    hread.trans (congrArg Except.ok (hlist view hsliced)), hindices⟩

def tenNumbers : Block := ofList (.int true .w32) [10] 1 ((List.range 10).map fun i => Scalar.int i)

/-- The number in the middle, with the longest step. -/
def middle : Region := ⟨[10], none, [⟨5, 10, 9223372036854775807, 1⟩], false, .none⟩

theorem built_middle : middle.Built :=
  @Region.Built.ofSlices [10] [.range (some 5) none 9223372036854775807] middle rfl

/-- One item has a copy and a view, and neither can be read: a walk goes one stride past the item
before it turns, and this stride leads out of the words. -/
theorem long_stride_stops_reads : tenNumbers.Sound ∧ tenNumbers.metadata = .empty ∧ middle.Built ∧
    middle.source = tenNumbers.shape ∧
    reserve tenNumbers.kind middle.shape tenNumbers.itemSize = .ok 1 ∧
    (∃ copy view, tenNumbers.slice middle = .ok copy ∧ tenNumbers.sliceView middle = .ok view ∧
      copy.toList = [.int 5] ∧ view.toList = [.int 5]) ∧
    (do (← tenNumbers.sliceInWords middle).toListInWords) = .error (.fault .overflow) ∧
    (do (← tenNumbers.sliceViewInWords middle).toListInWords) = .error (.fault .overflow) :=
  ⟨by decide +kernel, rfl, built_middle, rfl, rfl,
    ⟨_, _, rfl, rfl, rfl, rfl⟩, rfl, rfl⟩

end Dataset

end Hyperslab
