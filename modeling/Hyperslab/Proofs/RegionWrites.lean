import Hyperslab.Proofs.OperandsInWords
import Hyperslab.Proofs.Reshapes

/-!
# Writing a region of a dataset

The source of a region write is brought under the shape of the region in one of three ways: it has
that shape, it has its size and is reshaped, or it is broadcast. All of it is read before the first
item is written, so source and destination may overlap in any way. Where the items of the
destination lie apart, those of the region become the items of the source, and nothing else changes.

In words, the walk that reads the source and the one that writes the region must come to their ends.
A write that is stopped leaves the items that it has written.
-/
namespace Hyperslab

open Dataset Shape Word

/-! ## Items of a dataset of a store -/

theorem Elements.getElem?_putItems_of_apart (e : Elements) {writes : List (Nat × List Scalar)}
    {i : Nat} (h : ∀ w ∈ writes, i < w.1 ∨ w.1 + w.2.length ≤ i) :
    (e.putItems writes)[i]? = e[i]? := by
  induction writes generalizing e with
  | nil => rfl
  | cons w writes ih =>
    obtain ⟨hw, hrest⟩ := List.forall_mem_cons.mp h
    have hcons : e.putItems (w :: writes) = (e.putFrom w.1 w.2).putItems writes := rfl
    rw [hcons, ih _ hrest]
    exact getElem?_putFrom_of_outside e w.2 hw

namespace Handle

variable {h : Handle} {s s' : Store} {t : Shape} {φ : Position → Position}
  {item : Position → List Scalar}

/-- The store `s'` is the store `s` after a write to `h`, whose item at `φ p` became `item p` for
every position `p` of `t`. No other element of its buffer has changed, and no other buffer. -/
structure Puts (h : Handle) (s : Store) (t : Shape) (φ : Position → Position)
    (item : Position → List Scalar) (s' : Store) : Prop where
  item_eq : ∀ p, t.contains p = true → (s'.read h).item (φ p) = item p
  element_eq : ∀ i, (∀ p, t.contains p = true →
    i < h.geometry.indexOf (φ p) ∨ h.geometry.indexOf (φ p) + h.itemSize ≤ i) →
      (s'.buffer h.buffer).elements[i]? = (s.buffer h.buffer).elements[i]?
  size_eq : (s'.buffer h.buffer).size = (s.buffer h.buffer).size
  buffer_eq : ∀ id, id ≠ h.buffer → s'.buffer id = s.buffer id

/-- Items that are put at different positions of a dataset whose items lie apart are there
afterwards. -/
theorem Held.puts_putItems (hh : h.Held s) (hsep : h.geometry.Separate)
    (hcontains : ∀ p, t.contains p → h.shape.contains (φ p))
    (hinj : ∀ p q, t.contains p → t.contains q → φ p = φ q → p = q)
    (hitem : ∀ p, t.contains p → (item p).length = h.itemSize) :
    h.Puts s t φ item (s.setBuffer h.buffer ((s.buffer h.buffer).modify
      (·.putItems (t.positions.map fun p => (h.geometry.indexOf (φ p), item p))))) := by
  have hbuffer (b : Buffer) : (s.setBuffer h.buffer b).buffer h.buffer = b := by
    rw [Store.buffer_setBuffer, if_pos ⟨rfl, hh.buffer_lt⟩]
  refine ⟨fun p hp => ?_, fun i hi => ?_, ?_, fun id hid => ?_⟩
  · have hput : h.toFrame.item ((s.buffer h.buffer).elements.putItems
        (t.positions.map fun p => (h.geometry.indexOf (φ p), item p))) (φ p) =
          (t.positions.find? fun q => φ q == φ p).elim
            (h.toFrame.item (s.buffer h.buffer).elements (φ p)) item := by
      refine Frame.item_putItems hh.sound hsep (fun q hq => ?_) (fun q hq q' hq' => ?_)
        (nodup_positions t) (hcontains p hp)
      · rw [mem_positions] at hq
        exact ⟨hcontains q hq, hitem q hq⟩
      · rw [mem_positions] at hq hq'
        exact hinj q q' hq hq'
    rw [find?_positions_eq_some hinj hp rfl] at hput
    rw [Store.read, hbuffer]
    exact hput
  · rw [hbuffer]
    refine Elements.getElem?_putItems_of_apart _ fun w hw => ?_
    obtain ⟨p, hp, rfl⟩ := List.mem_map.mp hw
    rw [mem_positions] at hp
    rw [hitem p hp]
    exact hi p hp
  · rw [hbuffer]
    exact Elements.size_putItems ..
  · rw [Store.buffer_setBuffer, if_neg fun h => hid h.1]

end Handle

/-! ## The source under the shape of the region -/

theorem sizeChecked_of_elementCount {s : Shape} {k n : Nat} (h : elementCount s k = .ok n) :
    s.sizeChecked = some s.size := by
  obtain ⟨c, hc, -⟩ := elementCount_eq_ok_iff.mp h
  rw [hc, size_of_sizeChecked hc]

/-- A source of shape `t` has the items for the shape `s`. -/
def Shape.Spreads (t s : Shape) : Prop :=
  t = s ∨ t.size = s.size ∨ Shape.broadcast t s = .ok s

namespace Dataset

variable {d data e : Block} {r : Region} {s : Shape} {m n : Nat}

theorem Sound.exists_reshape (h : data.Sound) (hmeta : data.metadata = .empty)
    (hsize : data.shape.SameSize s) : ∃ e, data.reshape s = .ok e := by
  obtain ⟨map, hmap⟩ := Regrouping.exists_of_iff.mpr hsize
  have hfault : data.regroupFault? map = none := Frame.Sound.regroupFault_eq_none h hmap
  have hread : data.checkRead = .ok () := check_eq_ok.mpr h.fault_eq_none
  simp only [Dataset.reshape, hmap, ok_bind, hfault, hmeta]
  cases data.regrouped? map with
  | none =>
    rw [hread]
    exact ⟨_, rfl⟩
  | some f => exact ⟨_, rfl⟩

theorem Sound.exists_broadcastView (h : data.Sound) (hn : elementCount s data.itemSize = .ok n) :
    (∃ e, data.broadcastView s = .ok e) ↔ broadcast data.shape s = .ok s := by
  constructor
  · rintro ⟨e, he⟩
    simp only [broadcastView, Frame.broadcast, bind_eq_ok] at he
    obtain ⟨f, ⟨-, -, joined, hjoined, hf⟩, -⟩ := he
    split at hf
    · cases hf
    · rename_i hsame
      rw [hjoined, not_not.mp hsame]
  · intro hbroadcast
    obtain ⟨hle, hfits⟩ := (broadcast_eq_ok hbroadcast).1
    obtain ⟨us, hus⟩ := exists_broadcastStrides hle hfits
      (show data.strides.length = data.shape.length from h.inside.length_strides)
    refine ⟨data.through (data.withGeometry s data.offset us) .empty, ?_⟩
    simp only [broadcastView, Frame.broadcast, hn, hbroadcast, ok_bind, ne_eq,
      not_true_eq_false, hus]
    rfl

theorem sameSize_of_elementCount (hm : elementCount data.shape data.itemSize = .ok m)
    (hn : elementCount s data.itemSize = .ok n) (hsize : data.shape.size = s.size) :
    data.shape.SameSize s :=
  ⟨s.size, hsize ▸ sizeChecked_of_elementCount hm, sizeChecked_of_elementCount hn⟩

theorem spread_of_size (hshape : data.shape ≠ s) (hsize : data.shape.size = s.size) :
    data.spread s = data.reshape s := (if_neg hshape).trans (if_pos hsize)

theorem spread_of_ne (hsize : data.shape.size ≠ s.size) : data.spread s = data.broadcastView s :=
  (if_neg fun h => hsize (by rw [h])).trans (if_neg hsize)

/-- A source that can be listed is brought under a shape just if it has its items. -/
theorem Sound.exists_spread_iff (h : data.Sound) (hmeta : data.metadata = .empty)
    (hm : elementCount data.shape data.itemSize = .ok m)
    (hn : elementCount s data.itemSize = .ok n) :
    (∃ e, data.spread s = .ok e) ↔ data.shape.Spreads s := by
  by_cases hshape : data.shape = s
  · rw [spread_of_shape hshape]
    exact iff_of_true ⟨_, rfl⟩ (.inl hshape)
  by_cases hsize : data.shape.size = s.size
  · rw [spread_of_size hshape hsize]
    exact iff_of_true (h.exists_reshape hmeta (sameSize_of_elementCount hm hn hsize))
      (.inr (.inl hsize))
  · rw [spread_of_ne hsize, h.exists_broadcastView hn, Spreads]
    simp [hshape, hsize]

/-! ## The source in words -/

/-- The numbers met in bringing a source under a shape and in reading it there are words. -/
structure BringsInWords (data : Block) (s : Shape) : Prop where
  packed : s.stridesFit data.itemSize = true
  reshape : data.shape ≠ s → data.shape.size = s.size → data.ReshapesInWords s
  walk : ∀ e, data.spread s = .ok e → Word.AllFit e.geometry.walkNumbers

theorem Sound.frame_reshape (h : data.Sound) (he : data.reshape s = .ok e) :
    e.itemSize = data.itemSize ∧ (¬ data.KeepsBuffer s → e.layout = .dense) := by
  simp only [Dataset.reshape, bind_eq_ok] at he
  obtain ⟨map, hmap, -, -, he⟩ := he
  split at he
  · rename_i f hf
    simp only [bind_eq_ok, pure_eq_ok] at he
    obtain ⟨_, -, rfl⟩ := he
    have hkeeps : data.KeepsBuffer s := (Frame.isSome_regrouped_iff hmap).mp (by rw [hf]; rfl)
    exact ⟨(Frame.regrouped_shows h hmap hf).itemSize_eq, fun hnot => absurd hkeeps hnot⟩
  · simp only [bind_eq_ok, pure_eq_ok] at he
    obtain ⟨-, -, _, -, rfl⟩ := he
    exact ⟨rfl, fun _ => rfl⟩

theorem Sound.spread (h : data.Sound) (he : data.spread s = .ok e) :
    e.Sound ∧ e.itemSize = data.itemSize := by
  by_cases hshape : data.shape = s
  · rw [spread_of_shape hshape, Except.ok.injEq] at he
    exact he ▸ ⟨Frame.Sound.view h, rfl⟩
  by_cases hsize : data.shape.size = s.size
  · rw [spread_of_size hshape hsize] at he
    exact ⟨h.reshape he, (h.frame_reshape he).1⟩
  · rw [spread_of_ne hsize] at he
    simp only [broadcastView, bind_eq_ok, pure_eq_ok] at he
    obtain ⟨f, hf, rfl⟩ := he
    exact ⟨Frame.Sound.broadcast h hf, (Frame.broadcast_shows h hf).itemSize_eq⟩

theorem Sound.hasStrides_spread (h : data.Sound) (hmeta : data.metadata = .empty)
    (he : data.spread s = .ok e) (hfit : s.stridesFit data.itemSize) : e.HasStrides := by
  intro _
  rw [(h.spread_eq_ok hmeta he).1, (h.spread he).2]
  exact hfit

theorem checkWalk_eq_ok {f : Frame} {u : Unit} :
    f.checkWalk = .ok u ↔ f.HasStrides ∧ AllFit f.geometry.walkNumbers := by
  rw [Frame.checkWalk_eq, ensure_eq_ok]

theorem spreadInWords_of_shape (hshape : data.shape = s) : data.spreadInWords s = (do
    ensure (s.stridesFit data.itemSize ∧ data.metadata.CopiesInWords)
    data.spread s) := by
  rw [spreadInWords, if_pos hshape, Metadata.checkCopy_eq]
  exact (stridesChecked_bind ..).trans (ensure_and _)

theorem spreadInWords_of_size (hmeta : data.metadata = .empty) (hshape : data.shape ≠ s)
    (hsize : data.shape.SameSize s) :
    data.spreadInWords s = (do ensure (data.ReshapesInWords s); data.spread s) := by
  obtain ⟨k, hk, hk'⟩ := id hsize
  rw [spreadInWords, if_neg hshape]
  simp only [sizeWord, hk, hk', ok_bind, if_true, checkRegrouped_of_empty hmeta,
    Frame.checkReshape_eq hsize]

theorem spreadInWords_of_ne (hm : elementCount data.shape data.itemSize = .ok m)
    (hn : elementCount s data.itemSize = .ok n) (hsize : data.shape.size ≠ s.size) :
    data.spreadInWords s = (do let _ ← data.toFrame.broadcastInWords s; data.spread s) := by
  have hshape : data.shape ≠ s := fun h => hsize (by rw [h])
  rw [spreadInWords, if_neg hshape]
  simp only [sizeWord, sizeChecked_of_elementCount hm, sizeChecked_of_elementCount hn,
    ok_bind, if_neg hsize]

theorem Sound.broadcastInWords_iff (h : data.Sound) (hn : elementCount s data.itemSize = .ok n)
    (hsize : data.shape.size ≠ s.size) (he : data.broadcastView s = .ok e) :
    (∃ f, data.toFrame.broadcastInWords s = .ok f) ↔ s.stridesFit data.itemSize := by
  obtain ⟨f, hf, -⟩ : ∃ f, data.toFrame.broadcast s = .ok f ∧ data.through f .empty = e := by
    simpa only [broadcastView, bind_eq_ok, pure_eq_ok] using he
  -- A source without items would be broadcast to no items.
  have hpos : 0 < data.shape.size := by
    refine Nat.pos_of_ne_zero fun hzero => hsize ?_
    obtain ⟨-, hfits⟩ := (broadcast_eq_ok ((h.exists_broadcastView hn).mp ⟨e, he⟩)).1
    rw [hzero, hfits.size_eq_zero (by rw [size_pad, hzero])]
  have hstrides : data.HasStrides := Frame.Sound.hasStrides h hpos
  simp only [Frame.broadcastInWords, hf, ok_bind, Frame.stridesInWords_bind,
    stridesChecked_bind, ensure_of hstrides, bind_eq_ok, ensure_eq_ok]
  constructor
  · rintro ⟨-, -, hfit, -⟩
    exact hfit
  · intro hfit
    exact ⟨f, (), hfit, rfl⟩

/-- A source is brought under a shape and can be read there, in words, just if it is over exact
integers and the numbers met are words. -/
theorem Sound.spreadInWords_iff (h : data.Sound) (hmeta : data.metadata = .empty)
    (hm : elementCount data.shape data.itemSize = .ok m)
    (hn : elementCount s data.itemSize = .ok n) :
    (data.spreadInWords s = .ok e ∧ e.checkWalk = .ok ()) ↔
      data.spread s = .ok e ∧ data.BringsInWords s := by
  have hwalk (he : data.spread s = .ok e) :
      (∀ x, data.spread s = .ok x → AllFit x.geometry.walkNumbers) ↔
        AllFit e.geometry.walkNumbers :=
    ⟨fun hall => hall e he, fun hfit x hx => Except.ok.inj (he.symm.trans hx) ▸ hfit⟩
  have hstrides (he : data.spread s = .ok e) (hwords : data.BringsInWords s) : e.HasStrides :=
    h.hasStrides_spread hmeta he hwords.packed
  rw [checkWalk_eq_ok]
  by_cases hshape : data.shape = s
  · rw [spreadInWords_of_shape hshape]
    simp only [bind_eq_ok, ensure_eq_ok]
    constructor
    · rintro ⟨⟨-, ⟨hfit, -⟩, he⟩, -, hturns⟩
      exact ⟨he, hfit, fun hne => absurd hshape hne, (hwalk he).mpr hturns⟩
    · rintro ⟨he, hwords⟩
      have hcopies : data.metadata.CopiesInWords := hmeta ▸ Metadata.copiesInWords_empty
      exact ⟨⟨(), ⟨hwords.packed, hcopies⟩, he⟩, hstrides he hwords, hwords.walk e he⟩
  by_cases hsize : data.shape.size = s.size
  · rw [spreadInWords_of_size hmeta hshape (sameSize_of_elementCount hm hn hsize)]
    simp only [bind_eq_ok, ensure_eq_ok]
    constructor
    · rintro ⟨⟨-, hreshape, he⟩, hown, hturns⟩
      obtain ⟨hitem, hdense⟩ := h.frame_reshape (spread_of_size hshape hsize ▸ he)
      refine ⟨he, ?_, fun _ _ => hreshape, (hwalk he).mpr hturns⟩
      by_cases hkeeps : data.KeepsBuffer s
      · exact hreshape.strides hkeeps
      · have hfit := hown (hdense hkeeps)
        rwa [(h.spread_eq_ok hmeta he).1, hitem] at hfit
    · rintro ⟨he, hwords⟩
      exact ⟨⟨(), hwords.reshape hshape hsize, he⟩, hstrides he hwords, hwords.walk e he⟩
  · rw [spreadInWords_of_ne hm hn hsize]
    simp only [bind_eq_ok]
    constructor
    · rintro ⟨⟨f, hf, he⟩, -, hturns⟩
      have hfit := (h.broadcastInWords_iff hn hsize (spread_of_ne hsize ▸ he)).mp ⟨f, hf⟩
      exact ⟨he, hfit, fun _ hsame => absurd hsame hsize, (hwalk he).mpr hturns⟩
    · rintro ⟨he, hwords⟩
      obtain ⟨f, hf⟩ :=
        (h.broadcastInWords_iff hn hsize (spread_of_ne hsize ▸ he)).mpr hwords.packed
      exact ⟨⟨f, hf, he⟩, hstrides he hwords, hwords.walk e he⟩

/-! ## Writing a region -/

/-- What a source brings to a region, if it has the items for it. -/
theorem Sound.incoming_eq_ok_iff {items : List (List Scalar)} (hdata : data.Sound)
    (hmeta : data.metadata = .empty) (hsource : r.source = d.shape) :
    d.incoming r data = .ok items ↔ (data.itemSize = d.itemSize ∨ data.itemSize = 1) ∧
      (∃ e, data.spread r.shape = .ok e) ∧
      items = r.shape.positions.map (sourceItem d.kind d.itemSize data r.shape) := by
  constructor
  · intro h
    obtain ⟨-, hsize, -, hitems⟩ := incoming_eq_ok hdata hmeta h
    simp only [incoming, bind_eq_ok] at h
    obtain ⟨-, -, h⟩ := h
    rw [if_neg (by omega)] at h
    simp only [bind_eq_ok] at h
    obtain ⟨e, he, -⟩ := h
    exact ⟨hsize, ⟨e, he⟩, hitems⟩
  · rintro ⟨hsize, ⟨e, he⟩, rfl⟩
    have hread : e.checkRead = .ok () := check_eq_ok.mpr (hdata.spread he).1.fault_eq_none
    have hincoming : d.incoming r data = .ok (e.itemList.map (fitItem d.kind d.itemSize)) := by
      simp only [incoming, bind_eq_ok, Frame.checkRegion_eq_ok]
      refine ⟨(), hsource, ?_⟩
      rw [if_neg (by omega)]
      simp only [bind_eq_ok]
      exact ⟨e, he, (), hread, rfl⟩
    rw [hincoming, (incoming_eq_ok hdata hmeta hincoming).2.2.2]

/-- A source is read for a region, in words, just if it is over exact integers and the numbers met
are words. -/
theorem Sound.incomingInWords_eq_ok_iff {items : List (List Scalar)} (hdata : data.Sound)
    (hmeta : data.metadata = .empty) (hm : elementCount data.shape data.itemSize = .ok m)
    (hn : elementCount r.shape data.itemSize = .ok n) :
    d.incomingInWords r data = .ok items ↔
      d.incoming r data = .ok items ∧ data.BringsInWords r.shape := by
  simp only [incomingInWords, incoming]
  by_cases hsize : data.itemSize ≠ d.itemSize ∧ data.itemSize ≠ 1
  · simp [if_pos hsize]
  · simp only [if_neg hsize, bind_eq_ok]
    constructor
    · rintro ⟨u, hregion, e, hspread, v, hwalk, hread, hitems⟩
      obtain ⟨he, hwords⟩ := (hdata.spreadInWords_iff hmeta hm hn).mp ⟨hspread, hwalk⟩
      exact ⟨⟨u, hregion, e, he, hread, hitems⟩, hwords⟩
    · rintro ⟨⟨u, hregion, e, he, hread, hitems⟩, hwords⟩
      obtain ⟨hspread, hwalk⟩ := (hdata.spreadInWords_iff hmeta hm hn).mpr ⟨he, hwords⟩
      exact ⟨u, hregion, e, hspread, (), hwalk, hread, hitems⟩

/-- The numbers met in writing a source into a region are words: those of the walk that reads the
source and those of the walk that writes. -/
structure WritesInWords (d : Block) (r : Region) (data : Block) : Prop where
  source : data.BringsInWords r.shape
  own : d.HasStrides
  strides : Word.AllFit (d.geometry.slice r).strides
  walk : Word.AllFit (d.geometry.slice r).walkNumbers

def afterRegion (d : Block) (r : Region) (data : Block) : Block :=
  d.modifyElements (·.putItems (r.shape.positions.map fun p =>
    (d.geometry.indexOf (r.sourcePosition p), sourceItem d.kind d.itemSize data r.shape p)))

theorem Sound.writeSlice_eq_ok_iff {w : Written Buffer} (hd : d.Sound) (hr : r.Valid)
    (hsource : r.source = d.shape) (hdata : data.Sound) (hmeta : data.metadata = .empty) :
    d.writeSlice r data = .ok w ↔ (data.itemSize = d.itemSize ∨ data.itemSize = 1) ∧
      (∃ e, data.spread r.shape = .ok e) ∧ w = ⟨d.afterRegion r data, none⟩ := by
  simp only [writeSlice, bind_eq_ok, pure_eq_ok, (hd.inside.slice hr hsource).reach_eq,
    openingWrite_none, ite_self, hdata.incoming_eq_ok_iff hmeta hsource]
  constructor
  · rintro ⟨items, ⟨hsize, hspread, rfl⟩, rfl⟩
    refine ⟨hsize, hspread, ?_⟩
    rw [hd.zip_indices_slice hr hsource]
    rfl
  · rintro ⟨hsize, hspread, rfl⟩
    refine ⟨_, ⟨hsize, hspread, rfl⟩, ?_⟩
    rw [hd.zip_indices_slice hr hsource]
    rfl

/-- **A write of a region comes to its end in words just if the numbers met are words**, and is then
the write over exact integers. -/
theorem Sound.writeSliceInWords_iff {w : Written Buffer} (hd : d.Sound) (hr : r.Valid)
    (hsource : r.source = d.shape) (hdata : data.Sound) (hmeta : data.metadata = .empty)
    (hm : elementCount data.shape data.itemSize = .ok m)
    (hn : elementCount r.shape data.itemSize = .ok n) :
    (d.writeSliceInWords r data = .ok w ∧ w.stop = none) ↔
      d.writeSlice r data = .ok w ∧ d.WritesInWords r data := by
  have hsize : r.shape.sizeChecked.isSome := by
    rw [sizeChecked_of_elementCount hn]
    rfl
  have hinside := hd.inside.slice hr hsource
  obtain ⟨hreach, hstop⟩ := hinside.reachInWords_eq hsize
  simp only [writeSliceInWords, writeSlice, Frame.Sound.regionInWords_eq hd hr hsource, bind_eq_ok,
    pure_eq_ok, ensure_eq_ok, hdata.incomingInWords_eq_ok_iff hmeta hm hn]
  constructor
  · rintro ⟨⟨items, ⟨hitems, hsourced⟩, _, ⟨-, ⟨hown, -, hstrides⟩, rfl⟩, rfl⟩, hnone⟩
    have hwalk : AllFit (d.geometry.slice r).walkNumbers := by
      by_contra hnot
      rw [hstop hnot] at hnone
      cases hnone
    rw [hreach hwalk]
    exact ⟨⟨items, hitems, rfl⟩, hsourced, hown, hstrides, hwalk⟩
  · rintro ⟨⟨items, hitems, rfl⟩, hwords⟩
    rw [← hreach hwords.walk]
    refine ⟨⟨items, ⟨hitems, hwords.source⟩, _,
      ⟨(), ⟨hwords.own, hsize, hwords.strides⟩, rfl⟩, rfl⟩, ?_⟩
    rw [stop_afterWrite, hreach hwords.walk, hinside.reach_eq]

/-- Of the numbers met in writing a region that selects something, only those of the walks may leave
the words. -/
theorem Sound.writesInWords_iff_of_pos (hd : d.Sound) (hr : r.Valid) (hsource : r.source = d.shape)
    (hdata : data.Sound) (hn : elementCount r.shape data.itemSize = .ok n) (hpos : 0 < r.size) :
    d.WritesInWords r data ↔ AllFit (d.geometry.slice r).walkNumbers ∧
      (∀ e, data.spread r.shape = .ok e → AllFit e.geometry.walkNumbers) ∧
      (data.shape ≠ r.shape → data.shape.size = r.shape.size → ¬ data.KeepsBuffer r.shape →
        AllFit data.geometry.walkNumbers) := by
  have hpacked : r.shape.stridesFit data.itemSize := by
    obtain ⟨rfl, hmax⟩ := elementCount_eq_ok hn
    have hhalf : maxElements < half := by decide
    exact stridesFit_of_pos hdata.itemSize_pos hpos (hmax.trans_lt hhalf)
  constructor
  · intro h
    exact ⟨h.walk, h.source.walk, fun hshape hsize => (h.source.reshape hshape hsize).walk⟩
  · rintro ⟨hwalk, hread, hcopy⟩
    obtain ⟨⟨hown, -, hstrides, -⟩, -⟩ :=
      (Frame.Sound.readsInWords_iff_of_pos hd hr hsource hpos).mpr hwalk
    exact ⟨⟨hpacked, fun hshape hsize => ⟨fun _ => hpacked, hcopy hshape hsize⟩, hread⟩, hown,
      hstrides, hwalk⟩

end Dataset

namespace Handle

variable {h data : Handle} {s s' : Store} {r : Region} {m n : Nat} {w : Written BufferId}

theorem run_setSlice (h : Handle) (r : Region) (data : Handle) (s : Store) :
    (h.setSlice r data).run s = (h.write (·.writeSlice r (s.read data))).run s := by
  simp only [setSlice, run_bind, run_peek, andThen_ok]

theorem run_setSliceInWords (h : Handle) (r : Region) (data : Handle) (s : Store) :
    (h.setSliceInWords r data).run s = (h.write (·.writeSliceInWords r (s.read data))).run s := by
  simp only [setSliceInWords, run_bind, run_peek, andThen_ok]

theorem run_write_eq_ok_iff {f : Block → Except Error (Written Buffer)} :
    (h.write f).run s = (.ok w, s') ↔ ∃ x, f (s.read h) = .ok x ∧
      w = ⟨{ h with metadata := x.dataset.metadata }, x.stop⟩ ∧
      s' = s.setBuffer h.buffer x.dataset.buffer := by
  rw [run_write]
  cases f (s.read h) with
  | error e =>
    constructor
    · rintro ⟨⟩
    · rintro ⟨_, ⟨⟩, -⟩
  | ok x =>
    constructor
    · rintro ⟨⟩
      exact ⟨x, rfl, rfl, rfl⟩
    · rintro ⟨_, ⟨⟩, rfl, rfl⟩
      rfl

section

variable (hh : h.Held s) (hdata : data.Held s) (hmeta : data.metadata = .empty) (hr : r.Valid)
  (hsource : r.source = h.shape) (hm : elementCount data.shape data.itemSize = .ok m)
  (hn : elementCount r.shape data.itemSize = .ok n)
include hh hdata hmeta hr hsource hm hn

theorem Held.exists_setSlice_iff :
    (∃ w s', (h.setSlice r data).run s = (.ok w, s')) ↔
      (data.itemSize = h.itemSize ∨ data.itemSize = 1) ∧ data.shape.Spreads r.shape := by
  have hown : (s.read h).Sound := hh.sound
  have hother : (s.read data).Sound := hdata.sound
  have hspreads : (∃ e, (s.read data).spread r.shape = .ok e) ↔ data.shape.Spreads r.shape :=
    hother.exists_spread_iff hmeta hm hn
  simp only [run_setSlice, run_write_eq_ok_iff, hown.writeSlice_eq_ok_iff hr hsource hother hmeta,
    hspreads]
  constructor
  · rintro ⟨_, _, _, ⟨hsize, hspread, -⟩, -⟩
    exact ⟨hsize, hspread⟩
  · rintro ⟨hsize, hspread⟩
    exact ⟨_, _, _, ⟨hsize, hspread, rfl⟩, rfl, rfl⟩

theorem Held.run_setSliceInWords_iff :
    ((h.setSliceInWords r data).run s = (.ok w, s') ∧ w.stop = none) ↔
      (h.setSlice r data).run s = (.ok w, s') ∧ (s.read h).WritesInWords r (s.read data) := by
  have hown : (s.read h).Sound := hh.sound
  have hother : (s.read data).Sound := hdata.sound
  have hwords (x : Written Buffer) :=
    @Sound.writeSliceInWords_iff _ _ _ _ _ x hown hr hsource hother hmeta hm hn
  rw [run_setSlice, run_setSliceInWords, run_write_eq_ok_iff, run_write_eq_ok_iff]
  constructor
  · rintro ⟨⟨x, hx, rfl, rfl⟩, hstop⟩
    obtain ⟨hx, hfits⟩ := (hwords x).mp ⟨hx, hstop⟩
    exact ⟨⟨x, hx, rfl, rfl⟩, hfits⟩
  · rintro ⟨⟨x, hx, rfl, rfl⟩, hfits⟩
    obtain ⟨hx, hstop⟩ := (hwords x).mpr ⟨hx, hfits⟩
    exact ⟨⟨x, hx, rfl, rfl⟩, hstop⟩

end

theorem Held.puts_of_setSlice (hh : h.Held s) (hdata : data.Held s) (hmeta : data.metadata = .empty)
    (hsep : h.geometry.Separate) (hr : r.Valid) (hsource : r.source = h.shape)
    (hrun : (h.setSlice r data).run s = (.ok w, s')) :
    w = ⟨{ h with metadata := h.metadata.onDirty }, none⟩ ∧ h.Puts s r.shape r.sourcePosition
        (sourceItem h.kind h.itemSize (s.read data) r.shape) s' ∧
      ∀ p, r.shape.contains p → data.shape.contains (data.shape.spreadPosition r.shape p) := by
  have hown : (s.read h).Sound := hh.sound
  have hother : (s.read data).Sound := hdata.sound
  rw [run_setSlice, run_write_eq_ok_iff] at hrun
  obtain ⟨x, hx, rfl, rfl⟩ := hrun
  obtain ⟨hsize, ⟨e, he⟩, rfl⟩ := (hown.writeSlice_eq_ok_iff hr hsource hother hmeta).mp hx
  refine ⟨rfl, ?_, fun p hp => ((hother.spread_eq_ok hmeta he).2 p hp).1⟩
  exact hh.puts_putItems hsep (fun p hp => hown.inside.contains_sourcePosition hr hsource hp)
    (fun p q hp hq => hown.inside.sourcePosition_inj hr hsource hp hq)
    fun p _ => length_sourceItem hown.itemSize_pos hsize

/-- **Region writes.** A source without metadata is written just if its item size is the dataset's
or one, it has the region's shape or size or broadcasts to it, and, in words, the numbers met are
words. The items of the region are then those that the source had before, cast to the kind of the
dataset and filled up with zeros; nothing else has changed. -/
theorem setSlice_puts_source (hh : h.Held s) (hdata : data.Held s) (hmeta : data.metadata = .empty)
    (hsep : h.geometry.Separate) (hr : r.Built) (hsource : r.source = h.shape)
    (hm : elementCount data.shape data.itemSize = .ok m)
    (hn : elementCount r.shape data.itemSize = .ok n) :
    ((∃ w s', (h.setSlice r data).run s = (.ok w, s')) ↔
      (data.itemSize = h.itemSize ∨ data.itemSize = 1) ∧ data.shape.Spreads r.shape) ∧
    ((∃ w s', (h.setSliceInWords r data).run s = (.ok w, s') ∧ w.stop = none) ↔
      ((data.itemSize = h.itemSize ∨ data.itemSize = 1) ∧ data.shape.Spreads r.shape) ∧
        (s.read h).WritesInWords r (s.read data)) ∧
    (∀ w s', (h.setSliceInWords r data).run s = (.ok w, s') → w.stop = none →
      (h.setSlice r data).run s = (.ok w, s')) ∧
    (∀ w s', (h.setSlice r data).run s = (.ok w, s') →
      w = ⟨{ h with metadata := h.metadata.onDirty }, none⟩ ∧
      h.Puts s r.shape r.sourcePosition (fun p =>
        ((s.read data).item (data.shape.spreadPosition r.shape p)).map h.kind.cast ++
          List.replicate (h.itemSize - data.itemSize) h.kind.zero) s' ∧
      ∀ p, r.shape.contains p = true → (r.sourcePosition p).map Int.ofNat = r.coords p ∧
        data.shape.contains (data.shape.spreadPosition r.shape p) = true) ∧
    (0 < r.size → ((s.read h).WritesInWords r (s.read data) ↔
      Word.AllFit (h.geometry.slice r).walkNumbers ∧
      (∀ e, (s.read data).spread r.shape = .ok e → Word.AllFit e.geometry.walkNumbers) ∧
      (data.shape ≠ r.shape → data.shape.size = r.shape.size → ¬ data.KeepsBuffer r.shape →
        Word.AllFit data.geometry.walkNumbers))) := by
  have hrun (w : Written BufferId) (s' : Store) :=
    @Held.run_setSliceInWords_iff h data s s' r m n w hh hdata hmeta hr.valid hsource hm hn
  have hexists := hh.exists_setSlice_iff hdata hmeta hr.valid hsource hm hn
  have hitem (p : Position) : Dataset.sourceItem h.kind h.itemSize (s.read data) r.shape p =
      ((s.read data).item (data.shape.spreadPosition r.shape p)).map h.kind.cast ++
        List.replicate (h.itemSize - data.itemSize) h.kind.zero := by
    rw [Dataset.sourceItem, Dataset.fitItem, List.length_map, Dataset.length_item]
    rfl
  refine ⟨hexists, ?_, fun w s' h hstop => ((hrun w s').mp ⟨h, hstop⟩).1, fun w s' hw => ?_,
    Dataset.Sound.writesInWords_iff_of_pos hh.sound hr.valid hsource hdata.sound hn⟩
  · simp only [hrun, exists_and_right, hexists]
  · obtain ⟨hw, hputs, hcontains⟩ := hh.puts_of_setSlice hdata hmeta hsep hr.valid hsource hw
    simp only [← hitem]
    exact ⟨hw, hputs, fun p hp =>
      ⟨hh.sound.inside.cast_sourcePosition hr.valid hsource hp, hcontains p hp⟩⟩

def tenStore : Store := (Store.empty.adopt Dataset.tenNumbers).2

def tenHandle : Handle := (Store.empty.adopt Dataset.tenNumbers).1

/-- The first four of ten numbers, the last one first. -/
def firstFour : Handle := { tenHandle with shape := [4], offset := 3, layout := .strided [-1] }

/-- The third of ten numbers and the three behind it. -/
def nextFour : Region := ⟨[10], none, [⟨2, 6, 1, 4⟩], false, .none⟩

theorem built_nextFour : nextFour.Built :=
  @Region.Built.ofSlices [10] [.range (some 2) (some 6) 1] nextFour rfl

theorem made_tenNumbers : tenNumbers.Made :=
  @Made.ofElements _ 1 [10] ((List.range 10).map fun i => Scalar.int i) _ rfl

theorem setSlice_puts_source_overlapping : ∃ (s s' : Store) (h data : Handle)
    (w : Written BufferId), h.Held s ∧ data.sharesBuffer h = true ∧
      (s.read data).toList = [3, 2, 1, 0].map Scalar.int ∧
      (h.setSliceInWords nextFour data).run s = (.ok w, s') ∧ w.stop = none ∧
      (s'.read h).item [3] = [.int 2] ∧ (s'.read h).item [5] = [.int 0] ∧
      (s'.buffer h.buffer).elements[6]? = some (.int 6) := by
  have hh : tenHandle.Held tenStore := by decide +kernel
  have hsix : ∀ p ∈ nextFour.shape.positions,
      tenHandle.geometry.indexOf (nextFour.sourcePosition p) + 1 ≤ 6 := by decide
  obtain ⟨-, hsucceeds, hexact, hputs, hpos⟩ := setSlice_puts_source hh
    (by decide +kernel : firstFour.Held _) rfl made_tenNumbers.separate built_nextFour rfl rfl rfl
  have hfits : (tenStore.read tenHandle).WritesInWords nextFour (tenStore.read firstFour) := by
    refine (hpos (by decide)).mpr ⟨by decide, fun e he => ?_, fun hne => absurd rfl hne⟩
    cases he
    decide
  obtain ⟨w, s', hrun, hstop⟩ := hsucceeds.mpr ⟨⟨.inr rfl, .inl rfl⟩, hfits⟩
  obtain ⟨-, hput, -⟩ := hputs w s' (hexact w s' hrun hstop)
  exact ⟨_, s', _, _, w, hh, rfl, rfl, hrun, hstop, hput.item_eq [1] rfl, hput.item_eq [3] rfl,
    hput.element_eq 6 fun p hp => .inr (hsix p (Shape.mem_positions.mpr hp))⟩

/-- A lone number. -/
def seven : Block := Dataset.ofList (.int true .w32) [1] 1 [.int 7]

/-- One item cannot be set: the walk that writes it goes one stride past it before it turns, and
this stride leads out of the words. -/
theorem long_stride_stops_writes : ∃ (s s' : Store) (h data : Handle) (w : Written BufferId),
    (h.Held s ∧ h.geometry.Separate) ∧ (data.Held s ∧ data.metadata = .empty) ∧
      (Dataset.middle.Built ∧ Dataset.middle.source = h.shape) ∧
      (data.itemSize = h.itemSize ∧ data.shape = Dataset.middle.shape) ∧
      (s.read data).item [0] = [.int 7] ∧
      (h.setSliceInWords Dataset.middle data).run s = (.ok w, s') ∧ w.stop = some .overflow ∧
      (s'.read h).item [5] = [.int 5] := by
  exact ⟨(tenStore.adopt seven).2, _, tenHandle, (tenStore.adopt seven).1, _,
    ⟨by decide +kernel, made_tenNumbers.separate⟩, ⟨by decide +kernel, rfl⟩,
    ⟨Dataset.built_middle, rfl⟩, ⟨rfl, rfl⟩, rfl, rfl, rfl, rfl⟩

end Handle

end Hyperslab
