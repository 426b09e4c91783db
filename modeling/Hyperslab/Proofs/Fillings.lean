import Hyperslab.Dataset.Pieces
import Hyperslab.Proofs.Growth
import Hyperslab.Proofs.RegionWrites
import Hyperslab.Proofs.Transpositions
import Mathlib.Algebra.Order.Ring.Abs

/-!
# Filling a packed dataset

A dataset that is put together from others starts as a packed dataset of zeros and is written region
by region. When every write puts an item where a given function of the position wants it, the order
of the writes does not matter, and what they come to is read off the positions that are covered.
-/
namespace Hyperslab

open List Shape Word

/-! ## Strides of packed items -/

namespace Shape

variable {s t : Shape} {m n : Nat}

theorem room_le_room (hle : Forall₂ (· ≤ ·) t s) (hmn : m ≤ n) : t.room m ≤ s.room n := by
  induction hle with
  | nil => exact Nat.mul_le_mul_left _ hmn
  | @cons c d t s hcd _ ih =>
    rw [room_cons, room_cons]
    exact Nat.mul_le_mul (by omega) ih

theorem forall₂_le_self (s : Shape) : Forall₂ (· ≤ ·) s s :=
  forall₂_same.mpr fun d _ => Nat.le_refl d

/-- Strides of packed items times steps that are no longer than the axes of a shape, no smaller than
that of the items, are no longer than the room that this shape takes up. -/
theorem abs_mul_strides_le {steps : List Int} (hn : 0 < n) (hle : Forall₂ (· ≤ ·) s t)
    (hroom : t.room n < half)
    (hsteps : Forall₂ (fun (z : Int) (d : Nat) => |z| ≤ (max d 1 : Nat)) steps t) :
    ∀ x ∈ zipWith (· * ·) (s.strides n) steps, |x| ≤ (t.room n : Int) := by
  induction hle generalizing steps with
  | nil => simp [strides]
  | @cons c d s t _ hle ih =>
    obtain ⟨z, steps, hz, hrests, rfl⟩ := forall₂_cons_right_iff.mp hsteps
    obtain ⟨-, hrest⟩ := room_lt_of_cons hn hroom
    have htail : room n s ≤ room n t := room_le_room hle le_rfl
    have hgrow : room n t ≤ room n (d :: t) := by
      rw [room_cons]
      exact Nat.le_mul_of_pos_left _ (by omega)
    rw [strides, zipWith_cons_cons, forall_mem_cons]
    constructor
    · rw [extent_eq_room hn (htail.trans_lt hrest), abs_mul, room_cons, Nat.mul_comm]
      push_cast
      exact Int.mul_le_mul (by exact_mod_cast htail) (by exact_mod_cast hz) (abs_nonneg z)
        (Int.natCast_nonneg _)
    · intro x hx
      exact (ih hrest hrests x hx).trans (by exact_mod_cast hgrow)

section

variable (hn : 0 < n) (hroom : s.room n < half)
include hn hroom

theorem lt_half_of_room : ∀ d ∈ s, d < half := by
  induction s with
  | nil => simp
  | cons d s ih =>
    obtain ⟨hd, hs⟩ := room_lt_of_cons hn hroom
    rw [forall_mem_cons]
    exact ⟨by omega, ih hs⟩

theorem getD_lt_half_of_room {a : Nat} (ha : a < s.length) : s.getD a 0 < half := by
  rw [getD_eq_getElem?_getD, getElem?_eq_getElem ha]
  exact lt_half_of_room hn hroom _ (getElem_mem ha)

theorem le_modulus_of_room : ∀ d ∈ s, d ≤ modulus := by
  have hmodulus : half ≤ modulus := by decide
  exact fun d hd => ((lt_half_of_room hn hroom d hd).trans_le hmodulus).le

end

end Shape

/-! ## Packed datasets -/

/-- No step is longer than the axis of a shape. -/
def Region.StepsWithin (r : Region) (s : Shape) : Prop :=
  List.Forall₂ (fun (span : Span) (d : Nat) => |span.step| ≤ (max d 1 : Nat)) r.spans s

theorem Region.stepsWithin_of_unit {r : Region} (hr : r.Valid)
    (h : ∀ span ∈ r.spans, span.step = 1) : r.StepsWithin r.source := by
  refine forall₂_iff_zip.mpr ⟨hr.within.length_eq, fun {span d} hmem => ?_⟩
  rw [h span (of_mem_zip hmem).1, abs_one]
  omega

namespace Dataset

variable {d data e : Block} {k : Kind} {s t : Shape} {n : Nat} {r : Region}

/-- A packed dataset with nothing attached, of no more elements than a buffer may have. -/
structure Fresh (d : Block) (k : Kind) (s : Shape) (n : Nat) : Prop where
  frame_eq : d.toFrame = Frame.packed k d.name s n
  sound : d.Sound
  metadata_eq : d.metadata = .empty
  few : s.size * n ≤ maxElements

theorem fresh_of_zeros (h : zeros k n s = .ok d) : d.Fresh k s n := by
  obtain ⟨hframe, hsound, hmeta, -, -, m, hm⟩ := zeros_eq_ok h
  obtain ⟨rfl, hmax⟩ := elementCount_eq_ok (reserve_eq_ok hm)
  have hname : d.name = "" := congrArg Frame.name hframe
  exact ⟨hname ▸ hframe, hsound, hmeta, hmax⟩

theorem zeros_bind {α : Type} (hn : 0 < n) (f : Block → Except Error α) :
    zeros k n s >>= f = (do
      let m ← reserve k s n
      f (ofField { Frame.packed k "" s n with buffer := Array.replicate m k.zero } .empty)) := by
  have hcheck : checkItemSize n = .ok () := checkItemSize_eq_ok.mpr hn
  simp only [zeros, fullOf, hcheck, bind_assoc, ok_bind, pure_bind]

theorem room_lt_of_reserve {s : Shape} {m n : Nat} (hreserve : reserve k s n = .ok m)
    (hempty : s.size = 0 → s.room n < half) : s.room n < half := by
  rcases Nat.eq_zero_or_pos s.size with hzero | hpos
  · exact hempty hzero
  · obtain ⟨rfl, hmax⟩ := elementCount_eq_ok (reserve_eq_ok hreserve)
    have hhalf : maxElements < half := by decide
    rw [room_of_pos hpos]
    omega

namespace Fresh

variable (h : d.Fresh k s n)
include h

theorem kind_eq : d.kind = k := congrArg Frame.kind h.frame_eq

theorem shape_eq : d.shape = s := congrArg Frame.shape h.frame_eq

theorem itemSize_eq : d.itemSize = n := congrArg Frame.itemSize h.frame_eq

theorem layout_eq : d.layout = .dense := congrArg Frame.layout h.frame_eq

theorem itemSize_pos : 0 < n := h.itemSize_eq ▸ h.sound.itemSize_pos

theorem geometry_eq : d.geometry = Geometry.dense s n := by
  rw [h.frame_eq]
  rfl

theorem separate : d.geometry.Separate := by
  rw [h.frame_eq]
  exact Frame.separate_packed h.itemSize_pos (bytes_mul_lt h.few)

theorem hasStrides (hroom : s.room n < half) : d.HasStrides := fun _ => by
  rw [h.shape_eq, h.itemSize_eq]
  exact stridesFit_of_room h.itemSize_pos hroom

theorem withName (name : String) : (d.withName name).Fresh k s n where
  frame_eq := by
    have hframe : (d.withName name).toFrame = { d.toFrame with name := name } := rfl
    rw [hframe, h.frame_eq]
    rfl
  sound := ⟨h.sound.inside, h.sound.listable⟩
  metadata_eq := h.metadata_eq
  few := h.few

section

variable (hle : Forall₂ (· ≤ ·) s t) (hroom : t.room n < half) (hr : r.Valid)
  (hsteps : r.StepsWithin t)
include hle hroom hr hsteps

/-- The strides of a region whose steps are within a larger shape are no longer than the room that
this takes up. -/
theorem abs_strides_slice_le : ∀ x ∈ (d.geometry.slice r).strides, |x| ≤ (t.room n : Int) := by
  have hstrides : (d.geometry.slice r).strides =
      zipWith (· * ·) (s.strides n) (r.spans.map Span.step) := by
    rw [h.geometry_eq, ← hr.steps_eq]
    rfl
  rw [hstrides]
  exact abs_mul_strides_le h.itemSize_pos hle hroom (forall₂_map_left_iff.mpr hsteps)

theorem allFit_strides_slice : AllFit (d.geometry.slice r).strides := by
  intro x hx
  have hle := abs_le.mp (h.abs_strides_slice_le hle hroom hr hsteps x hx)
  rw [fits_iff]
  omega

end

/-- A region with steps within its source is walked in words. -/
theorem allFit_walkNumbers_slice (hr : r.Valid) (hsource : r.source = s)
    (hsteps : 0 < s.size → r.StepsWithin s) : AllFit (d.geometry.slice r).walkNumbers := by
  rcases Nat.eq_zero_or_pos s.size with hempty | hpos
  · have hnone : (d.geometry.slice r).shape.size = 0 := by
      have hle : r.size ≤ r.source.size := hr.size_le
      rw [hsource, hempty] at hle
      exact Nat.le_zero.mp hle
    rw [Geometry.walkNumbers, if_pos hnone]
    exact allFit_nil
  · have hinside : d.geometry.Inside (s.size * n) := by
      rw [h.frame_eq]
      exact (Frame.sound_packed h.itemSize_pos (bytes_mul_lt h.few)).inside
    have hfew := h.few
    have hmax : 2 * maxElements < half := by decide
    have hroom : s.room n = s.size * n := room_of_pos hpos
    have hshape : r.source = d.geometry.shape := hsource.trans h.shape_eq.symm
    refine (hinside.slice hr hshape).allFit_walkNumbers (by omega) fun x hx _ => ?_
    have hle := h.abs_strides_slice_le (forall₂_le_self s) (by omega) hr (hsteps hpos) x.2
      (of_mem_zip hx).2
    omega

end Fresh

/-! ## One write -/

theorem layout_reshape (hdense : data.layout = .dense)
    (he : data.reshape s = .ok e) : e.layout = .dense := by
  obtain ⟨map, hmap, -⟩ := bind_eq_ok.mp he
  simp only [reshape_of_dense hdense hmap, bind_eq_ok, pure_eq_ok] at he
  obtain ⟨_, -, rfl⟩ := he
  simp [through, Frame.withGeometry, Layout.ofStrides]

theorem Plain.reshape (hd : d.Plain k) (he : d.reshape s = .ok e) : e.Plain k := by
  obtain ⟨hshape, hsize, hitem⟩ := hd.sound.reshape_eq_ok hd.metadata_eq he
  have hframe : e.kind = d.kind ∧ e.metadata = .empty := by
    simp only [Dataset.reshape, bind_eq_ok, hd.metadata_eq, Metadata.onReshape_empty] at he
    obtain ⟨map, hmap, -, -, he⟩ := he
    split at he
    · rename_i f hf
      obtain ⟨_, rfl, rfl⟩ := he
      exact ⟨(Frame.regrouped_eq_some hf).2.1, rfl⟩
    · simp only [bind_eq_ok, pure_eq_ok, Except.ok.injEq] at he
      obtain ⟨-, -, _, rfl, rfl⟩ := he
      exact ⟨rfl, rfl⟩
  refine ⟨hd.sound.reshape he, hframe.1.trans hd.kind_eq, hframe.2, fun p hp => ?_⟩
  rw [hshape] at hp
  rw [hitem p hp]
  exact hd.holds _ (contains_unravel (hsize ▸ size_pos_of_contains hp) _)

theorem geometry_broadcastView (he : data.broadcastView s = .ok e) :
    data.geometry.Stretches s ∧ e.geometry = data.geometry.stretch s := by
  simp only [broadcastView, Frame.broadcast, bind_eq_ok, pure_eq_ok] at he
  obtain ⟨f, ⟨_, -, t, ht, hf⟩, rfl⟩ := he
  split at hf
  · cases hf
  · rename_i hne
    obtain rfl : t = s := not_not.mp hne
    simp only [bind_eq_ok, pure_eq_ok] at hf
    obtain ⟨us, hus, rfl⟩ := hf
    refine ⟨(broadcast_eq_ok ht).1, ?_⟩
    have hus' : broadcastStrides data.geometry.shape data.geometry.strides t = .ok us := hus
    have hgeometry : (data.through (data.withGeometry t data.offset us) .empty).geometry =
        ⟨t, data.itemSize, data.offset, us⟩ := Frame.geometry_withGeometry ..
    rw [hgeometry, Geometry.stretch, hus']
    rfl

theorem Sound.bringsInWords_of_dense (h : data.Sound) (hdense : data.layout = .dense)
    (hroom : s.room data.itemSize < half) : data.BringsInWords s where
  packed := stridesFit_of_room h.itemSize_pos hroom
  reshape _ _ := {
    strides := fun _ => stridesFit_of_room h.itemSize_pos hroom
    walk := fun hnot => absurd (.inl (by rw [hdense]; rfl)) hnot }
  walk e he := by
    have hwalk := Frame.Sound.allFit_walkNumbers_of_dense h hdense
    by_cases hshape : data.shape = s
    · rw [spread_of_shape hshape, Except.ok.injEq] at he
      rw [← he]
      exact (Frame.geometry_view data.toFrame).symm ▸ hwalk
    by_cases hsize : data.shape.size = s.size
    · rw [spread_of_size hshape hsize] at he
      exact Frame.Sound.allFit_walkNumbers_of_dense (h.reshape he) (layout_reshape hdense he)
    · rw [spread_of_ne hsize] at he
      obtain ⟨hstretches, hgeometry⟩ := geometry_broadcastView he
      rw [hgeometry]
      exact hstretches.allFit_walkNumbers h.inside.length_strides hwalk

/-- Of the numbers met in reading such a source, those of the walks may leave the words: of its own
walk, and of what is attached to it. -/
theorem Sound.incomingInWords_of_shape (hdata : data.Sound) (hsource : r.source = d.shape)
    (hsize : data.itemSize = d.itemSize ∨ data.itemSize = 1) (hshape : data.shape = r.shape)
    (hfit : r.shape.stridesFit data.itemSize) :
    d.incomingInWords r data = (do
      ensure (data.metadata.CopiesInWords ∧ AllFit data.geometry.walkNumbers)
      d.incoming r data) := by
  have hread : data.view.checkRead = .ok () :=
    check_eq_ok.mpr (Frame.Sound.view hdata).fault_eq_none
  have hregion : d.checkRegion r = .ok () := Frame.checkRegion_eq_ok.mpr hsource
  have hgeometry : data.view.geometry = data.geometry := Frame.geometry_view _
  have hstrides : data.view.HasStrides := fun _ => hshape ▸ hfit
  have hwalk : data.view.checkWalk = ensure (AllFit data.geometry.walkNumbers) := by
    rw [Frame.checkWalk_eq, hgeometry]
    exact ensure_congr (and_iff_right hstrides)
  simp only [incomingInWords, incoming, hregion, ok_bind,
    if_neg (show ¬ (data.itemSize ≠ d.itemSize ∧ data.itemSize ≠ 1) by omega),
    spreadInWords_of_shape hshape, ensure_congr (and_iff_right hfit), spread_of_shape hshape,
    bind_assoc, hwalk]
  exact ensure_and _

/-- **A write of a region of a packed dataset.** It goes through over exact integers, and in words if
the source and what is attached to it can be walked there. -/
theorem Fresh.setSlice_of_shape (hd : d.Fresh k s n) (hroom : s.room n < half) (hr : r.Valid)
    (hsource : r.source = s) (hsteps : r.StepsWithin s) (hdata : data.Sound)
    (hsize : data.itemSize = n ∨ data.itemSize = 1) (hshape : data.shape = r.shape) :
    ∃ e, d.setSlice r data = .ok e ∧ d.setSliceInWords r data =
        (do ensure (data.metadata.CopiesInWords ∧ AllFit data.geometry.walkNumbers); .ok e) ∧
      e.IsWrite d r fun p => fitItem k n (data.item p) := by
  obtain rfl := hd.kind_eq
  obtain rfl := hd.itemSize_eq
  have hregion : r.source = d.shape := hsource.trans hd.shape_eq.symm
  -- The shape of the region takes up no more room than that of the dataset.
  have hsmall (m : Nat) (hm : m ≤ d.itemSize) : r.shape.room m < half :=
    (room_le_room (hsource ▸ hr.shape_le) hm).trans_lt hroom
  have hfit : r.shape.stridesFit data.itemSize :=
    stridesFit_of_room hdata.itemSize_pos (hsmall _ (by have := hd.itemSize_pos; omega))
  have hchecked : r.shape.sizeChecked.isSome :=
    sizeChecked_of_room hd.itemSize_pos (hsmall _ le_rfl)
  have hplace := ensure_of (And.intro (hd.hasStrides hroom) (And.intro hchecked
    (hd.allFit_strides_slice (forall₂_le_self s) hroom hr hsteps)))
  have hwalk := hd.allFit_walkNumbers_slice hr hsource fun _ => hsteps
  have hinside := hd.sound.inside.slice hr hregion
  obtain ⟨hreach, -⟩ := hinside.reachInWords_eq hchecked
  have hincoming := hdata.incoming_of_shape hregion hsize hshape
  have hitem (p : Position) : (fitItem d.kind d.itemSize (data.item p)).length = d.itemSize := by
    have := hd.itemSize_pos
    simp only [fitItem, length_append, length_map, length_item, length_replicate]
    omega
  refine ⟨_, ?_, ?_, isWrite_putItems hd.sound hd.separate hr hregion hitem⟩
  · simp only [setSlice, writeSlice, hincoming, hinside.reach_eq,
      openingWrite_none, ite_self]
    rfl
  · simp only [setSliceInWords, writeSliceInWords,
      hdata.incomingInWords_of_shape hregion hsize hshape hfit, hincoming,
      Frame.Sound.regionInWords_eq hd.sound hr hregion, hplace, hreach hwalk, hinside.reach_eq,
      openingWrite_none, ite_self, bind_assoc, pure_bind]
    rfl

end Dataset

/-! ## Many writes -/

/-- The position is one of the region's. -/
def Region.Covers (r : Region) (q : Position) : Prop :=
  ∃ p, r.shape.contains p = true ∧ r.sourcePosition p = q

namespace Dataset

variable {d data e e' : Block} {k : Kind} {s t : Shape} {n : Nat} {r : Region}
  {item : Position → List Scalar} {covered covered' : Position → Prop}

/-- `e` is `d` with the wanted items at the covered positions. -/
structure Fills (e d : Block) (item : Position → List Scalar) (covered : Position → Prop) :
    Prop where
  frame_eq : e.toFrame = d.toFrame
  size_eq : e.buffer.size = d.buffer.size
  metadata_eq : e.metadata = d.metadata
  item_of : ∀ q, d.shape.contains q = true → covered q → e.item q = item q
  item_of_not : ∀ q, d.shape.contains q = true → ¬ covered q → e.item q = d.item q

theorem IsWrite.fills {written : Position → List Scalar} (h : e.IsWrite d r written)
    (hd : d.Sound) (hmeta : d.metadata = .empty) (hr : r.Valid) (hsource : r.source = d.shape)
    (hitem : ∀ p, r.shape.contains p → written p = item (r.sourcePosition p)) :
    e.Fills d item r.Covers where
  frame_eq := h.frame_eq
  size_eq := h.size_eq
  metadata_eq := by rw [h.metadata_eq, hmeta, Metadata.onDirty_empty]
  item_of := by
    rintro - - ⟨p, hp, rfl⟩
    rw [h.item_sourcePosition hd hr hsource hp, hitem p hp]
  item_of_not q hq hnot := h.item_of_ne hq fun p hp heq => hnot ⟨p, hp, heq⟩

namespace Fills

theorem refl (d : Block) (item : Position → List Scalar) : d.Fills d item fun _ => False where
  frame_eq := rfl
  size_eq := rfl
  metadata_eq := rfl
  item_of _ _ := False.elim
  item_of_not _ _ _ := rfl

theorem congr {item' : Position → List Scalar} (h : e.Fills d item covered)
    (hcovered : ∀ q, d.shape.contains q → (covered q ↔ covered' q))
    (hitem : ∀ q, d.shape.contains q → covered' q → item q = item' q) :
    e.Fills d item' covered' where
  frame_eq := h.frame_eq
  size_eq := h.size_eq
  metadata_eq := h.metadata_eq
  item_of q hq hc := (h.item_of q hq ((hcovered q hq).mpr hc)).trans (hitem q hq hc)
  item_of_not q hq hc := h.item_of_not q hq (mt (hcovered q hq).mp hc)

theorem trans (h' : e'.Fills e item covered') (h : e.Fills d item covered) :
    e'.Fills d item fun q => covered q ∨ covered' q where
  frame_eq := h'.frame_eq.trans h.frame_eq
  size_eq := h'.size_eq.trans h.size_eq
  metadata_eq := h'.metadata_eq.trans h.metadata_eq
  item_of q hq hcovered := by
    have hq' : e.shape.contains q := h.frame_eq ▸ hq
    by_cases hlater : covered' q
    · exact h'.item_of q hq' hlater
    · rw [h'.item_of_not q hq' hlater, h.item_of q hq (hcovered.resolve_right hlater)]
  item_of_not q hq hnot := by
    obtain ⟨hnow, hlater⟩ := not_or.mp hnot
    rw [h'.item_of_not q (h.frame_eq ▸ hq) hlater, h.item_of_not q hq hnow]

theorem fresh (h : e.Fills d item covered) (hd : d.Fresh k s n) : e.Fresh k s n where
  frame_eq := by
    rw [h.frame_eq]
    exact hd.frame_eq
  sound := by
    rw [Sound, h.frame_eq, h.size_eq]
    exact hd.sound
  metadata_eq := h.metadata_eq.trans hd.metadata_eq
  few := hd.few

end Fills

/-- **One item written to all positions of a region of a packed dataset.** -/
theorem Fresh.setSlice_of_item (hd : d.Fresh k s n) (hle : Forall₂ (· ≤ ·) s t)
    (hroom : t.room n < half) (hsame : 0 < s.size → t = s) (hr : r.Valid)
    (hsource : r.source = s) (hsteps : r.StepsWithin t) (hdata : data.Sound)
    (hmeta : data.metadata = .empty) (hdense : data.layout = .dense) (hsize : data.itemSize = n)
    (hshape : data.shape = []) (hfew : n ≤ maxElements) :
    ∃ e, d.setSliceInWords r data = .ok e ∧
      e.Fills d (fun _ => fitItem k n (data.item [])) r.Covers := by
  obtain rfl := hd.kind_eq
  obtain rfl := hd.itemSize_eq
  have hregion : r.source = d.shape := hsource.trans hd.shape_eq.symm
  have hown : s.room d.itemSize < half := (room_le_room hle le_rfl).trans_lt hroom
  have hsmall : r.shape.room data.itemSize < half :=
    (room_le_room (hsource ▸ hr.shape_le) hsize.le).trans_lt hown
  have hm : elementCount data.shape data.itemSize = .ok d.itemSize := by
    rw [hshape]
    exact elementCount_eq_ok_iff.mpr ⟨1, rfl, by omega, by omega⟩
  obtain ⟨m, hn⟩ : ∃ m, elementCount r.shape data.itemSize = .ok m := by
    obtain ⟨c, hc⟩ := Option.isSome_iff_exists.mp (sizeChecked_of_room hdata.itemSize_pos hsmall)
    have hle : r.size ≤ r.source.size := hr.size_le
    refine ⟨_, elementCount_eq_ok_iff.mpr ⟨c, hc, ?_, rfl⟩⟩
    rw [← size_of_sizeChecked hc, hsize]
    rw [hsource] at hle
    exact (Nat.mul_le_mul_right _ hle).trans hd.few
  have hspread : data.shape.Spreads r.shape := .inr (.inr (by rw [hshape]; exact broadcast_nil _))
  have hexact := (hd.sound.writeSlice_eq_ok_iff hr hregion hdata hmeta).mpr
    ⟨.inl hsize, (hdata.exists_spread_iff hmeta hm hn).mpr hspread, rfl⟩
  have hwords : d.WritesInWords r data := {
    source := hdata.bringsInWords_of_dense hdense hsmall
    own := hd.hasStrides hown
    strides := hd.allFit_strides_slice hle hroom hr hsteps
    walk := hd.allFit_walkNumbers_slice hr hsource fun hpos => hsame hpos ▸ hsteps }
  obtain ⟨hwrite, -⟩ :=
    (hd.sound.writeSliceInWords_iff hr hregion hdata hmeta hm hn).mpr ⟨hexact, hwords⟩
  obtain ⟨-, -, -, hcontains, hisWrite⟩ :=
    hd.sound.writeSlice_eq_ok hd.separate hr hdata hmeta hexact
  refine ⟨d.afterRegion r data, ?_, hisWrite.fills hd.sound hd.metadata_eq hr hregion fun p hp => ?_⟩
  · rw [setSliceInWords, hwrite]
    rfl
  · have hnil := hcontains p hp
    rw [hshape, contains_nil] at hnil
    rw [sourceItem, hshape, hnil]
/-- **What a run of writes comes to.** If each of them puts wanted items at the positions that it
covers, and needs nothing but a condition of its own for it, the run needs all conditions and puts
wanted items at all covered positions. -/
theorem Fresh.foldlM_fills {α : Type} {xs : List α} {f : Block → α → Except Error Block}
    {P : α → Prop} [DecidablePred P] {covers : α → Position → Prop} (hd : d.Fresh k s n)
    (hstep : ∀ x ∈ xs, ∀ d : Block, d.Fresh k s n →
      ∃ e, f d x = (do ensure (P x); .ok e) ∧ e.Fills d item (covers x)) :
    ∃ e, xs.foldlM f d = (do ensure (∀ x ∈ xs, P x); .ok e) ∧
      e.Fills d item fun q => ∃ x ∈ xs, covers x q := by
  induction xs generalizing d with
  | nil =>
    refine ⟨d, ?_, ?_⟩
    · rfl
    · simpa using Fills.refl d item
  | cons x xs ih =>
    obtain ⟨e, he, hfills⟩ := hstep x mem_cons_self d hd
    obtain ⟨e', he', hfills'⟩ := ih (hfills.fresh hd) fun x hx => hstep x (mem_cons_of_mem _ hx)
    refine ⟨e', ?_, ?_⟩
    · rw [foldlM_cons, he]
      simp only [bind_assoc, ok_bind, he', ensure_and, forall_mem_cons]
    · simpa only [exists_mem_cons_iff] using hfills'.trans hfills

end Dataset

end Hyperslab
