import Hyperslab.Proofs.OperandsInWords
import Hyperslab.Saver.Memory

/-!
# Storage that grows

What storage in memory holds, seen as an item for every position of a shape. A write to a larger
region first makes the storage grow, with the fill value in new items, and then sets the items of
the region.
-/
namespace Hyperslab

open Dataset List Region Shape Word

/-! ## The leading part of a shape -/

namespace Region

variable {s t : Shape}

variable (hle : Forall₂ (· ≤ ·) t s)
include hle

theorem ofSlices_leading (hsmall : ∀ m ∈ s, m < half) :
    ofSlices s (t.map fun n => Slice.range none (some (signed n)) 1) =
      .ok ⟨s, none, t.map Span.full, false, .none⟩ := by
  refine ofSlices_of_resolve (by rw [length_map, hle.length_eq]) ?_
  induction hle with
  | nil => exact .nil
  | @cons n m t s hnm _ ih =>
    have hleading := Slice.resolve_leading hnm (hsmall m mem_cons_self)
    exact .cons hleading (ih fun d hd => hsmall d (mem_cons_of_mem _ hd))

theorem lt_half_of_le (hsmall : ∀ d ∈ s, d < half) : ∀ d ∈ t, d < half := by
  induction hle with
  | nil => exact hsmall
  | cons hnm _ ih =>
    simp only [mem_cons, forall_eq_or_imp] at hsmall ⊢
    exact ⟨hnm.trans_lt hsmall.1, ih hsmall.2⟩

theorem sourcePosition_leading (hsmall : ∀ m ∈ s, m < half) {p : Position} (hp : t.contains p) :
    sourcePosition ⟨s, none, t.map Span.full, false, .none⟩ p = p := by
  have hmodulus : half ≤ modulus := by decide
  exact sourcePosition_full (fun d hd => ((lt_half_of_le hle hsmall d hd).trans_le hmodulus).le) hp

end Region

/-! ## Plain datasets -/

/-- A dataset at rest: sound, with nothing attached, and made of scalars of its kind. -/
structure Dataset.Plain (d : Block) (k : Kind) : Prop where
  sound : d.Sound
  kind_eq : d.kind = k
  metadata_eq : d.metadata = .empty
  holds : ∀ p, d.shape.contains p = true → ∀ v ∈ d.item p, k.Holds v

namespace Dataset

variable {s : Shape} {n : Nat} {p : Position}

variable {d data e : Block} {k : Kind} {r : Region}

theorem toFrame_afterWrite (f : Elements → Elements) (stop : Option Fault) (d : Block) :
    (d.afterWrite f stop).dataset.toFrame = d.toFrame := by
  cases stop <;> rfl

theorem toFrame_setSlice (h : d.setSlice r data = .ok e) : e.toFrame = d.toFrame := by
  simp only [setSlice, writeSlice, Written.finish, bind_eq_ok, pure_eq_ok] at h
  obtain ⟨w, ⟨items, -, rfl⟩, -, -, rfl⟩ := h
  exact toFrame_afterWrite ..

theorem toFrame_writeSliceInWords {w : Written Buffer} (h : d.writeSliceInWords r data = .ok w) :
    w.dataset.toFrame = d.toFrame := by
  simp only [writeSliceInWords, bind_eq_ok, pure_eq_ok] at h
  obtain ⟨-, -, -, -, rfl⟩ := h
  exact toFrame_afterWrite ..

theorem toFrame_setSliceInWords (h : d.setSliceInWords r data = .ok e) :
    e.toFrame = d.toFrame := by
  simp only [setSliceInWords, Written.finish, bind_eq_ok, pure_eq_ok] at h
  obtain ⟨w, hw, -, -, rfl⟩ := h
  exact toFrame_writeSliceInWords hw

theorem toFrame_fill {v : Scalar} (h : d.fill v = .ok e) : e.toFrame = d.toFrame := by
  simp only [fill, Written.finish, bind_eq_ok, pure_eq_ok] at h
  obtain ⟨-, -, rfl⟩ := h
  exact toFrame_afterWrite ..

theorem plain_ofList {l : List Scalar} (hn : 0 < n)
    (hlength : l.length = s.size * n) (hlist : k.bytes * (s.size * n) < half)
    (hl : ∀ v ∈ l, k.Holds v) : (ofList k s n l).Plain k where
  sound := sound_ofList hn hlength hlist
  kind_eq := rfl
  metadata_eq := rfl
  holds p _ v hv := by
    obtain ⟨j, -, rfl⟩ := mem_map.mp hv
    change k.Holds (l.toArray.getD _ k.zero)
    rw [Array.getD_eq_getD_getElem?]
    cases h : l.toArray[(ofList k s n l).geometry.indexOf p + j]? with
    | none => exact k.holds_zero
    | some v => exact hl v (by simpa using Array.mem_of_getElem? h)

/-- The item that plain data brings to a position of a region: data of the region's size in
row-major order, other data repeated; zeros follow a lone element. -/
def brought (k : Kind) (n : Nat) (data : Block) (s : Shape) (p : Position) : List Scalar :=
  let item := data.item (data.shape.spreadPosition s p)
  item ++ List.replicate (n - item.length) k.zero

theorem Plain.sourceItem_eq_brought (h : data.Plain k)
    (hp : data.shape.contains (data.shape.spreadPosition s p)) :
    sourceItem k n data s p = brought k n data s p := by
  have hcast : (data.item (data.shape.spreadPosition s p)).map k.cast =
      data.item (data.shape.spreadPosition s p) :=
    (map_congr_left fun v hv => Kind.cast_of_holds (h.holds _ hp v hv)).trans (map_id _)
  rw [sourceItem, fitItem, hcast, brought]

/-- Data of the shape and item size of what it is written to brings its items as they are. -/
theorem brought_self (hsize : data.itemSize = n)
    (hp : data.shape.contains p) : brought k n data data.shape p = data.item p := by
  simp [brought, spreadPosition, unravel_ravel hp, hsize]

theorem Plain.holds_brought (h : data.Plain k)
    (hp : data.shape.contains (data.shape.spreadPosition s p)) :
    ∀ v ∈ brought k n data s p, k.Holds v := by
  intro v hv
  rcases mem_append.mp hv with hv | hv
  · exact h.holds _ hp v hv
  · rw [eq_of_mem_replicate hv]
    exact k.holds_zero

theorem zeros_eq_ok (h : zeros k n s = .ok e) :
    e.toFrame = Frame.packed k "" s n ∧ e.Sound ∧ e.metadata = .empty ∧ e.geometry.Separate ∧
      0 < n ∧ ∃ m, reserve k s n = .ok m := by
  simp only [zeros, bind_eq_ok, checkItemSize_eq_ok] at h
  obtain ⟨-, hn, h⟩ := h
  have hsound := sound_fullOf hn h
  simp only [fullOf, bind_eq_ok, pure_eq_ok] at h
  obtain ⟨m, hm, rfl⟩ := h
  obtain ⟨rfl, hmax⟩ := elementCount_eq_ok (reserve_eq_ok hm)
  have hsep : (Frame.packed k "" s n).geometry.Separate :=
    Frame.separate_packed hn (bytes_mul_lt hmax)
  exact ⟨rfl, hsound, rfl, hsep, hn, _, hm⟩

theorem fill_zeros_eq_ok {v : Scalar} (hv : k.Holds v)
    (hd : zeros k n s = .ok d) (he : d.fill v = .ok e) :
    e.Plain k ∧ e.itemSize = n ∧ e.geometry.Separate ∧ e.shape = s ∧
      ∀ q, s.contains q → e.item q = replicate n v := by
  obtain ⟨hdframe, hdsound, hdmeta, hdsep, -⟩ := zeros_eq_ok hd
  obtain ⟨heframe, hesound, hemeta, heitems⟩ := hdsound.fill_items hdsep he
  have hframe : e.toFrame = Frame.packed k "" s n := heframe.trans hdframe
  have hshape : e.shape = s := congrArg Frame.shape hframe
  have hdshape : d.shape = s := congrArg Frame.shape hdframe
  have hdsize : d.itemSize = n := congrArg Frame.itemSize hdframe
  have hsep : e.geometry.Separate := by rw [heframe]; exact hdsep
  rw [hdshape, hdsize] at heitems
  refine ⟨⟨hesound, congrArg Frame.kind hframe, ?_, fun p hp v' hv' => ?_⟩,
    congrArg Frame.itemSize hframe, hsep, hshape, heitems⟩
  · rw [hemeta, hdmeta, Metadata.onDirty_empty]
  · rw [heitems p (hshape ▸ hp)] at hv'
    rwa [eq_of_mem_replicate hv']

theorem setSlice_zeros_eq_ok (hdata : data.Plain k) (hd : zeros k n s = .ok d)
    (he : d.setSlice (Region.full s) data = .ok e) :
    e.Plain k ∧ e.itemSize = n ∧ e.shape = s ∧ ∀ p, s.contains p →
      data.shape.contains (data.shape.spreadPosition s p) ∧ e.item p = brought k n data s p := by
  obtain ⟨hframe, hsound, hmeta, hsep, -⟩ := zeros_eq_ok hd
  have hshape : d.shape = s := congrArg Frame.shape hframe
  obtain ⟨-, -, hcontains, hwrite⟩ := hsound.setSlice_eq_ok hsep (valid_full s) hdata.sound
    hdata.metadata_eq he
  have heframe : e.toFrame = Frame.packed k "" s n := hwrite.frame_eq.trans hframe
  rw [shape_full] at hcontains
  have hitem {p : Position} (hp : s.contains p) : e.item p = brought k n data s p := by
    have hsmall : ∀ m ∈ s, m ≤ modulus := by
      rw [← hshape] at hp ⊢
      exact fun m hm => hsound.inside.small (size_pos_of_contains hp) hm
    have hput := hwrite.item_sourcePosition hsound (valid_full s) hshape.symm (by rwa [shape_full])
    rw [sourcePosition_full hsmall hp, shape_full] at hput
    rw [hput, hframe]
    exact hdata.sourceItem_eq_brought (hcontains p hp)
  refine ⟨⟨hwrite.sound hsound, congrArg Frame.kind heframe, ?_, fun p hp v hv => ?_⟩,
    congrArg Frame.itemSize heframe, congrArg Frame.shape heframe,
    fun p hp => ⟨hcontains p hp, hitem hp⟩⟩
  · rw [hwrite.metadata_eq, hmeta, Metadata.onDirty_empty]
  · have hp : s.contains p := by rwa [heframe] at hp
    rw [hitem hp] at hv
    exact hdata.holds_brought (hcontains p hp) v hv

/-- A write of plain data to plain data, wherever the items of the latter lie apart. -/
theorem Plain.of_isWrite {item : Position → List Scalar} (hd : d.Plain k) (hr : r.Valid)
    (hsource : r.source = d.shape) (h : e.IsWrite d r item)
    (hitem : ∀ p, r.shape.contains p → ∀ v ∈ item p, k.Holds v) : e.Plain k where
  sound := h.sound hd.sound
  kind_eq := by rw [h.frame_eq]; exact hd.kind_eq
  metadata_eq := by rw [h.metadata_eq, hd.metadata_eq, Metadata.onDirty_empty]
  holds q hq := by
    have hq : d.shape.contains q := by rwa [h.frame_eq] at hq
    by_cases hex : ∃ p, r.shape.contains p ∧ r.sourcePosition p = q
    · obtain ⟨p, hp, rfl⟩ := hex
      rw [h.item_sourcePosition hd.sound hr hsource hp]
      exact hitem p hp
    · rw [h.item_of_ne hq fun p hp hpq => hex ⟨p, hp, hpq⟩]
      exact hd.holds q hq

/-- Plain data that has the items of `d`, each in a place of its own. -/
structure KeepsApart (e d : Block) (k : Kind) : Prop where
  plain : e.Plain k
  separate : e.geometry.Separate
  shape_eq : e.shape = d.shape
  itemSize_eq : e.itemSize = d.itemSize
  item_eq : ∀ p, d.shape.contains p = true → e.item p = d.item p

theorem Plain.keepsApart (h : d.Plain k) (hsep : d.geometry.Separate) : d.KeepsApart d k :=
  ⟨h, hsep, rfl, rfl, fun _ _ => rfl⟩

theorem Plain.keepsApart_copy (h : d.Plain k) : d.copy.KeepsApart d k := by
  have hcopy : d.copy = d.dense := by rw [copy, h.metadata_eq, Metadata.copy_empty, dense]
  have hitem {p : Position} (hp : d.shape.contains p) : d.copy.item p = d.item p := by
    rw [hcopy, dense_eq]
    exact item_ofItems h.sound.itemSize_pos (fun p _ => length_item d p) h.sound.listable hp
  refine ⟨⟨h.sound.dense _, h.kind_eq, ?_, fun p hp v hv => ?_⟩, ?_, rfl, rfl, fun p hp => hitem hp⟩
  · rw [hcopy]
    rfl
  · rw [hitem hp] at hv
    exact h.holds p hp v hv
  · exact Frame.separate_packed h.sound.itemSize_pos h.sound.listable

end Dataset

/-! ## Contents -/

/-- An item for every position of a shape, and the value that new items are made of. -/
structure Contents where
  shape : Shape
  fill : Scalar
  item : Position → List Scalar

namespace Contents

/-- The contents in another shape: old items stay where they are, new ones have `n` times the fill
value. -/
def grown (c : Contents) (n : Nat) (s : Shape) : Contents where
  shape := s
  fill := c.fill
  item q := if c.shape.contains q then c.item q else List.replicate n c.fill

/-- The contents with `item p` where the region's position `p` lies. -/
def put (c : Contents) (r : Region) (item : Position → List Scalar) : Contents where
  shape := c.shape
  fill := c.fill
  item q :=
    match r.shape.positions.find? fun p => r.coords p == q.map Int.ofNat with
    | some p => item p
    | none => c.item q

/-- A write to a region: the shape becomes the region's source, and then the items are put. -/
def write (c : Contents) (n : Nat) (r : Region) (item : Position → List Scalar) : Contents :=
  (c.grown n r.source).put r item

variable {c : Contents} {r : Region} {item : Position → List Scalar}

private theorem find?_congr {α : Type} {l : List α} {f g : α → Bool} (h : ∀ a ∈ l, f a = g a) :
    l.find? f = l.find? g := by
  induction l with
  | nil => rfl
  | cons a l ih =>
    rw [find?_cons, find?_cons, h a mem_cons_self, ih fun b hb => h b (mem_cons_of_mem _ hb)]

/-- Coordinates are those of source positions, as long as these are machine words. -/
theorem item_put (hr : r.Valid) (hsmall : ∀ m ∈ r.source, m ≤ modulus) (q : Position) :
    (c.put r item).item q =
      (r.shape.positions.find? fun p => r.sourcePosition p == q).elim (c.item q) item := by
  have hfind : (r.shape.positions.find? fun p => r.coords p == q.map Int.ofNat) =
      r.shape.positions.find? fun p => r.sourcePosition p == q := by
    refine find?_congr fun p hp => ?_
    have hp := mem_positions.mp hp
    rw [← hr.cast_sourcePosition hsmall hp, Bool.eq_iff_iff, beq_iff_eq, beq_iff_eq]
    exact (map_injective_iff.mpr fun _ _ h => Int.ofNat.inj h).eq_iff
  simp only [put, hfind]
  cases r.shape.positions.find? fun p => r.sourcePosition p == q <;> rfl

end Contents

/-! ## Storage in memory -/

namespace Memory

/-- The storage holds the contents in items of `n` scalars of kind `k`, which lie apart. -/
structure Holds (m : Memory) (k : Kind) (n : Nat) (c : Contents) : Prop where
  plain : m.stored.Plain k
  itemSize_eq : m.stored.itemSize = n
  separate : m.stored.geometry.Separate
  shape_eq : m.stored.shape = c.shape
  item_eq : ∀ q, c.shape.contains q = true → m.stored.item q = c.item q
  fill_eq : m.fill = c.fill
  fill_holds : k.Holds c.fill
  isWriteable : m.isWriteable = true

variable {m : Memory} {k : Kind} {n : Nat} {c : Contents} {s : Shape} {r : Region}

theorem Holds.le_modulus (h : m.Holds k n c) (hs : 0 < c.shape.size) :
    ∀ d ∈ c.shape, d ≤ modulus := by
  rw [← h.shape_eq] at hs ⊢
  intro d hd
  exact h.plain.sound.inside.small hs hd

theorem lt_half_of_zeros {e : Block} (hs : 0 < s.size) (h : zeros k n s = .ok e)
    {d : Nat} (hd : d ∈ s) : d < half := by
  obtain ⟨-, -, -, -, hn, l, hl⟩ := zeros_eq_ok h
  obtain ⟨rfl, hmax⟩ := elementCount_eq_ok (reserve_eq_ok hl)
  have hle := le_size_of_mem hs hd
  have hmul : s.size ≤ s.size * n := Nat.le_mul_of_pos_right _ hn
  have hhalf : maxElements < half := by decide
  omega

/-- Grown storage keeps the old items where they were and has the fill value in all others. -/
theorem Holds.grown {e : Block} (h : m.Holds k n c) (hs : 0 < s.size)
    (hle : Forall₂ (· ≤ ·) c.shape s) (he : m.grown s = .ok e) :
    Holds { m with stored := e } k n (c.grown n s) := by
  simp only [Memory.grown, bind_eq_ok, pure_eq_ok, h.itemSize_eq, h.plain.kind_eq, h.shape_eq,
    h.fill_eq] at he
  obtain ⟨z, hz, -, -, f, hf, old, hold, e', he', rfl⟩ := he
  obtain ⟨hfplain, hfsize, hfsep, hfshape, hfitems⟩ := fill_zeros_eq_ok h.fill_holds hz hf
  -- The old items are written to the leading part of the new shape.
  have hsmall : ∀ d ∈ s, d < half := fun d hd => lt_half_of_zeros hs hz hd
  have hvalid : old.Valid := valid_ofSlices hold
  rw [ofSlices_leading hle hsmall, Except.ok.injEq] at hold
  have hsource : old.source = f.shape := by rw [← hold, hfshape]
  have holdshape : old.shape = c.shape := by rw [← hold]; exact shape_full c.shape
  have hposition {p : Position} (hp : c.shape.contains p) : old.sourcePosition p = p := by
    rw [← hold, sourcePosition_leading hle hsmall hp]
  obtain ⟨-, -, hcontains, hwrite⟩ := hfplain.sound.setSlice_eq_ok hfsep hvalid h.plain.sound
    h.plain.metadata_eq (hfplain.sound.setSlice_of_inWords hvalid he')
  have hitem {p : Position} (hp : c.shape.contains p) :
      sourceItem f.kind f.itemSize m.stored old.shape p = c.item p := by
    rw [hfplain.kind_eq, hfsize, h.plain.sourceItem_eq_brought (hcontains p (holdshape ▸ hp)),
      holdshape, ← h.shape_eq, brought_self h.itemSize_eq (h.shape_eq ▸ hp), h.item_eq p hp]
  have hplain : e'.Plain k := hfplain.of_isWrite hvalid hsource hwrite fun p hp v hv => by
    have hp : c.shape.contains p := holdshape ▸ hp
    rw [hitem hp, ← h.item_eq p hp] at hv
    exact h.plain.holds p (h.shape_eq ▸ hp) v hv
  have hframe := hwrite.frame_eq
  have hsep : e'.geometry.Separate := by rw [hframe]; exact hfsep
  refine ⟨⟨⟨hplain.sound.inside, hplain.sound.listable⟩, hplain.kind_eq, hplain.metadata_eq,
    hplain.holds⟩, (congrArg Frame.itemSize hframe).trans hfsize, hsep,
    (congrArg Frame.shape hframe).trans hfshape, fun q hq => ?_, h.fill_eq, h.fill_holds,
    h.isWriteable⟩
  change e'.item q = if c.shape.contains q then c.item q else replicate n c.fill
  by_cases hin : c.shape.contains q
  · rw [if_pos hin, ← hitem hin]
    have := hwrite.item_sourcePosition hfplain.sound hvalid hsource (holdshape ▸ hin)
    rwa [hposition hin] at this
  · rw [if_neg hin, ← hfitems q hq]
    refine hwrite.item_of_ne (hfshape ▸ hq) fun p hp hpq => hin ?_
    rw [holdshape] at hp
    rwa [← hpq, hposition hp]

/-- Storage prepared for a region has the region's source as its shape. -/
theorem Holds.prepared {m' : Memory} (h : m.Holds k n c) (hs : 0 < size r.source)
    (hle : Forall₂ (· ≤ ·) c.shape r.source) (hm : m.prepared r = .ok m') :
    m'.Holds k n (c.grown n r.source) := by
  rw [Memory.prepared] at hm
  split at hm
  · next hsource =>
    cases hm
    have hshape : r.source = c.shape := hsource.trans h.shape_eq
    refine { h with shape_eq := hsource.symm, item_eq := fun q hq => ?_ }
    have hq : c.shape.contains q := by rwa [← hshape]
    exact (h.item_eq q hq).trans (if_pos hq).symm
  · split at hm
    · simp only [bind_eq_ok, pure_eq_ok] at hm
      obtain ⟨e, he, rfl⟩ := hm
      exact h.grown hs hle he
    · cases hm

/-- A write that comes to its end puts the items where they belong, where they can be read. -/
theorem Holds.put {data : Block} {w : Written Buffer} (h : m.Holds k n c) (hr : r.Valid)
    (hpos : 0 < r.size) (hsource : r.source = c.shape) (hdata : data.Plain k)
    (hn : data.itemSize = n) (hshape : data.shape = r.shape)
    (hw : m.stored.writeSliceInWords r data = .ok w) (hstop : w.stop = none) :
    Holds { m with stored := w.dataset } k n (c.put r data.item) ∧ w.dataset.LoadsInWords r := by
  have hsource' : r.source = m.stored.shape := hsource.trans h.shape_eq.symm
  obtain ⟨hexact, hloads⟩ := h.plain.sound.writeSlice_of_inWords hr hw hstop
  obtain ⟨-, -, -, hcontains, hwrite⟩ := h.plain.sound.writeSlice_eq_ok h.separate hr hdata.sound
    hdata.metadata_eq hexact
  have hitem {p : Position} (hp : r.shape.contains p) :
      sourceItem m.stored.kind m.stored.itemSize data r.shape p = data.item p := by
    rw [h.plain.kind_eq, h.itemSize_eq, hdata.sourceItem_eq_brought (hcontains p hp), ← hshape,
      brought_self hn (hshape ▸ hp)]
  have hframe := hwrite.frame_eq
  have hsep : w.dataset.geometry.Separate := by rw [hframe]; exact h.separate
  refine ⟨⟨?_, (congrArg Frame.itemSize hframe).trans h.itemSize_eq, hsep,
    (congrArg Frame.shape hframe).trans h.shape_eq, fun q hq => ?_, h.fill_eq, h.fill_holds,
    h.isWriteable⟩, by rw [hframe]; exact hloads⟩
  · refine h.plain.of_isWrite hr hsource' hwrite fun p hp v hv => ?_
    rw [hitem hp] at hv
    exact hdata.holds p (hshape ▸ hp) v hv
  · have hsmall : ∀ d ∈ r.source, d ≤ modulus :=
      hsource ▸ h.le_modulus (hsource ▸ hpos.trans_le hr.size_le)
    rw [Contents.item_put hr hsmall, hwrite.item_eq q (h.shape_eq ▸ hq)]
    cases hfind : r.shape.positions.find? fun p => r.sourcePosition p == q with
    | none => exact h.item_eq q hq
    | some p => exact hitem (mem_positions.mp (mem_of_find?_eq_some hfind))

/-- A write of data that fits what the storage is prepared to be fails and changes nothing, or it
stores the items, or it is stopped at a number that is no word. -/
theorem write_cases {data : Block} (hr : r.Valid) (hdata : data.Sound)
    (hshape : data.shape = r.shape) (hfits : ∀ p, m.prepared r = .ok p → p.stored.Sound ∧
      p.stored.shape = r.source ∧ (data.itemSize = p.stored.itemSize ∨ data.itemSize = 1)) :
    (∃ e, Memory.write r data m = (.error e, m)) ∨
      (∃ p w, m.prepared r = .ok p ∧ p.stored.writeSliceInWords r data = .ok w ∧ w.stop = none ∧
        Memory.write r data m = (.ok (), { p with stored := w.dataset })) ∨
      ∃ f m', Memory.write r data m = (.error (.stopped f), m') := by
  cases hp : m.prepared r with
  | error e => exact .inl ⟨refusal e, by rw [Memory.write, hp]⟩
  | ok p =>
    obtain ⟨hsound, hsource, hitem⟩ := hfits p hp
    rcases hsound.writeSliceInWords_of_shape hr hsource.symm hdata hshape hitem with ⟨w, hw⟩ | hw
    · cases hstop : w.stop with
      | none =>
        refine .inr (.inl ⟨p, w, rfl, hw, hstop, ?_⟩)
        simp only [Memory.write, hp, hw, hstop]
        rfl
      | some f =>
        refine .inr (.inr ⟨f, { p with stored := w.dataset }, ?_⟩)
        simp only [Memory.write, hp, hw, hstop]
        rfl
    · refine .inr (.inr ⟨.overflow, p, ?_⟩)
      simp only [Memory.write, hp, hw]
      rfl

/-- A write to a region that storage may grow to fails and changes nothing, or stores the items,
which can be read there, or is stopped at a number that is no word. -/
theorem Holds.write {data : Block} (h : m.Holds k n c) (hr : r.Valid) (hpos : 0 < r.size)
    (hle : Forall₂ (· ≤ ·) c.shape r.source) (hdata : data.Plain k) (hn : data.itemSize = n)
    (hshape : data.shape = r.shape) :
    (∃ e, Memory.write r data m = (.error e, m)) ∨
      (∃ m', Memory.write r data m = (.ok (), m') ∧ m'.Holds k n (c.write n r data.item) ∧
        m'.stored.LoadsInWords r) ∨
      ∃ f m', Memory.write r data m = (.error (.stopped f), m') := by
  have hprepared {p : Memory} (hp : m.prepared r = .ok p) :=
    h.prepared (hpos.trans_le hr.size_le) hle hp
  refine (write_cases hr hdata.sound hshape fun p hp => ?_).imp_right (.imp_left ?_)
  · exact ⟨(hprepared hp).plain.sound, (hprepared hp).shape_eq,
      .inl (hn.trans (hprepared hp).itemSize_eq.symm)⟩
  · rintro ⟨p, w, hp, hw, hstop, hwrite⟩
    exact ⟨_, hwrite, (hprepared hp).put hr hpos rfl hdata hn hshape hw hstop⟩

theorem name_write (r : Region) (data : Block) (m : Memory) :
    (Memory.write r data m).2.stored.name = m.stored.name := by
  cases hm : m.prepared r with
  | error e => simp only [Memory.write, hm]
  | ok m' =>
    have hname : m'.stored.name = m.stored.name := by
      rw [Memory.prepared] at hm
      split at hm
      · cases hm
        rfl
      · split at hm
        · simp only [Memory.grown, bind_eq_ok, pure_eq_ok] at hm
          obtain ⟨-, ⟨-, -, -, -, -, -, -, -, -, -, rfl⟩, rfl⟩ := hm
          rfl
        · cases hm
    cases hw : m'.stored.writeSliceInWords r data with
    | error e => simp only [Memory.write, hm, hw, hname]
    | ok w =>
      have hkept : w.dataset.name = m'.stored.name :=
        congrArg Frame.name (toFrame_writeSliceInWords hw)
      simp only [Memory.write, hm, hw, hkept, hname]

end Memory

end Hyperslab
