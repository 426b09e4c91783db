import Hyperslab.Proofs.Views

/-!
# What a dataset holds

`item` is the item at a position. All that is read from a dataset is made of its items in row-major
order, a packed dataset holds what it was packed from, and a dataset that shows another one holds
the items that it shows.
-/
namespace Hyperslab

open Dataset List Permutation Shape Word

/-! ## Items of equal length side by side -/

theorem getElem?_flatten {α : Type} {items : List (List α)} {n : Nat}
    (h : ∀ l ∈ items, l.length = n) (i : Nat) {j : Nat} (hj : j < n) :
    items.flatten[i * n + j]? = items[i]?.bind (·[j]?) := by
  induction items generalizing i with
  | nil => simp
  | cons l items ih =>
    have hl : l.length = n := h l mem_cons_self
    cases i with
    | zero => simp [getElem?_append_left (hl ▸ hj)]
    | succ i =>
      have hindex : (i + 1) * n + j = l.length + (i * n + j) := by rw [Nat.succ_mul]; omega
      rw [flatten_cons, hindex, getElem?_append_right (Nat.le_add_right ..),
        Nat.add_sub_cancel_left, ih fun l hl => h l (mem_cons_of_mem _ hl)]
      simp

theorem map_getD_range {α : Type} (l : List α) (z : α) :
    ((List.range l.length).map fun j => l[j]?.getD z) = l := by
  refine List.ext_getElem (by simp) fun j hj hj' => ?_
  simp [getElem?_eq_getElem hj']

namespace Frame

variable {f g : Frame} {buffer : Elements} {length : Nat}

def item (f : Frame) (buffer : Elements) (p : Position) : List Scalar :=
  f.itemAt buffer (f.geometry.indexOf p)

@[simp] theorem length_item (f : Frame) (buffer : Elements) (p : Position) :
    (f.item buffer p).length = f.itemSize := by simp [item, itemAt]

theorem items_eq (f : Frame) (buffer : Elements) :
    f.items buffer = f.shape.positions.map (f.item buffer) := by
  rw [items, Geometry.indices_eq, map_map]
  rfl

theorem elements_eq (f : Frame) (buffer : Elements) :
    f.elements buffer = (f.shape.positions.map (f.item buffer)).flatten := by
  rw [elements, items_eq]

theorem item_of_shows {φ : Position → Position} (hf : f.Sound length) (hg : g.Sound length)
    (hkind : g.kind = f.kind) (hshows : g.geometry.Shows f.geometry φ) {p : Position}
    (hp : g.shape.contains p) : g.item buffer p = f.item buffer (φ p) := by
  have hitem : g.itemSize = f.itemSize := hshows.itemSize_eq
  rw [item, item, hshows.indexOf_eq hf.inside hg.inside hp, itemAt, itemAt, hitem, hkind]

theorem item_packed {k : Kind} {name : String} {s : Shape} {n : Nat} {items : List (List Scalar)}
    (hn : 0 < n) (hsize : s.size * n < half) (hitems : ∀ l ∈ items, l.length = n) {p : Position}
    (hp : s.contains p) {l : List Scalar} (hl : items[s.ravel p]? = some l) :
    (packed k name s n).item items.flatten.toArray p = l := by
  have hlength : l.length = n := hitems l (mem_of_getElem? hl)
  have hindex : (packed k name s n).geometry.indexOf p = s.ravel p * n := by
    have hlt : s.ravel p * n < half := (Nat.mul_le_mul_right n (ravel_lt hp).le).trans_lt hsize
    have hmodulus : half ≤ modulus := by decide
    simp only [Geometry.indexOf, geometry, packed, strides, Layout.strides,
      offset_strides hn hp hsize]
    rw [signed_of_lt (by decide), Int.natCast_zero, Int.zero_add, unsigned_natCast (by omega)]
  rw [item, hindex, ← map_getD_range l k.zero, hlength]
  refine map_congr_left fun j hj => ?_
  have hget : items.flatten[s.ravel p * n + j]? = l[j]? := by
    rw [getElem?_flatten hitems _ (mem_range.mp hj), hl, Option.bind_some]
  simp [packed, ← hget]

end Frame

/-! ## Nothing attached stays nothing -/

namespace Metadata

@[simp] theorem copy_empty : empty.copy = empty := rfl

@[simp] theorem onSlice_empty (r : Region) (asView : Bool) : empty.onSlice r asView = .ok empty :=
  rfl

@[simp] theorem onReshape_empty (map : Regrouping) : empty.onReshape map = .ok empty := rfl

@[simp] theorem onDirty_empty : empty.onDirty = empty := rfl

@[simp] theorem onTranspose_empty (perm : List Nat) : empty.onTranspose perm = .ok empty := rfl

end Metadata

/-! ## Blocks -/

namespace Dataset

variable {d : Block}

def item (d : Block) (p : Position) : List Scalar := d.toFrame.item d.buffer.elements p

@[simp] theorem length_item (d : Block) (p : Position) : (d.item p).length = d.itemSize :=
  Frame.length_item ..

theorem itemList_eq (d : Block) : d.itemList = d.shape.positions.map d.item := Frame.items_eq ..

/-- A packed dataset of given items, one for each position in row-major order. -/
def ofItems (k : Kind) (name : String) (s : Shape) (n : Nat) (item : Position → List Scalar) :
    Block :=
  ofField (Field.ofList k name s n (s.positions.map item).flatten) .empty

section ofItems

variable {k : Kind} {name : String} {s : Shape} {n : Nat} {item : Position → List Scalar}

theorem ofItems_congr {item' : Position → List Scalar} (h : ∀ p, s.contains p → item p = item' p) :
    ofItems k name s n item = ofItems k name s n item' := by
  rw [ofItems, ofItems, map_congr_left fun p hp => h p (mem_positions.mp hp)]

private theorem length_of_mem_items (hitem : ∀ p, s.contains p → (item p).length = n) :
    ∀ l ∈ s.positions.map item, l.length = n := by
  intro l hl
  obtain ⟨p, hp, rfl⟩ := mem_map.mp hl
  exact hitem p (mem_positions.mp hp)

theorem length_flatten_items (hitem : ∀ p, s.contains p → (item p).length = n) :
    (s.positions.map item).flatten.length = s.size * n := by
  rw [length_flatten, map_congr_left (length_of_mem_items hitem), map_const',
    sum_replicate_nat, length_map, length_positions]

section

variable (hn : 0 < n) (hitem : ∀ p, s.contains p → (item p).length = n)
include hn hitem

theorem sound_ofItems (hlist : k.bytes * (s.size * n) < half) : (ofItems k name s n item).Sound :=
  sound_ofList hn (length_flatten_items hitem) hlist

/-- Elements that are those of items in row-major order make a dataset of the items. -/
theorem ofElements_positions {m : Nat} (hm : elementCount s n = .ok m) :
    ofElements k n s (s.positions.map item).flatten = .ok (ofItems k "" s n item) := by
  have hlength : m = (s.positions.map item).flatten.length := by
    rw [length_flatten_items hitem, (elementCount_eq_ok hm).1]
  have hcheck : checkItemSize n = .ok () := checkItemSize_eq_ok.mpr hn
  rw [ofElements, hcheck, hm]
  exact if_neg (not_not.mpr hlength)

theorem item_ofItems (hlist : k.bytes * (s.size * n) < half) {p : Position} (hp : s.contains p) :
    (ofItems k name s n item).item p = item p :=
  Frame.item_packed hn (Frame.size_lt_of_listable (f := Frame.packed k name s n) hlist)
    (length_of_mem_items hitem) hp (getElem?_map_positions item hp)

end

end ofItems

theorem dense_eq (d : Block) : d.dense = ofItems d.kind d.name d.shape d.itemSize d.item := by
  have hlist : d.field.toList = (d.shape.positions.map d.item).flatten := Frame.elements_eq ..
  rw [dense, Field.dense, hlist]
  rfl

/-! ## Item by item -/

namespace Sound

variable {p : Position} {item : List Scalar}

section

variable (h : d.Sound) (hp : d.shape.contains p)
include h hp

theorem indexOf_eq_ok :
    d.toFrame.indexOf p = .ok (d.geometry.indexOf p) ∧
      d.geometry.indexOf p + d.itemSize ≤ d.buffer.size := by
  refine ⟨?_, h.inside.indexOf_add_le hp⟩
  simp [Frame.indexOf, checkPosition, hp, bind, Except.bind, pure, Except.pure]

theorem get_eq_ok : ∃ v, d.get p = .ok v := by
  obtain ⟨hindex, hle⟩ := h.indexOf_eq_ok hp
  have hpos : 0 < d.itemSize := h.inside.itemSize_pos
  have hlt : d.geometry.indexOf p < d.buffer.elements.size := by
    change _ < d.buffer.size
    omega
  refine ⟨d.buffer.elements[d.geometry.indexOf p], ?_⟩
  simp only [get, bind_eq_ok]
  exact ⟨_, hindex, by simp [elementAt, Array.getElem?_eq_getElem hlt]⟩

theorem getItem_eq_ok : d.getItem p = .ok (d.item p) := by
  obtain ⟨hindex, hle⟩ := h.indexOf_eq_ok hp
  simp only [getItem, bind_eq_ok]
  exact ⟨_, hindex, by rw [if_pos hle]; rfl⟩

end

theorem writeAt_eq {i : Nat} (h : i + item.length ≤ d.buffer.size) :
    d.writeAt i item = ⟨d.modifyElements (·.putFrom i item), none⟩ := by
  rw [writeAt, if_pos h]
  rfl

theorem writeAt_finish {i : Nat} (h : i + item.length ≤ d.buffer.size) :
    (d.writeAt i item).finish = .ok (d.modifyElements (·.putFrom i item)) := by
  rw [writeAt_eq h]
  rfl

section

variable (h : d.Sound) (hp : d.shape.contains p)
include h hp

theorem set_eq_ok (v : Scalar) :
    d.set p v = .ok (d.modifyElements (·.putFrom (d.geometry.indexOf p) [v])) := by
  obtain ⟨hindex, hle⟩ := h.indexOf_eq_ok hp
  have hpos : 0 < d.itemSize := h.inside.itemSize_pos
  simp only [set, writeElement, bind_eq_ok]
  exact ⟨_, ⟨_, hindex, rfl⟩, writeAt_finish (by simp only [length_singleton]; omega)⟩

theorem writeItem_eq_ok (hitem : item.length = d.itemSize) : d.writeItem p item =
      .ok ⟨d.modifyElements (·.putFrom (d.geometry.indexOf p) item), none⟩ := by
  obtain ⟨hindex, hle⟩ := h.indexOf_eq_ok hp
  simp only [writeItem, hitem, ne_eq, not_true_eq_false, if_false, bind_eq_ok, pure_eq_ok]
  exact ⟨_, hindex, writeAt_eq (by rwa [hitem])⟩

theorem setItem_eq_ok (hitem : item.length = d.itemSize) :
    d.setItem p item = .ok (d.modifyElements (·.putFrom (d.geometry.indexOf p) item)) := by
  rw [setItem, h.writeItem_eq_ok hp hitem]
  rfl

end

theorem fill_eq_ok (h : d.Sound) (v : Scalar) : d.fill v = .ok (d.modifyElements
    (·.fillItems d.itemSize d.geometry.indices v)) := by
  simp only [fill, writeFill, fillAt, h.inside.reach_eq]
  rfl

end Sound

/-- A region of a sound dataset with nothing attached is copied item by item. -/
theorem Sound.slice_eq {r : Region} {n : Nat} (h : d.Sound) (hr : r.Valid)
    (hsource : r.source = d.shape) (hmeta : d.metadata = .empty)
    (hreserve : reserve d.kind r.shape d.itemSize = .ok n) :
    d.slice r = .ok (ofItems d.kind (d.name ++ r.text) r.shape d.itemSize
      fun p => d.item (r.sourcePosition p)) := by
  obtain ⟨frame, hframe⟩ := d.toFrame.exists_slice hsource
  obtain ⟨-, hgeometry, hkind, hname⟩ := Frame.slice_eq_ok hframe
  have hsound : frame.Sound d.buffer.size := Frame.Sound.slice h hr hframe
  have hshape : frame.shape = r.shape := congrArg Geometry.shape hgeometry
  have hitem : frame.itemSize = d.itemSize := congrArg Geometry.itemSize hgeometry
  have hcheck : frame.fault? d.buffer.elements.size = none := hsound.fault_eq_none
  have helements : frame.elements d.buffer.elements =
      (r.shape.positions.map fun p => d.item (r.sourcePosition p)).flatten := by
    rw [Frame.elements_eq, hshape]
    refine congrArg List.flatten (List.map_congr_left fun p hp => ?_)
    have hp := mem_positions.mp hp
    exact Frame.item_of_shows h hsound hkind (Frame.slice_shows h hr hframe) (hshape ▸ hp)
  simp only [Dataset.slice, Field.slice, Field.sliceView, bind_eq_ok]
  refine ⟨_, ⟨_, ⟨frame, hframe, rfl⟩, n, hreserve, (), check_eq_ok.mpr hcheck, rfl⟩, .empty,
    by rw [hmeta, Metadata.onSlice_empty], ?_⟩
  simp only [Field.dense, Field.toList, Field.withFrame, field, helements, hkind, hname, hshape,
    hitem]
  rfl

/-! ## Views -/

/-- The dataset `e` looks at the buffer of `d`, with nothing attached; its item at `p` is the item
of `d` at `φ p`. -/
structure IsView (e d : Block) (φ : Position → Position) : Prop where
  sound : e.Sound
  kind_eq : e.kind = d.kind
  buffer_eq : e.buffer = d.buffer
  metadata_eq : e.metadata = .empty
  shows : e.geometry.Shows d.geometry φ

namespace IsView

variable {e e' : Block} {φ ψ : Position → Position}

theorem itemSize_eq (h : e.IsView d φ) : e.itemSize = d.itemSize := h.shows.itemSize_eq

theorem trans (h' : e'.IsView e ψ) (h : e.IsView d φ) : e'.IsView d fun p => φ (ψ p) where
  sound := h'.sound
  kind_eq := h'.kind_eq.trans h.kind_eq
  buffer_eq := h'.buffer_eq.trans h.buffer_eq
  metadata_eq := h'.metadata_eq
  shows := h'.shows.trans h.shows

theorem congr (h : e.IsView d φ) (hφψ : ∀ p, e.shape.contains p → φ p = ψ p) : e.IsView d ψ :=
  ⟨h.sound, h.kind_eq, h.buffer_eq, h.metadata_eq, h.shows.congr hφψ⟩

theorem item_eq (h : e.IsView d φ) (hd : d.Sound) {p : Position}
    (hp : e.shape.contains p) : e.item p = d.item (φ p) := by
  have hsound : e.toFrame.Sound d.buffer.size := h.buffer_eq ▸ h.sound
  rw [item, h.buffer_eq]
  exact Frame.item_of_shows hd hsound h.kind_eq h.shows hp

end IsView

section

variable (h : d.Sound) (hmeta : d.metadata = .empty)
include h hmeta

theorem isView_view : d.view.IsView d id where
  sound := Frame.Sound.view h
  kind_eq := rfl
  buffer_eq := rfl
  metadata_eq := by simp [view, through, hmeta]
  shows := by
    have hgeometry : d.view.geometry = d.geometry := Frame.geometry_view _
    rw [hgeometry]
    exact ⟨rfl, h.inside.length_strides, fun _ hp => hp, fun _ _ => rfl⟩

theorem Sound.sliceView_eq {r : Region} (hr : r.Valid) (hsource : r.source = d.shape) :
    ∃ e : Block, d.sliceView r = .ok e ∧ e.IsView d r.sourcePosition ∧
      e.name = d.name ++ r.text ∧ e.shape = r.shape := by
  obtain ⟨frame, hframe⟩ := d.toFrame.exists_slice hsource
  obtain ⟨-, hgeometry, hkind, hname⟩ := Frame.slice_eq_ok hframe
  refine ⟨d.through frame .empty, ?_, ⟨Frame.Sound.slice h hr hframe, hkind, rfl, rfl,
    Frame.slice_shows h hr hframe⟩, hname, congrArg Geometry.shape hgeometry⟩
  simp only [sliceView, bind_eq_ok, hmeta]
  exact ⟨frame, hframe, .empty, Metadata.onSlice_empty .., rfl⟩

theorem Sound.transposed_eq {axes : List Int} {perm : List Nat}
    (hperm : ofAxes d.rank axes = .ok perm) :
    ∃ e : Block, d.transposed axes = .ok e ∧ e.IsView d (apply (inverse perm)) ∧ e.name = d.name ∧
      e.shape = apply perm d.shape := by
  have horders : Orders perm d.shape.length := orders_of_ofAxes hperm
  by_cases hid : isIdentity perm
  · have hrange : perm = List.range d.shape.length := by
      rw [← horders.length_eq]
      exact isIdentity_iff.mp hid
    refine ⟨d.view, ?_, (isView_view h hmeta).congr fun p hp => ?_, rfl, ?_⟩
    · simp only [transposed, hperm, bind_eq_ok]
      exact ⟨perm, rfl, by rw [if_pos hid]; rfl⟩
    · have hp : d.shape.contains p := hp
      rw [hrange, apply_inverse_range (length_of_contains hp), id]
    · rw [hrange, apply_range]
      rfl
  · have haxis : d.axisFault? = none := by
      have hlength : d.strides.length = d.shape.length := h.inside.length_strides
      simp [Frame.axisFault?, hlength, Frame.rank]
    refine ⟨d.through (d.permuted perm) .empty, ?_, ⟨Frame.Sound.permuted h horders, rfl, rfl, rfl,
      Frame.permuted_shows h horders⟩, rfl, rfl⟩
    simp only [transposed, hperm, bind_eq_ok]
    exact ⟨perm, rfl, by rw [if_neg hid, haxis, hmeta]; rfl⟩

end

end Dataset

end Hyperslab
