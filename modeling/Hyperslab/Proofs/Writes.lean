import Hyperslab.Proofs.Contents
import Hyperslab.Dataset.Make

/-!
# What a write does to the items

A write puts items into ranges of the buffer. Where the items of a dataset lie apart, it sets the
items that it is told to set and leaves all others as they are.
-/
namespace Hyperslab

open List Shape

/-! ## Ranges of a buffer -/

namespace Elements

@[simp] theorem size_putFrom (e : Elements) (i : Nat) (l : List Scalar) :
    (e.putFrom i l).size = e.size := by
  induction l generalizing e i with
  | nil => rfl
  | cons v l ih => rw [putFrom, ih, Array.size_setIfInBounds]

@[simp] theorem size_putItems (e : Elements) (writes : List (Nat × List Scalar)) :
    (e.putItems writes).size = e.size := by
  induction writes generalizing e with
  | nil => rfl
  | cons w writes ih => exact (ih _).trans (size_putFrom ..)

theorem getElem?_putFrom_of_outside (e : Elements) {i : Nat} (l : List Scalar) {j : Nat}
    (h : j < i ∨ i + l.length ≤ j) : (e.putFrom i l)[j]? = e[j]? := by
  induction l generalizing e i with
  | nil => rfl
  | cons v l ih =>
    rw [length_cons] at h
    rw [putFrom, ih _ (by omega), Array.getElem?_setIfInBounds, if_neg (by omega)]

theorem getElem?_putFrom (e : Elements) {i : Nat} (l : List Scalar) {j : Nat}
    (hi : i + l.length ≤ e.size) (hj : j < l.length) : (e.putFrom i l)[i + j]? = l[j]? := by
  induction l generalizing e i j with
  | nil => simp at hj
  | cons v l ih =>
    rw [length_cons] at hi hj
    rw [putFrom]
    cases j with
    | zero =>
      change (putFrom (e.setIfInBounds i v) (i + 1) l)[i]? = some v
      rw [getElem?_putFrom_of_outside _ l (.inl (Nat.lt_succ_self i)),
        Array.getElem?_setIfInBounds, if_pos rfl, if_pos (by omega)]
    | succ j =>
      have := ih (e.setIfInBounds i v) (i := i + 1) (j := j)
        (by rw [Array.size_setIfInBounds]; omega) (by omega)
      rw [show i + (j + 1) = i + 1 + j by omega, this, getElem?_cons_succ]

end Elements

namespace Frame

variable {l : List Scalar}

variable {f : Frame} {e : Elements}

theorem itemAt_putFrom_self {i : Nat} (hl : l.length = f.itemSize)
    (hi : i + f.itemSize ≤ e.size) : f.itemAt (e.putFrom i l) i = l := by
  refine Eq.trans ?_ (map_getD_range l f.kind.zero)
  rw [hl]
  refine map_congr_left fun j hj => ?_
  rw [mem_range] at hj
  have := Elements.getElem?_putFrom e l (hl ▸ hi) (hl ▸ hj)
  simp [this]

theorem itemAt_putFrom_of_apart {i j : Nat} (hl : l.length = f.itemSize)
    (h : i + f.itemSize ≤ j ∨ j + f.itemSize ≤ i) : f.itemAt (e.putFrom i l) j = f.itemAt e j := by
  refine map_congr_left fun k hk => ?_
  rw [mem_range] at hk
  have hsame : (e.putFrom i l)[j + k]? = e[j + k]? :=
    Elements.getElem?_putFrom_of_outside e l (by omega)
  simp [hsame]

theorem item_putFrom (hf : f.Sound e.size) (hsep : f.geometry.Separate) {p q : Position}
    (hp : f.shape.contains p) (hq : f.shape.contains q) (hl : l.length = f.itemSize) :
    f.item (e.putFrom (f.geometry.indexOf p) l) q = if p = q then l else f.item e q := by
  have hpi := hf.inside.cast_indexOf hp
  have hqi := hf.inside.cast_indexOf hq
  split
  · rename_i hpq
    subst hpq
    exact itemAt_putFrom_self hl (hf.inside.indexOf_add_le hp)
  · rename_i hpq
    refine itemAt_putFrom_of_apart hl ?_
    have hapart : f.geometry.place p + f.itemSize ≤ f.geometry.place q ∨
        f.geometry.place q + f.itemSize ≤ f.geometry.place p := hsep p q hp hq hpq
    omega

/-- **Items that are put at different positions are there, and all other items stay.** -/
theorem item_putItems {ps : List Position} {φ : Position → Position}
    {data : Position → List Scalar} (hf : f.Sound e.size) (hsep : f.geometry.Separate)
    (hps : ∀ p ∈ ps, f.shape.contains (φ p) ∧ (data p).length = f.itemSize)
    (hinj : ∀ p ∈ ps, ∀ p' ∈ ps, φ p = φ p' → p = p') (hnodup : ps.Nodup) {q : Position}
    (hq : f.shape.contains q) :
    f.item (e.putItems (ps.map fun p => (f.geometry.indexOf (φ p), data p))) q =
      (ps.find? fun p => φ p == q).elim (f.item e q) data := by
  induction ps generalizing e with
  | nil => rfl
  | cons p ps ih =>
    obtain ⟨hp, hlength⟩ := hps p mem_cons_self
    rw [nodup_cons] at hnodup
    have hrest := ih (e := e.putFrom (f.geometry.indexOf (φ p)) (data p)) (by simpa using hf)
      (fun p hp => hps p (mem_cons_of_mem _ hp))
      (fun p hp p' hp' => hinj p (mem_cons_of_mem _ hp) p' (mem_cons_of_mem _ hp'))
      hnodup.2
    have hcons : e.putItems ((p :: ps).map fun p => (f.geometry.indexOf (φ p), data p)) =
        (e.putFrom (f.geometry.indexOf (φ p)) (data p)).putItems
          (ps.map fun p => (f.geometry.indexOf (φ p), data p)) := rfl
    rw [hcons, hrest, item_putFrom hf hsep hp hq hlength]
    by_cases hpq : φ p = q
    · -- No later write touches the item.
      have hnone : ps.find? (fun p => φ p == q) = none := by
        rw [find?_eq_none]
        intro p' hp' heq
        have : p = p' := hinj p mem_cons_self p' (mem_cons_of_mem _ hp')
          (hpq.trans (eq_of_beq heq).symm)
        exact hnodup.1 (this ▸ hp')
      simp [hnone, hpq]
    · simp [hpq]

end Frame

/-! ## Scalars of a kind -/

namespace Kind

/-- The scalar is one of the kind. -/
def Holds : Kind → Scalar → Prop
  | bool, .bool _ | single, .single _ | double, .double _ => True
  | int isSigned w, .int z => lower isSigned w ≤ z ∧ z ≤ upper isSigned w
  | _, _ => False

instance : (k : Kind) → (v : Scalar) → Decidable (k.Holds v)
  | bool, .bool _ | single, .single _ | double, .double _ => .isTrue trivial
  | int isSigned w, .int z =>
    inferInstanceAs (Decidable (lower isSigned w ≤ z ∧ z ≤ upper isSigned w))
  | bool, .int _ | bool, .single _ | bool, .double _ | single, .bool _ | single, .int _
  | single, .double _ | double, .bool _ | double, .int _ | double, .single _ | int .., .bool _
  | int .., .single _ | int .., .double _ => .isFalse id

theorem holds_zero (k : Kind) : k.Holds k.zero := by
  cases k with
  | int isSigned w => cases isSigned <;> cases w <;> simp [Holds, zero, lower, upper, Width.bits]
  | bool | single | double => trivial

theorem cast_of_holds {k : Kind} {v : Scalar} (h : k.Holds v) : k.cast v = v := by
  cases k with
  | bool =>
    cases v with
    | bool b => cases b <;> rfl
    | int | single | double => exact h.elim
  | int isSigned w =>
    cases v with
    | int z =>
      simp only [Holds, lower, upper] at h
      simp only [cast, Scalar.isFloat, Bool.false_eq_true, ofInt, wrap, Scalar.toInt,
        Word.modulus]
      cases isSigned <;> cases w <;> simp [Width.bits, Int.bmod] at h ⊢ <;> omega
    | bool | single | double => exact h.elim
  | single =>
    cases v with
    | single x => rfl
    | bool | int | double => exact h.elim
  | double =>
    cases v with
    | double x => rfl
    | bool | int | single => exact h.elim

end Kind

/-! ## The source of a write -/

/-- The position of `t` whose item a source of shape `t` brings to position `p` of `s`: the one of
the same number when the sizes agree, and otherwise the one that is repeated there. -/
def Shape.spreadPosition (t s : Shape) (p : Position) : Position :=
  if t.size = s.size then unravel (s.ravel p) t else t.project p

namespace Dataset

variable {s : Shape} {item : Position → List Scalar}

variable {d data e : Block} {r : Region}

theorem Sound.reshape_eq_ok (h : data.Sound) (hmeta : data.metadata = .empty)
    (he : data.reshape s = .ok e) : e.shape = s ∧ data.shape.size = s.size ∧ ∀ p, s.contains p →
        e.item p = data.item (unravel (s.ravel p) data.shape) := by
  have hsound := h.reshape he
  simp only [Dataset.reshape, bind_eq_ok, hmeta, Metadata.onReshape_empty] at he
  obtain ⟨map, hmap, -, -, he⟩ := he
  obtain ⟨hsize, -, htarget, -⟩ := Regrouping.of_eq_ok hmap
  split at he
  · rename_i f hf
    obtain ⟨m, rfl, rfl⟩ := he
    obtain ⟨hshape, hkind, -⟩ := Frame.regrouped_eq_some hf
    have hshape : f.shape = s := hshape.trans htarget
    have hshows := Frame.regrouped_shows h hmap hf
    refine ⟨hshape, hsize, fun p hp => ?_⟩
    exact Frame.item_of_shows h hsound hkind hshows (hshape ▸ hp)
  · simp only [bind_eq_ok, pure_eq_ok, Except.ok.injEq] at he
    obtain ⟨-, -, m, rfl, rfl⟩ := he
    refine ⟨rfl, hsize, fun p hp => ?_⟩
    have hlist : data.field.toList.toArray =
        ((data.shape.positions.map data.item).flatten).toArray :=
      congrArg toArray (Frame.elements_eq ..)
    have hlt : s.ravel p < data.shape.size := hsize ▸ ravel_lt hp
    have hitem : (data.shape.positions.map data.item)[s.ravel p]? =
        some (data.item (unravel (s.ravel p) data.shape)) := by
      simp [positions_eq, hlt]
    have hlengths : ∀ l ∈ data.shape.positions.map data.item, l.length = data.itemSize := by
      intro l hl
      obtain ⟨q, -, rfl⟩ := mem_map.mp hl
      exact length_item ..
    have hbytes : s.size * data.itemSize < Word.half := hsize ▸ h.inside.size_lt
    change (Frame.packed data.kind data.name s data.itemSize).item data.field.toList.toArray p = _
    rw [hlist]
    exact Frame.item_packed h.itemSize_pos hbytes hlengths hp hitem

theorem reshape_of_dense {t : Shape} {map : Regrouping} (hdense : d.layout = .dense)
    (hmap : Regrouping.of d.shape t = .ok map) : d.reshape t = (do
      return d.through (d.withGeometry t d.offset (t.strides d.itemSize))
        (← d.metadata.onReshape map)) := by
  have hkeeps : d.layout.isDense := by
    rw [hdense]
    rfl
  obtain ⟨-, -, rfl, -⟩ := Regrouping.of_eq_ok hmap
  rw [reshape, hmap, ok_bind, Frame.regroupFault?, if_pos hkeeps, Frame.regrouped?, if_pos hkeeps]
  rfl

theorem setShape_of_dense {t : Shape} {map : Regrouping} (hdense : d.layout = .dense)
    (hmeta : d.metadata = .empty) (hmap : Regrouping.of d.shape t = .ok map) (hne : t ≠ d.shape) :
    d.setShape t = .ok { d.through (d.withGeometry t d.offset (t.strides d.itemSize)) .empty with
      isView := d.isView } := by
  have hkeeps : (d.regrouped? map).isSome := by
    rw [Frame.regrouped?, hdense]
    rfl
  rw [setShape, if_neg hne, hmap, ok_bind, reshape_of_dense hdense hmap, hmeta, hkeeps,
    Bool.and_true]
  rfl

/-- What a source brings to each position of a region's shape. -/
theorem Sound.spread_eq_ok (h : data.Sound) (hmeta : data.metadata = .empty)
    (he : data.spread s = .ok e) : e.shape = s ∧ ∀ p, s.contains p →
      data.shape.contains (data.shape.spreadPosition s p) ∧
        e.item p = data.item (data.shape.spreadPosition s p) := by
  unfold spread at he
  split at he
  · rename_i hshape
    simp only [Except.ok.injEq] at he
    subst he
    have hview := isView_view h hmeta
    refine ⟨hshape, fun p hp => ?_⟩
    have hp' : data.shape.contains p := hshape ▸ hp
    have hsame : data.shape.spreadPosition s p = p := by
      rw [spreadPosition, if_pos (by rw [hshape]), ← hshape, unravel_ravel hp']
    rw [hsame, hview.item_eq h hp']
    exact ⟨hp', rfl⟩
  · split at he
    · obtain ⟨hshape, hsize, hitems⟩ := h.reshape_eq_ok hmeta he
      refine ⟨hshape, fun p hp => ?_⟩
      rw [hitems p hp, spreadPosition, if_pos hsize]
      exact ⟨contains_unravel (hsize ▸ size_pos_of_contains hp) _, rfl⟩
    · rename_i hsize
      have hsize : data.shape.size ≠ s.size := hsize
      simp only [broadcastView, bind_eq_ok, pure_eq_ok] at he
      obtain ⟨f, hf, rfl⟩ := he
      have hsound : f.Sound data.buffer.size := Frame.Sound.broadcast h hf
      have hshows := Frame.broadcast_shows h hf
      obtain ⟨ts, -, -, hframe⟩ := Frame.broadcast_eq_ok hf
      have hshape : f.shape = s := hframe ▸ rfl
      have hkind : f.kind = data.kind := hframe ▸ rfl
      refine ⟨hshape, fun p hp => ?_⟩
      have hp : f.shape.contains p := hshape ▸ hp
      rw [spreadPosition, if_neg hsize]
      exact ⟨hshows.contains p hp, Frame.item_of_shows h hsound hkind hshows hp⟩

/-! ## Writing a region -/

/-- The item that a source brings to a position of a region: a lone element comes first and zeros
follow. -/
def sourceItem (k : Kind) (n : Nat) (data : Block) (s : Shape) (p : Position) : List Scalar :=
  fitItem k n (data.item (data.shape.spreadPosition s p))

theorem incoming_eq_ok {items : List (List Scalar)} (hdata : data.Sound)
    (hmeta : data.metadata = .empty) (h : d.incoming r data = .ok items) :
    r.source = d.shape ∧ (data.itemSize = d.itemSize ∨ data.itemSize = 1) ∧
      (∀ p, r.shape.contains p → data.shape.contains (data.shape.spreadPosition r.shape p)) ∧
      items = r.shape.positions.map (sourceItem d.kind d.itemSize data r.shape) := by
  simp only [incoming, bind_eq_ok, Frame.checkRegion_eq_ok] at h
  obtain ⟨-, hsource, h⟩ := h
  split at h
  · simp at h
  simp only [bind_eq_ok, pure_eq_ok] at h
  obtain ⟨e, he, -, -, rfl⟩ := h
  obtain ⟨hshape, hitems⟩ := hdata.spread_eq_ok hmeta he
  refine ⟨hsource, by omega, fun p hp => (hitems p hp).1, ?_⟩
  rw [itemList_eq, hshape, map_map]
  refine map_congr_left fun p hp => ?_
  rw [Function.comp_apply, (hitems p (mem_positions.mp hp)).2, sourceItem]

theorem length_sourceItem {k : Kind} {n : Nat} {p : Position} (hn : 0 < n)
    (h : data.itemSize = n ∨ data.itemSize = 1) : (sourceItem k n data s p).length = n := by
  simp only [sourceItem, fitItem, length_append, length_map, length_replicate, length_item]
  omega

/-- `e` is `d` after a write that set the items of a region; nothing else has changed. -/
structure IsWrite (e d : Block) (r : Region) (item : Position → List Scalar) : Prop where
  frame_eq : e.toFrame = d.toFrame
  size_eq : e.buffer.size = d.buffer.size
  metadata_eq : e.metadata = d.metadata.onDirty
  item_eq : ∀ q, d.shape.contains q = true → e.item q =
    (r.shape.positions.find? fun p => r.sourcePosition p == q).elim (d.item q) item

theorem IsWrite.sound (h : e.IsWrite d r item) (hd : d.Sound) : e.Sound := by
  rw [Sound, h.frame_eq, h.size_eq]
  exact hd

theorem IsWrite.item_sourcePosition (h : e.IsWrite d r item)
    (hd : d.Sound) (hr : r.Valid) (hsource : r.source = d.shape) {p : Position}
    (hp : r.shape.contains p) : e.item (r.sourcePosition p) = item p := by
  have hinj : ∀ p p', r.shape.contains p → r.shape.contains p' = true →
      r.sourcePosition p = r.sourcePosition p' → p = p' :=
    fun _ _ hp hp' => hd.inside.sourcePosition_inj hr hsource hp hp'
  rw [h.item_eq _ (hd.inside.contains_sourcePosition hr hsource hp),
    find?_positions_eq_some hinj hp rfl, Option.elim_some]

theorem IsWrite.item_of_ne (h : e.IsWrite d r item) {q : Position} (hq : d.shape.contains q)
    (hne : ∀ p, r.shape.contains p → r.sourcePosition p ≠ q) : e.item q = d.item q := by
  rw [h.item_eq q hq, find?_positions_eq_none hne, Option.elim_none]

/-- The items for a region, each with the index that it is written at. -/
theorem Sound.zip_indices_slice (hd : d.Sound) (hr : r.Valid) (hsource : r.source = d.shape)
    (item : Position → List Scalar) :
    (d.geometry.slice r).indices.zip (r.shape.positions.map item) =
      r.shape.positions.map fun p => (d.geometry.indexOf (r.sourcePosition p), item p) := by
  have hshows := hd.inside.shows_slice hr hsource
  have hinside := hd.inside.slice hr hsource
  have hshape : (d.geometry.slice r).shape = r.shape := rfl
  rw [Geometry.indices_eq, hshape, zip_map']
  refine map_congr_left fun p hp => ?_
  rw [hshows.indexOf_eq hd.inside hinside (mem_positions.mp hp)]

theorem isWrite_putItems (hd : d.Sound) (hsep : d.geometry.Separate) (hr : r.Valid)
    (hsource : r.source = d.shape) (hitem : ∀ p, (item p).length = d.itemSize) :
    (d.modifyElements (·.putItems ((d.geometry.slice r).indices.zip
      (r.shape.positions.map item)))).IsWrite d r item := by
  rw [hd.zip_indices_slice hr hsource item]
  refine ⟨rfl, Elements.size_putItems .., rfl, fun q hq => ?_⟩
  refine Frame.item_putItems hd hsep (fun p hp => ⟨?_, hitem p⟩) ?_
    (nodup_positions _) hq
  · exact hd.inside.contains_sourcePosition hr hsource (mem_positions.mp hp)
  · exact fun p hp p' hp' => hd.inside.sourcePosition_inj hr hsource (mem_positions.mp hp)
      (mem_positions.mp hp')

theorem openingWrite_none (indices : List Nat) (items : List (List Scalar)) :
    openingWrite ⟨indices, none, none⟩ items = [] := rfl

section

variable (hd : d.Sound) (hsep : d.geometry.Separate) (hr : r.Valid) (hdata : data.Sound)
  (hmeta : data.metadata = .empty)
include hd hsep hr hdata hmeta

theorem Sound.writeSlice_eq_ok {w : Written Buffer} (h : d.writeSlice r data = .ok w) :
    w.stop = none ∧ r.source = d.shape ∧ (data.itemSize = d.itemSize ∨ data.itemSize = 1) ∧
      (∀ p, r.shape.contains p → data.shape.contains (data.shape.spreadPosition r.shape p)) ∧
      w.dataset.IsWrite d r (sourceItem d.kind d.itemSize data r.shape) := by
  simp only [writeSlice, bind_eq_ok, pure_eq_ok] at h
  obtain ⟨items, hitems, rfl⟩ := h
  obtain ⟨hsource, hsize, hcontains, rfl⟩ := incoming_eq_ok hdata hmeta hitems
  have hreach := (hd.inside.slice hr hsource).reach_eq
  rw [hreach]
  simp only [openingWrite_none, ite_self]
  exact ⟨rfl, hsource, hsize, hcontains,
    isWrite_putItems hd hsep hr hsource fun p => length_sourceItem hd.itemSize_pos hsize⟩

theorem Sound.setSlice_eq_ok (h : d.setSlice r data = .ok e) :
    r.source = d.shape ∧ (data.itemSize = d.itemSize ∨ data.itemSize = 1) ∧
      (∀ p, r.shape.contains p → data.shape.contains (data.shape.spreadPosition r.shape p)) ∧
      e.IsWrite d r (sourceItem d.kind d.itemSize data r.shape) := by
  simp only [setSlice, bind_eq_ok] at h
  obtain ⟨w, hw, h⟩ := h
  obtain ⟨hstop, hwrite⟩ := hd.writeSlice_eq_ok hsep hr hdata hmeta hw
  simp only [Written.finish, bind_eq_ok, pure_eq_ok] at h
  obtain ⟨-, -, rfl⟩ := h
  exact hwrite

end

theorem itemList_view (d : Block) : d.view.itemList = d.itemList := by
  have hview : d.view.itemList = d.toFrame.view.items d.buffer.elements := rfl
  rw [hview, Frame.items, Frame.geometry_view]
  rfl

theorem spread_of_shape (h : data.shape = s) : data.spread s = .ok data.view := if_pos h

theorem Sound.incoming_of_shape (hdata : data.Sound) (hsource : r.source = d.shape)
    (hsize : data.itemSize = d.itemSize ∨ data.itemSize = 1) (hshape : data.shape = r.shape) :
    d.incoming r data =
      .ok (r.shape.positions.map fun p => fitItem d.kind d.itemSize (data.item p)) := by
  have hread : data.view.checkRead = .ok () :=
    check_eq_ok.mpr (Frame.Sound.view hdata).fault_eq_none
  simp only [incoming, bind_eq_ok, Frame.checkRegion_eq_ok]
  refine ⟨(), hsource, ?_⟩
  rw [if_neg (by omega), spread_of_shape hshape]
  simp only [ok_bind, hread, itemList_view]
  rw [itemList_eq, map_map, hshape]
  rfl

/-! ## Writing every item -/

theorem Sound.put_all (hd : d.Sound) (hsep : d.geometry.Separate)
    (hitem : ∀ p, d.shape.contains p → (item p).length = d.itemSize)
    (he : d.modifyElements (·.putItems (d.shape.positions.map fun p =>
      (d.geometry.indexOf p, item p))) = e) :
    e.toFrame = d.toFrame ∧ e.Sound ∧ e.metadata = d.metadata.onDirty ∧
      ∀ q, d.shape.contains q → e.item q = item q := by
  subst he
  have hsize : (d.buffer.elements.putItems (d.shape.positions.map fun p =>
      (d.geometry.indexOf p, item p))).size = d.buffer.size := Elements.size_putItems ..
  refine ⟨rfl, ?_, rfl, fun q hq => ?_⟩
  · change d.toFrame.Sound (d.buffer.elements.putItems (d.shape.positions.map fun p =>
      (d.geometry.indexOf p, item p))).size
    rw [hsize]
    exact hd
  · have hput : d.toFrame.item (d.buffer.elements.putItems (d.shape.positions.map fun p =>
        (d.geometry.indexOf (id p), item p))) q =
          (d.shape.positions.find? fun p => id p == q).elim (d.item q) item :=
      Frame.item_putItems hd hsep (fun p hp => ⟨mem_positions.mp hp, hitem p (mem_positions.mp hp)⟩)
        (fun _ _ _ _ h => h) (nodup_positions d.shape) hq
    have hfind : (d.shape.positions.find? fun p => id p == q) = some q :=
      find?_positions_eq_some (fun _ _ _ _ h => h) hq rfl
    rw [hfind] at hput
    exact hput

theorem Sound.fill_items {v : Scalar} (hd : d.Sound) (hsep : d.geometry.Separate)
    (h : d.fill v = .ok e) : e.toFrame = d.toFrame ∧ e.Sound ∧ e.metadata = d.metadata.onDirty ∧
      ∀ q, d.shape.contains q → e.item q = replicate d.itemSize v := by
  rw [hd.fill_eq_ok, Except.ok.injEq] at h
  refine hd.put_all hsep (fun _ _ => length_replicate) ?_
  simp only [← h, Elements.fillItems, Geometry.indices_eq, map_map]
  rfl

end Dataset

end Hyperslab
