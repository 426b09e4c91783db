import Hyperslab.Proofs.Origins
import Hyperslab.Proofs.SlicesInWords

/-!
# Transpositions

Orders of axes act on datasets. The axis names that are accepted are those of all axes, each named
once, and every position of the result leads back to the position with its coordinates in the old
order. One order after another is the composed order, and an order followed by its inverse is a view
of everything.

Over words the strides of the new order are compared with those of a dense layout, in which an empty
axis counts as one. Data without items can have dense strides that are words in one order of the
axes and not in another; if all elements of the shape, with empty axes counted as one, are fewer
than half of the words, then every order has them.
-/
namespace Hyperslab

open List Permutation Shape Word

/-! ## Names of axes -/

namespace Permutation

/-- The number that an axis name stands for; negative names count from the end. -/
def wrap (rank : Nat) (axis : Int) : Int := if axis < 0 then axis + rank else axis

/-- The names are those of all axes, each named once. -/
def NamesAll (rank : Nat) (axes : List Int) : Prop :=
  (axes.map (wrap rank)).Perm ((List.range rank).map Int.ofNat)

/-- The names stand for an order of the axes. No names stand for the opposite of their order. -/
def Names (rank : Nat) (axes : List Int) (perm : List Nat) : Prop :=
  Orders perm rank ∧
    if axes = [] then perm = (List.range rank).reverse
    else axes.map (wrap rank) = perm.map Int.ofNat

variable {rank : Nat} {axes : List Int} {perm : List Nat}

theorem mapM_normalizeAxis_eq_ok_iff :
    axes.mapM (normalizeAxis · rank) = .ok perm ↔
      axes.map (wrap rank) = perm.map Int.ofNat ∧ ∀ a ∈ perm, a < rank := by
  simp only [mapM_eq_ok, normalizeAxis_eq_ok_iff]
  induction axes generalizing perm with
  | nil => cases perm <;> simp
  | cons axis axes ih =>
    cases perm with
    | nil => simp
    | cons a perm =>
      simp only [forall₂_cons, ih, map_cons, cons.injEq, forall_mem_cons]
      tauto

/-- **The order that accepted names stand for.** -/
theorem ofAxes_eq_ok_iff : ofAxes rank axes = .ok perm ↔ Names rank axes perm := by
  constructor
  · intro h
    refine ⟨orders_of_ofAxes h, ?_⟩
    unfold ofAxes at h
    split at h
    · rename_i hempty
      rw [if_pos (isEmpty_iff.mp hempty)]
      exact (Except.ok.inj h).symm
    · rename_i hempty
      rw [if_neg fun hnil => hempty (isEmpty_iff.mpr hnil)]
      split at h
      · cases h
      split at h
      · rename_i names hnames
        split at h
        · cases h
          exact (mapM_normalizeAxis_eq_ok_iff.mp hnames).1
        · cases h
      · cases h
  · rintro ⟨horders, hnames⟩
    unfold ofAxes
    split_ifs at hnames with hempty
    · rw [hempty, hnames]
      rfl
    · have hlength : axes.length = rank := by
        have := congrArg length hnames
        rwa [length_map, length_map, horders.length_eq] at this
      have hmap := mapM_normalizeAxis_eq_ok_iff.mpr ⟨hnames, fun a ha => horders.mem_iff.mp ha⟩
      rw [if_neg (by simpa using hempty), if_neg (not_not.mpr hlength), hmap]
      exact if_pos horders.nodup

theorem NamesAll.exists_names (h : NamesAll rank axes) (hne : axes ≠ []) :
    ∃ perm, Names rank axes perm := by
  refine ⟨axes.map fun axis => (wrap rank axis).toNat, ?_, ?_⟩
  · have := Perm.map Int.toNat h
    simpa [Function.comp_def, Orders] using this
  · rw [if_neg hne, map_map]
    refine map_congr_left fun axis haxis => ?_
    obtain ⟨a, -, ha⟩ := mem_map.mp ((Perm.mem_iff h).mp (mem_map_of_mem haxis))
    rw [Function.comp_apply, ← ha]
    rfl

theorem exists_names_iff : (∃ perm, Names rank axes perm) ↔ axes = [] ∨ NamesAll rank axes := by
  constructor
  · rintro ⟨perm, horders, hnames⟩
    split_ifs at hnames with hempty
    · exact .inl hempty
    · rw [NamesAll, hnames]
      exact .inr (Perm.map Int.ofNat horders)
  · intro h
    by_cases hempty : axes = []
    · exact ⟨_, reverse_perm _, if_pos hempty ▸ rfl⟩
    · exact (h.resolve_left hempty).exists_names hempty

theorem ofAxes_of_not_names (h : ¬ (axes = [] ∨ NamesAll rank axes)) :
    ofAxes rank axes = .error (.invalidPermutation axes rank) := by
  have hnone (perm : List Nat) : ofAxes rank axes ≠ .ok perm := fun hperm =>
    h (exists_names_iff.mp ⟨perm, ofAxes_eq_ok_iff.mp hperm⟩)
  unfold ofAxes at hnone ⊢
  split_ifs at hnone ⊢ with hempty hlength
  · exact absurd rfl (hnone _)
  · rfl
  · split
    · rename_i names hnames
      simp only [hnames] at hnone
      split_ifs at hnone ⊢
      · exact absurd rfl (hnone _)
      · rfl
    · rfl

theorem getElem?_of_apply_eq {p q : Position} (horders : Orders perm p.length)
    (h : apply perm p = q) {i a : Nat} (hi : perm[i]? = some a) : p[a]? = q[i]? := by
  rw [← h, getElem?_apply fun a ha => horders.mem_iff.mp ha, hi, Option.bind_some]

theorem getElem?_inverse (h : Orders perm rank) {i a : Nat} (hi : perm[i]? = some a) :
    (inverse perm)[a]? = some i := by
  have hlt : i < rank := by
    rw [← h.length_eq]
    exact (List.getElem?_eq_some_iff.mp hi).1
  rw [getElem?_of_apply_eq (by rwa [length_inverse, h.length_eq]) (apply_self_inverse h) hi,
    getElem?_range hlt]

end Permutation

/-! ## Room for a shape -/

namespace Shape

variable {s : Shape} {itemSize : Nat}

/-- The number of elements of a shape, an empty axis counted as one. -/
def room (itemSize : Nat) (s : Shape) : Nat := size (s.map (max · 1)) * itemSize

theorem room_cons (d : Nat) : room itemSize (d :: s) = max d 1 * room itemSize s := by
  simp only [room, map_cons, size_cons, Nat.mul_assoc]

theorem size_max_pos (s : Shape) : 0 < size (s.map (max · 1)) := by
  induction s with
  | nil => decide
  | cons d s ih =>
    rw [map_cons]
    exact Nat.mul_pos (by omega) ih

theorem room_of_pos (hpos : 0 < s.size) : s.room itemSize = s.size * itemSize := by
  induction s with
  | nil => rfl
  | cons d s ih =>
    have hd : 0 < d := Nat.pos_of_mul_pos_right hpos
    rw [room_cons, size_cons, ih (Nat.pos_of_mul_pos_left hpos), Nat.mul_assoc, Nat.max_eq_left hd]

theorem room_apply {perm : List Nat} (h : Orders perm s.length) :
    room itemSize (apply perm s) = s.room itemSize := by
  have hlength : (s.map (max · 1)).length = s.length := length_map ..
  rw [room, ← apply_map, size_apply (hlength ▸ h), room]

/-- A shape that fits another takes up no more room, also where a unit axis stands for an empty
one. -/
theorem Fits.room_le {host : Shape} (h : s.Fits host) (n : Nat) : s.room n ≤ host.room n := by
  induction h with
  | nil => exact le_rfl
  | @cons c d s host hcd _ ih =>
    rw [room_cons, room_cons]
    exact Nat.mul_le_mul (by omega) ih

theorem room_pos (hk : 0 < itemSize) (s : Shape) : 0 < s.room itemSize :=
  Nat.mul_pos (size_max_pos s) hk

/-- Each axis takes up its length times the room of those behind it. -/
theorem room_lt_of_cons {d : Nat} (hk : 0 < itemSize) (h : room itemSize (d :: s) < half) :
    max d 1 < half ∧ s.room itemSize < half := by
  rw [room_cons] at h
  exact ⟨(Nat.le_mul_of_pos_right _ (room_pos hk s)).trans_lt h,
    (Nat.le_mul_of_pos_left _ (by omega)).trans_lt h⟩

theorem extent_eq_room (hk : 0 < itemSize) (h : s.room itemSize < half) :
    s.extent itemSize = s.room itemSize := by
  induction s with
  | nil =>
    have hroom : room itemSize [] = itemSize := Nat.one_mul _
    rw [hroom] at h ⊢
    exact signed_of_lt h
  | cons d s ih =>
    obtain ⟨hd, hs⟩ := room_lt_of_cons hk h
    rw [extent, ih hs, signed_of_lt hd, room_cons, Nat.cast_mul, Int.mul_comm]

theorem stridesFit_of_room (hk : 0 < itemSize) (h : s.room itemSize < half) :
    s.stridesFit itemSize := by
  induction s with
  | nil =>
    rw [stridesFit, extent_eq_room hk h, fits_iff]
    omega
  | cons d s ih =>
    rw [stridesFit, extent_eq_room hk h, Bool.and_eq_true, fits_iff]
    exact ⟨by omega, ih (room_lt_of_cons hk h).2⟩

theorem abs_le_room_of_mem_strides {t : Int} (hk : 0 < itemSize) (h : s.room itemSize < half)
    (ht : t ∈ s.strides itemSize) : |t| ≤ s.room itemSize := by
  induction s with
  | nil => cases ht
  | cons d s ih =>
    have hs := (room_lt_of_cons hk h).2
    have hle : room itemSize s ≤ room itemSize (d :: s) := by
      rw [room_cons]
      exact Nat.le_mul_of_pos_left _ (by omega)
    rcases mem_cons.mp ht with rfl | ht
    · rw [extent_eq_room hk hs]
      exact_mod_cast hle
    · exact (ih hs ht).trans (by exact_mod_cast hle)

theorem mul_le_room {a : Nat} (itemSize : Nat) (ha : a < s.length) :
    s.getD a 0 * itemSize ≤ s.room itemSize := by
  have hmem : max s[a] 1 ∈ s.map (max · 1) := mem_map_of_mem (getElem_mem ha)
  have hget : s.getD a 0 = s[a] := by
    rw [getD_eq_getElem?_getD, getElem?_eq_getElem ha, Option.getD_some]
  have hle : s[a] ≤ size (s.map (max · 1)) :=
    (le_max_left _ _).trans (le_size_of_mem (size_max_pos s) hmem)
  rw [hget]
  exact Nat.mul_le_mul_right itemSize hle

theorem sizeChecked_of_room (hk : 0 < itemSize) (h : s.room itemSize < half) :
    s.sizeChecked.isSome := by
  have hpos := size_max_pos s
  have hlt : size (s.map (max · 1)) < modulus := by
    have hhalf : half ≤ modulus := by decide
    exact ((Nat.le_mul_of_pos_right _ hk).trans_lt h).trans_le hhalf
  have hle : Forall₂ (· ≤ ·) s (s.map (max · 1)) := by
    rw [forall₂_map_right_iff, forall₂_same]
    intro d _
    exact le_max_left d 1
  obtain ⟨m, -, hm⟩ := sizeChecked_of_le hle (sizeChecked_of_pos hpos hlt)
  rw [hm]
  rfl

end Shape

/-! ## Frames in another order -/

namespace Frame

variable {f : Frame} {length : Nat} {p q perm : List Nat}

@[simp] theorem strides_permuted (f : Frame) (perm : List Nat) :
    (f.permuted perm).strides = apply perm f.strides :=
  congrArg Geometry.strides (geometry_withGeometry f ..)

/-- **Two orders one after the other are the composed order.** -/
theorem Sound.permuted_permuted (h : f.Sound length) (hp : Orders p f.rank) (hq : Orders q f.rank) :
    (f.permuted p).permuted q = f.permuted (apply q p) := by
  have hstrides : f.strides.length = f.rank := h.inside.length_strides
  have hshape : apply q (apply p f.shape) = apply (apply q p) f.shape :=
    apply_apply (fun a ha => hp.length_eq ▸ hq.mem_iff.mp ha) fun a ha => hp.mem_iff.mp ha
  have hts : apply q (apply p f.strides) = apply (apply q p) f.strides :=
    apply_apply (fun a ha => hp.length_eq ▸ hq.mem_iff.mp ha)
      fun a ha => hstrides ▸ hp.mem_iff.mp ha
  calc (f.permuted p).permuted q
      = f.withGeometry (apply q (apply p f.shape)) f.offset (apply q (f.permuted p).strides) := rfl
    _ = f.permuted (apply q p) := by rw [strides_permuted, hshape, hts]; rfl

theorem Sound.permuted_range (h : f.Sound length) : f.permuted (range f.rank) = f.view := by
  have hstrides : f.strides.length = f.rank := h.inside.length_strides
  have hshape : apply (range f.rank) f.shape = f.shape := apply_range f.shape
  have hts : apply (range f.rank) f.strides = f.strides := by
    rw [← hstrides, apply_range]
  rw [Frame.permuted, hshape, hts, Frame.view]

/-- The numbers met in changing the order of axes are words. -/
def ReordersInWords (f : Frame) (perm : List Nat) : Prop :=
  f.HasStrides ∧ Shape.stridesFit f.itemSize (Permutation.apply perm f.shape) = true

instance (f : Frame) (perm : List Nat) : Decidable (f.ReordersInWords perm) :=
  inferInstanceAs (Decidable (_ ∧ _))

theorem checkPermuted_eq (f : Frame) (perm : List Nat) :
    f.checkPermuted perm = ensure (f.ReordersInWords perm) := by
  rw [checkPermuted, stridesInWords_bind, stridesChecked_bind, ensure_and, bind_pure_unit]
  rfl

theorem Sound.room_lt (h : f.Sound length) (hpos : 0 < f.size) :
    f.shape.room f.itemSize < half := by
  rw [room_of_pos hpos]
  exact h.inside.size_lt

/-- A walk of reordered items inside a buffer that takes up no more than half of the words stays in
the words, if the strides of unit axes do not lead out of them. -/
theorem Sound.allFit_walkNumbers_permuted (h : f.Sound length) (horders : Orders perm f.rank)
    (hbuffer : 2 * length ≤ half)
    (hunit : ∀ x ∈ zip f.shape f.strides, x.1 = 1 → |x.2| + length ≤ half) :
    AllFit (f.permuted perm).geometry.walkNumbers := by
  refine (h.permuted horders).inside.allFit_walkNumbers hbuffer fun x hx => hunit x ?_
  have hlength : f.shape.length = f.strides.length := h.inside.length_strides.symm
  have hzip : zip (f.permuted perm).shape (f.permuted perm).strides =
      apply perm (zip f.shape f.strides) := by
    rw [strides_permuted, zip_eq_zipWith, zip_eq_zipWith,
      apply_zipWith _ hlength fun i hi => horders.mem_iff.mp hi]
    rfl
  have hrank : (zip f.shape f.strides).length = f.rank := by
    rw [length_zip, ← hlength, Nat.min_self]
    rfl
  exact (apply_perm (hrank ▸ horders)).mem_iff.mp (hzip ▸ hx)

/-- Items next to each other are walked in another order within the words, if they take up no more
than half of them. -/
theorem Sound.allFit_walkNumbers_permuted_of_dense (h : f.Sound length)
    (horders : Orders perm f.rank) (hdense : f.layout = .dense) (hpos : 0 < f.size)
    (hbuffer : 2 * length ≤ half) : AllFit (f.permuted perm).geometry.walkNumbers := by
  refine h.allFit_walkNumbers_permuted horders hbuffer fun x hx _ => ?_
  have hstrides : f.strides = f.shape.strides f.itemSize := by
    rw [Frame.strides, hdense]
    rfl
  have hend := h.end_le_of_dense hdense hpos
  have hle : |x.2| ≤ f.shape.room f.itemSize :=
    abs_le_room_of_mem_strides h.inside.itemSize_pos (h.room_lt hpos)
      (hstrides ▸ (of_mem_zip hx).2)
  rw [room_of_pos hpos] at hle
  change f.offset + f.shape.size * f.itemSize ≤ length at hend
  omega

theorem reordersInWords_of_room (hk : 0 < f.itemSize) (hperm : Orders perm f.rank)
    (h : f.shape.room f.itemSize < half) : f.ReordersInWords perm :=
  ⟨fun _ => stridesFit_of_room hk h, stridesFit_of_room hk (by rwa [room_apply hperm])⟩

end Frame

/-! ## Transposed datasets -/

namespace Dataset

variable {β : Type} {d e : Dataset β} {length : Nat} {axes : List Int} {perm p q : List Nat}

theorem transposed_eq_through (hd : d.toFrame.Sound length) (hmeta : d.metadata = .empty)
    (hperm : Names d.rank axes perm) :
    d.transposed axes = .ok (d.through (d.permuted perm) .empty) := by
  have hfault : d.axisFault? = none := by
    have hstrides : d.strides.length = d.rank := hd.inside.length_strides
    rw [Frame.axisFault?, hstrides, if_neg (Nat.lt_irrefl _)]
  rw [transposed, ofAxes_eq_ok_iff.mpr hperm, ok_bind]
  split
  · rename_i hid
    obtain rfl : perm = List.range d.rank := by
      rw [isIdentity_iff.mp hid, hperm.1.length_eq]
    rw [hd.permuted_range, view, hmeta]
    rfl
  · rw [hfault, hmeta]
    rfl

theorem rank_through_permuted (m : Metadata) (hperm : Orders perm d.rank) :
    (d.through (d.permuted perm) m).rank = d.rank := by
  have hlength : (apply perm d.shape).length = d.rank := by
    rw [length_apply fun a ha => hperm.mem_iff.mp ha, hperm.length_eq]
  exact hlength

theorem transposed_of_not_names (h : ¬ (axes = [] ∨ NamesAll d.rank axes)) :
    d.transposed axes = .error (.invalidPermutation axes d.rank) := by
  rw [transposed, ofAxes_of_not_names h]
  rfl

/-- **Transposing twice is transposing once by the composed order.** -/
theorem transposed_transposed {axes' : List Int} (hd : d.toFrame.Sound length)
    (hmeta : d.metadata = .empty) (hp : Names d.rank axes p)
    (hq : Names d.rank axes' q) : (do (← d.transposed axes).transposed axes') =
      .ok (d.through (d.permuted (apply q p)) .empty) := by
  have hrank := rank_through_permuted .empty hp.1
  rw [transposed_eq_through hd hmeta hp, ok_bind,
    transposed_eq_through (hd.permuted hp.1) rfl (hrank ▸ hq), ← hd.permuted_permuted hp.1 hq.1]
  rfl

theorem exists_position_of_transposed (hd : d.toFrame.Sound length)
    (hperm : Names d.rank axes perm) (he : d.transposed axes = .ok e)
    (elements : Elements) {q : Position} (hq : e.shape.contains q) :
    ∃ p : Position, d.shape.contains p ∧ (∀ i a : Nat, perm[i]? = some a → p[a]? = q[i]?) ∧
      e.toFrame.item elements q = d.toFrame.item elements p := by
  obtain ⟨hshape, hshares⟩ := shares_transposed he (ofAxes_eq_ok_iff.mpr hperm)
  have hshown := hshares.shown hd
  have hlength : q.length = d.rank := by
    rw [length_of_contains hq, hshape,
      length_apply fun a ha => hperm.1.mem_iff.mp ha, hperm.1.length_eq]
  have hp := hshown.shows.contains q hq
  have horders : Orders perm (apply (inverse perm) q).length := by
    rw [length_of_contains hp]
    exact hperm.1
  exact ⟨_, hp, fun i a hi => getElem?_of_apply_eq horders
    (apply_apply_inverse (hlength ▸ hperm.1)) hi,
    Frame.item_of_shows hd hshown.sound hshown.kind_eq hshown.shows hq⟩

/-! ## Transposing in words -/

theorem transposedInWords_eq (hmeta : d.metadata = .empty) (axes : List Int) :
    d.transposedInWords axes = (do
      let perm ← ofAxes d.rank axes
      ensure (d.ReordersInWords perm)
      d.transposed axes) := by
  simp only [transposedInWords, Frame.checkPermuted_eq, hmeta, Metadata.checkTranspose_empty,
    ok_bind]

theorem transposedInWords_follows (hmeta : d.metadata = .empty) (axes : List Int) :
    Follows (d.transposedInWords axes) (d.transposed axes) := by
  rw [transposedInWords_eq hmeta]
  cases hperm : ofAxes d.rank axes with
  | error err =>
    rw [transposed, hperm]
    exact .inl rfl
  | ok perm => exact follows_ensure _ _

theorem transposedInWords_of_room (hmeta : d.metadata = .empty) (hk : 0 < d.itemSize)
    (hroom : d.shape.room d.itemSize < half) (axes : List Int) :
    d.transposedInWords axes = d.transposed axes := by
  rw [transposedInWords_eq hmeta]
  cases hperm : ofAxes d.rank axes with
  | error err =>
    rw [transposed, hperm]
    rfl
  | ok perm =>
    have horders := orders_of_ofAxes hperm
    rw [ok_bind, ensure_of (Frame.reordersInWords_of_room hk horders hroom), ok_bind]

theorem metadata_of_transposed (hmeta : d.metadata = .empty) (he : d.transposed axes = .ok e) :
    e.metadata = .empty := by
  simp only [transposed, hmeta, Metadata.onTranspose_empty, bind_eq_ok] at he
  obtain ⟨perm, -, he⟩ := he
  split at he
  · cases he
    exact (congrArg Metadata.copy hmeta).trans Metadata.copy_empty
  · simp only [bind_eq_ok, ok_bind, pure_eq_ok] at he
    obtain ⟨-, -, rfl⟩ := he
    rfl

theorem room_of_transposed (hd : d.toFrame.Sound length) (he : d.transposed axes = .ok e) :
    e.itemSize = d.itemSize ∧ e.shape.room e.itemSize = d.shape.room d.itemSize := by
  obtain ⟨perm, hperm, -⟩ := bind_eq_ok.mp he
  obtain ⟨hshape, hshares⟩ := shares_transposed he hperm
  have hitem : e.itemSize = d.itemSize := (hshares.shown hd).shows.itemSize_eq
  rw [hitem, hshape, room_apply (orders_of_ofAxes hperm)]
  exact ⟨rfl, rfl⟩

/-- Where there is room for every order, so there is for one order after another. -/
theorem transposedInWords_transposedInWords (hd : d.toFrame.Sound length)
    (hmeta : d.metadata = .empty) (hroom : d.shape.room d.itemSize < half) (axes axes' : List Int) :
    (do (← d.transposedInWords axes).transposedInWords axes') =
      (do (← d.transposed axes).transposed axes') := by
  rw [transposedInWords_of_room hmeta hd.inside.itemSize_pos hroom]
  refine bind_congr_ok fun e he => ?_
  obtain ⟨hitem, hroom'⟩ := room_of_transposed hd he
  have hk : 0 < e.itemSize := hitem ▸ hd.inside.itemSize_pos
  exact transposedInWords_of_room (metadata_of_transposed hmeta he) hk (hroom' ▸ hroom) axes'

/-- **Transposition is an action of the orders of axes.** -/
theorem transposition_acts (hd : d.toFrame.Sound length) (hmeta : d.metadata = .empty) :
    -- No names are accepted, and those of all axes; just these stand for an order.
    (∀ axes, (∃ e, d.transposed axes = .ok e) ↔
      axes = [] ∨ Permutation.NamesAll d.rank axes) ∧
    (∀ axes, ¬ (axes = [] ∨ Permutation.NamesAll d.rank axes) →
      d.transposed axes = .error (.invalidPermutation axes d.rank)) ∧
    (∀ axes, (∃ perm, Permutation.Names d.rank axes perm) ↔
      axes = [] ∨ Permutation.NamesAll d.rank axes) ∧
    -- Axis `i` of the result is axis `perm[i]` of the dataset, item by item.
    (∀ axes perm, Permutation.Names d.rank axes perm → ∃ e, d.transposed axes = .ok e ∧
      e.buffer = d.buffer ∧ e.shape = Permutation.apply perm d.shape ∧
      ∀ elements q, e.shape.contains q = true → ∃ p : Position, d.shape.contains p = true ∧
        (∀ i a : Nat, perm[i]? = some a → p[a]? = q[i]?) ∧
        e.toFrame.item elements q = d.toFrame.item elements p) ∧
    -- One order after another is the composed order.
    (∀ axes axes' p q, Permutation.Names d.rank axes p → Permutation.Names d.rank axes' q →
      ∃ pq, (∀ i : Nat, pq[i]? = q[i]?.bind (p[·]?)) ∧
        Permutation.Names d.rank (pq.map Int.ofNat) pq ∧
        (do (← d.transposed axes).transposed axes') = d.transposed (pq.map Int.ofNat)) ∧
    -- An order and its inverse lead back.
    (∀ axes p, Permutation.Names d.rank axes p →
      (∀ i a : Nat, p[i]? = some a → (Permutation.inverse p)[a]? = some i) ∧
      ∃ e, (do (← d.transposed axes).transposed ((Permutation.inverse p).map Int.ofNat)) = .ok e ∧
        e.geometry = d.geometry ∧ e.buffer = d.buffer) ∧
    -- In words the same holds where the dense strides of both shapes are words.
    (∀ axes, d.transposedInWords axes = (do
      let perm ← Permutation.ofAxes d.rank axes
      Word.ensure (d.ReordersInWords perm)
      d.transposed axes)) ∧
    (0 < d.size → d.shape.room d.itemSize < Word.half) ∧
    (d.shape.room d.itemSize < Word.half → ∀ axes axes',
      d.transposedInWords axes = d.transposed axes ∧
      (do (← d.transposedInWords axes).transposedInWords axes') =
        (do (← d.transposed axes).transposed axes')) := by
  refine ⟨fun axes => ⟨?_, ?_⟩, fun axes => transposed_of_not_names,
    fun axes => Permutation.exists_names_iff, ?_, ?_, ?_, transposedInWords_eq hmeta, hd.room_lt, ?_⟩
  · rintro ⟨e, he⟩
    by_contra hnames
    rw [transposed_of_not_names hnames] at he
    cases he
  · intro hnames
    obtain ⟨perm, hperm⟩ := Permutation.exists_names_iff.mpr hnames
    exact ⟨_, transposed_eq_through hd hmeta hperm⟩
  · intro axes perm hperm
    have he := transposed_eq_through hd hmeta hperm
    exact ⟨_, he, rfl, rfl, fun elements q hq =>
      exists_position_of_transposed hd hperm he elements hq⟩
  · intro axes axes' p q hp hq
    have horders : Permutation.Orders (Permutation.apply q p) d.rank :=
      Permutation.orders_apply hq.1 hp.1
    have hnames := Permutation.ofAxes_eq_ok_iff.mp (Permutation.ofAxes_map_ofNat horders)
    refine ⟨Permutation.apply q p, fun i => ?_, hnames, ?_⟩
    · exact Permutation.getElem?_apply (fun a ha => hp.1.length_eq ▸ hq.1.mem_iff.mp ha) i
    · rw [transposed_transposed hd hmeta hp hq, transposed_eq_through hd hmeta hnames]
  · intro axes p hp
    have hinverse := Permutation.ofAxes_eq_ok_iff.mp
      (Permutation.ofAxes_map_ofNat (Permutation.orders_inverse hp.1))
    refine ⟨fun i a hi => Permutation.getElem?_inverse hp.1 hi, _,
      transposed_transposed hd hmeta hp hinverse, ?_, rfl⟩
    rw [Permutation.apply_inverse_self hp.1, hd.permuted_range]
    exact Frame.geometry_view d.toFrame
  · intro hroom axes axes'
    exact ⟨transposedInWords_of_room hmeta hd.inside.itemSize_pos hroom axes,
      transposedInWords_transposedInWords hd hmeta hroom axes axes'⟩

/-- The numbers below twelve in two planes of three rows. -/
def planes : Block :=
  ofList (.int true .w32) [2, 3, 2] 1 ((List.range 12).map fun i => Scalar.int i)

theorem transposition_acts_planes : ∃ d e : Block, planes.flip 1 = .ok d ∧
    d.geometry = ⟨[2, 3, 2], 1, 4, [6, -2, 1]⟩ ∧ d.transposed [1, -1, 0] = .ok e ∧
    e.shape = [3, 2, 2] ∧ e.item [2, 1, 0] = d.item [0, 2, 1] ∧
    (do (← d.transposed [1, -1, 0]).transposed [1, -1, 0]) = d.transposed [2, 0, 1] ∧
    (∃ back, (do (← d.transposed [1, -1, 0]).transposed [2, 0, 1]) = .ok back ∧
      back.geometry = d.geometry) ∧
    d.transposed [0, 1, -2] = .error (.invalidPermutation [0, 1, -2] 3) ∧
    d.transposedInWords [] = d.transposed [] := by
  obtain ⟨d, hd, hgeometry, hmeta, hsound, hpos, e, he, hshape, hitem⟩ : ∃ d : Block,
      planes.flip 1 = .ok d ∧ d.geometry = ⟨[2, 3, 2], 1, 4, [6, -2, 1]⟩ ∧ d.metadata = .empty ∧
      d.Sound ∧ 0 < d.size ∧ ∃ e, d.transposed [1, -1, 0] = .ok e ∧ e.shape = [3, 2, 2] ∧
        e.item [2, 1, 0] = d.item [0, 2, 1] :=
    ⟨_, rfl, rfl, rfl, by decide +kernel, by decide, _, rfl, rfl, rfl⟩
  have hrank : d.rank = 3 := congrArg (·.shape.length) hgeometry
  have hnames : Permutation.Names d.rank [1, -1, 0] [1, 2, 0] := by
    rw [hrank]
    exact ⟨by unfold Permutation.Orders; decide, by decide⟩
  obtain ⟨-, hrefused, -, -, hcomp, hinverse, -, hroom, hwords⟩ := transposition_acts hsound hmeta
  refine ⟨d, e, hd, hgeometry, he, hshape, hitem, ?_, ?_, ?_, ?_⟩
  · obtain ⟨pq, hpq, -, htwice⟩ := hcomp _ _ _ _ hnames hnames
    obtain rfl : pq = [2, 0, 1] := List.ext_getElem? fun i => by
      rw [hpq]
      rcases i with _ | _ | _ | i <;> rfl
    exact htwice
  · obtain ⟨-, back, hback, hsame, -⟩ := hinverse _ _ hnames
    exact ⟨back, hback, hsame⟩
  · rw [← hrank]
    refine hrefused _ ?_
    rw [hrank]
    unfold Permutation.NamesAll
    decide
  · exact (hwords (hroom hpos) [] []).1

/-- Data without items, on axes so long that some of them count as negative. -/
def longAxes : Block := ofList (.int true .w32)
  [0, 9223372036854775808, 18446744073709551615, 18446744073709551615] 1 []

/-- The dense strides of data without items are words in one order of the axes and not in
another, and comparing with them stops the transposition. -/
theorem unused_strides_stop_transposition :
    zeros (.int true .w32) 1 [0, 9223372036854775808, 18446744073709551615,
      18446744073709551615] = .ok longAxes ∧
    longAxes.Sound ∧ longAxes.metadata = .empty ∧ longAxes.HasStrides ∧
    Permutation.NamesAll longAxes.rank [0, 2, 1, 3] ∧
    (∃ e, longAxes.transposed [0, 2, 1, 3] = .ok e ∧
      e.geometry = ⟨[0, 18446744073709551615, 9223372036854775808, 18446744073709551615], 1, 0,
        [-9223372036854775808, -1, 1, 1]⟩) ∧
    longAxes.transposedInWords [0, 2, 1, 3] = .error (.fault .overflow) :=
  ⟨rfl, by decide +kernel, rfl, by decide, by unfold Permutation.NamesAll; decide, ⟨_, rfl, rfl⟩,
    rfl⟩

end Dataset

end Hyperslab
