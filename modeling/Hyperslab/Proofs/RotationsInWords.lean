import Hyperslab.Proofs.Rotations

/-!
# Rotations and flips in words

A flip turns a stride around, and the most negative word has no opposite among the words. Nothing
else stops flips and rotations of data that takes up less than half of the words: they give just the
views that have strides in words. If no stride is as long as half of the words, then none of the
views has such a stride, and the laws of rotations and flips hold in words as well.

A stride that long can only be that of a unit axis, where there are items: it leads nowhere.
-/
namespace Hyperslab

open Dataset List Permutation Region Shape Word

/-! ## Strides that can be turned around -/

namespace Placement

variable {x : Placement}

/-- No stride is as long as half of the words. -/
def Short (x : Placement) : Prop := ∀ t ∈ x.strides, t.natAbs < Word.half

theorem Short.allFit (h : x.Short) : AllFit x.strides := by
  intro t ht
  have := h t ht
  rw [fits_iff]
  omega

theorem Short.flipped (h : x.Short) (a : Nat) : (x.flipped a).Short := by
  rw [Placement.flipped]
  split
  · intro t ht
    obtain ⟨i, hi⟩ := mem_iff_getElem?.mp ht
    rw [getElem?_modify, Option.map_eq_map, Option.map_eq_some_iff] at hi
    obtain ⟨t, hget, rfl⟩ := hi
    have hshort := h t (mem_of_getElem? hget)
    split
    · rwa [Int.natAbs_neg]
    · exact hshort
  · exact h

theorem Short.swapped (h : x.Short) : x.swapped.Short := by
  unfold Placement.swapped
  split
  · intro t ht
    exact h t ((Perm.swap ..).mem_iff.mp ht)
  · exact h

/-- A quarter turn keeps the strides up to their signs, and so do any number of them. -/
theorem Short.turned (h : x.Short) (n : Nat) : (Placement.turned^[n] x).Short := by
  induction n generalizing x with
  | zero => exact h
  | succ n ih =>
    exact ih (h.swapped.flipped 0)

/-- Flipping both axes of a plane meets no stride that is not among those before and after. -/
theorem allFit_flipped_zero (h : x.HasPlane) (hbefore : AllFit x.strides)
    (hafter : AllFit ((x.flipped 0).flipped 1).strides) : AllFit (x.flipped 0).strides := by
  obtain ⟨m, n, s, first, t, u, ts, rfl⟩ := h
  rw [flipped_zero] at hafter ⊢
  by_cases hm : 0 < signed m
  · rw [if_pos hm] at hafter ⊢
    rw [flipped_one] at hafter
    have ht : fits (-t) := by
      split at hafter <;> exact (allFit_cons.mp hafter).1
    exact allFit_cons.mpr ⟨ht, (allFit_cons.mp hbefore).2⟩
  · rwa [if_neg hm]

end Placement

/-! ## Room in the words -/

theorem Shape.room_of_perm {s t : Shape} {itemSize : Nat} (h : s.Perm t) :
    s.room itemSize = t.room itemSize := by
  rw [room, room, size_eq_prod, size_eq_prod, (h.map _).prod_eq]

/-- The frame takes up less than half of the words, and so does every stride. -/
structure Frame.Turnable (f : Frame) : Prop where
  room : f.shape.room f.itemSize < Word.half
  short : ∀ t ∈ f.strides, t.natAbs < Word.half

/-- Where there are items, only the strides of unit axes may be as long as half of the words. -/
theorem Geometry.Inside.natAbs_lt {g : Geometry} {length : Nat} (h : g.Inside length)
    (hs : 0 < g.shape.size) (hunit : ∀ x ∈ zip g.shape g.strides, x.1 = 1 → x.2.natAbs < half) :
    ∀ t ∈ g.strides, t.natAbs < half := by
  intro t ht
  obtain ⟨a, hget⟩ := mem_iff_getElem?.mp ht
  have ha : a < g.shape.length := by
    rw [← h.length_strides]
    exact (List.getElem?_eq_some_iff.mp hget).1
  have hshape : g.shape[a]? = some g.shape[a] := getElem?_eq_getElem ha
  by_cases hone : g.shape[a] = 1
  · have hzip : (g.shape[a], t) ∈ zip g.shape g.strides :=
      mem_of_getElem? (getElem?_zip_eq_some.mpr ⟨hshape, hget⟩)
    exact hunit _ hzip hone
  · have hpos : 0 < g.shape[a] := pos_of_mem hs (getElem_mem ha)
    have hstride : |t| < length := h.abs_stride_lt hs hshape hget (by omega)
    have hbuffer := h.length_lt
    rw [Int.abs_eq_natAbs] at hstride
    omega

namespace Frame

variable {f : Frame} {length : Nat}

theorem Turnable.allFit (h : f.Turnable) : AllFit f.strides :=
  Placement.Short.allFit (x := f.geometry.placement) h.short

theorem elements_congr {g : Frame} (hkind : f.kind = g.kind) (hgeometry : f.geometry = g.geometry)
    (b : Elements) : f.elements b = g.elements b := by
  have hitem : f.itemSize = g.itemSize := congrArg Geometry.itemSize hgeometry
  have hitemAt : f.itemAt b = g.itemAt b := by
    funext i
    rw [itemAt, itemAt, hitem, hkind]
  rw [elements, elements, items, items, hgeometry, hitemAt]

theorem Sound.turnable (h : f.Sound length) (hpos : 0 < f.size)
    (hunit : ∀ x ∈ zip f.shape f.strides, x.1 = 1 → x.2.natAbs < half) : f.Turnable :=
  ⟨h.room_lt hpos, h.inside.natAbs_lt hpos hunit⟩

end Frame

namespace Dataset

variable {β : Type} {d e : Dataset β} {f : Placement → Placement} {length a : Nat} {axis : Int}

theorem Placed.room_eq (h : e.Placed d f length) (hf : ∀ x, (f x).shape.Perm x.shape) :
    e.shape.room e.itemSize = d.shape.room d.itemSize := by
  rw [h.itemSize_eq, room_of_perm (h.perm_shape hf)]

theorem Placed.turnable (h : e.Placed d f length) (hf : ∀ x, (f x).shape.Perm x.shape)
    (hshort : ∀ x, x.Short → (f x).Short) (hd : d.Turnable) : e.Turnable := by
  have hstrides : e.strides = (f d.geometry.placement).strides :=
    congrArg Placement.strides h.placement_eq
  refine ⟨by rw [h.room_eq hf]; exact hd.room, ?_⟩
  rw [hstrides]
  exact hshort d.geometry.placement hd.short

/-! ## Flips -/

theorem flip_of_error {err : Error} (haxis : Shape.normalizeAxis axis d.rank = .error err) :
    d.flip axis = .error err ∧ d.flipInWords axis = .error err := by
  have hrank : (Region.full d.shape).rank = d.rank := by
    simp [Region.rank, Region.full, Frame.rank]
  have hflip : (Region.full d.shape).flip axis = .error err := by
    rw [Region.flip, hrank, haxis]
    rfl
  rw [Dataset.flip, flipInWords, hflip]
  exact ⟨rfl, rfl⟩

theorem flipInWords_eq (hd : d.Bare length)
    (haxis : normalizeAxis axis d.rank = .ok a) : d.flipInWords axis = (do
      ensure (d.ViewsInWords (backward d.shape a))
      d.flip axis) := by
  have ha := normalizeAxis_lt haxis
  rw [flipInWords, flip, flip_full haxis, ok_bind, ok_bind,
    sliceViewInWords_of_empty hd.sound hd.metadata_eq (valid_backward ha) rfl]

theorem flipInWords_follows (hd : d.Bare length) (axis : Int) :
    Follows (d.flipInWords axis) (d.flip axis) := by
  cases haxis : normalizeAxis axis d.rank with
  | error err =>
    obtain ⟨hflip, hwords⟩ := flip_of_error haxis
    exact .inl (hwords.trans hflip.symm)
  | ok a =>
    rw [flipInWords_eq hd haxis]
    exact follows_ensure _ _

/-- **A flip of data that takes up less than half of the words is given just if its strides are
words.** -/
theorem flipInWords_of_room (hd : d.Bare length) (hroom : d.shape.room d.itemSize < half)
    (haxis : normalizeAxis axis d.rank = .ok a) (he : d.flip axis = .ok e) :
    d.flipInWords axis = (do ensure (AllFit e.strides); .ok e) := by
  obtain ⟨e', he', hplaced⟩ := exists_flip hd haxis
  obtain rfl : e = e' := Except.ok.inj (he.symm.trans he')
  have ha : a < d.shape.length := normalizeAxis_lt haxis
  have hk : 0 < d.itemSize := hd.sound.inside.itemSize_pos
  have hpacked := stridesFit_of_room hk hroom
  have hshape := shape_backward ha
  have hstrides : e.strides = (d.geometry.slice (backward d.shape a)).strides :=
    congrArg Placement.strides
      (hplaced.placement_eq.trans (hd.sound.inside.placement_backward ha).symm)
  have hviews : d.ViewsInWords (backward d.shape a) ↔ AllFit e.strides := by
    rw [Frame.viewsInWords_iff, hshape, hstrides]
    exact ⟨fun h => h.2.2.1, fun h => ⟨fun _ => hpacked, sizeChecked_of_room hk hroom, h, hpacked⟩⟩
  rw [flipInWords_eq hd haxis, ensure_congr hviews, he]

/-! ## Quarter turns -/

theorem swapAxesInWords_of_room (hd : d.Bare length) (hroom : d.shape.room d.itemSize < half)
    (i j : Int) : d.swapAxesInWords i j = d.swapAxes i j := by
  simp only [swapAxesInWords, swapAxes,
    transposedInWords_of_room hd.metadata_eq hd.sound.inside.itemSize_pos hroom]

theorem viewInWords_of_room (hd : d.Bare length)
    (hroom : d.shape.room d.itemSize < half) : d.viewInWords = .ok d.view := by
  have hk : 0 < d.itemSize := hd.sound.inside.itemSize_pos
  rw [viewInWords, Frame.checkPermuted_eq,
    ensure_of (Frame.reordersInWords_of_room hk (orders_range _) hroom), hd.metadata_eq]
  rfl

section

variable (hd : d.Bare length) (hrank : 2 ≤ d.rank) (hroom : d.shape.room d.itemSize < half)
include hd hrank hroom

/-- An exchange of axes and a flip are given just if the strides of the result are words. -/
theorem swapAxesInWords_flipInWords {a : Nat} (ha : a < d.rank)
    (he : (do (← d.swapAxes 0 1).flip a) = .ok e) :
    (do (← d.swapAxesInWords 0 1).flipInWords a) = (do ensure (AllFit e.strides); .ok e) := by
  obtain ⟨u, hu, hswap⟩ := exists_swapAxes hd hrank
  have hurank : u.rank = d.rank := hswap.rank_eq Placement.perm_shape_swapped
  have huroom := hswap.room_eq Placement.perm_shape_swapped
  rw [hu] at he
  rw [swapAxesInWords_of_room hd hroom, hu]
  exact flipInWords_of_room hswap.toBare (huroom ▸ hroom) (normalizeAxis_natCast (hurank ▸ ha)) he

theorem flipInWords_flipInWords (hfit : AllFit d.strides) (he : (do (← d.flip 0).flip 1) = .ok e) :
    (do (← d.flipInWords 0).flipInWords 1) = (do ensure (AllFit e.strides); .ok e) := by
  have hzero : normalizeAxis 0 d.rank = .ok 0 := normalizeAxis_natCast (a := 0) (by omega)
  obtain ⟨u, hu, hfirst⟩ := exists_flip hd hzero
  have hurank : u.rank = d.rank := hfirst.rank_eq (Placement.perm_shape_flipped 0)
  have huroom := hfirst.room_eq (Placement.perm_shape_flipped 0)
  have hone : normalizeAxis 1 u.rank = .ok 1 := normalizeAxis_natCast (a := 1) (by omega)
  obtain ⟨e', he', hsecond⟩ := exists_flip hfirst.toBare hone
  rw [hu] at he
  obtain rfl : e = e' := Except.ok.inj (he.symm.trans he')
  -- The first flip turns only a stride around that the second one leaves.
  have hbetween : AllFit e.strides → AllFit u.strides := by
    have hustrides : u.strides = (d.geometry.placement.flipped 0).strides :=
      congrArg Placement.strides hfirst.placement_eq
    have hestrides : e.strides = ((d.geometry.placement.flipped 0).flipped 1).strides :=
      congrArg Placement.strides (hsecond.trans hfirst).placement_eq
    rw [hustrides, hestrides]
    exact Placement.allFit_flipped_zero (hd.sound.inside.hasPlane hrank) hfit
  rw [flipInWords_of_room hd hroom hzero hu]
  simp only [bind_assoc, ok_bind]
  rw [flipInWords_of_room hfirst.toBare (huroom ▸ hroom) hone he,
    ensure_and, ensure_congr (and_iff_right_of_imp hbetween)]

/-- **Data that takes up less than half of the words is turned just if the strides of the result
are words.** -/
theorem rot90InWords_of_room {k : Int} (hfit : AllFit d.strides) (he : d.rot90 k = .ok e) :
    d.rot90InWords k = (do ensure (AllFit e.strides); .ok e) := by
  have hcheck : d.checkPlane = .ok () := if_neg (by omega)
  rw [rot90, hcheck] at he
  rw [rot90InWords, hcheck]
  have hturns := turns_cases k
  generalize (k % 4).toNat = n at hturns he ⊢
  obtain rfl | rfl | rfl | rfl := hturns
  · obtain rfl : d.view = e := pure_eq_ok.mp he
    have hstrides : d.view.strides = d.strides :=
      congrArg Geometry.strides (Frame.geometry_view d.toFrame)
    rw [hstrides, ensure_of hfit]
    exact viewInWords_of_room hd hroom
  · exact swapAxesInWords_flipInWords (a := 0) hd hrank hroom (by omega) he
  · exact flipInWords_flipInWords hd hrank hroom hfit he
  · exact swapAxesInWords_flipInWords (a := 1) hd hrank hroom (by omega) he

end

theorem viewInWords_follows (d : Dataset β) : Follows d.viewInWords (.ok d.view) := by
  rw [viewInWords, Frame.checkPermuted_eq, Metadata.checkCopy_eq, ensure_and]
  exact follows_ensure _ _

/-- **What is turned in words is turned as over exact integers.** -/
theorem rot90InWords_follows (hd : d.Bare length)
    (hrank : 2 ≤ d.rank) (k : Int) : Follows (d.rot90InWords k) (d.rot90 k) := by
  have hcheck : d.checkPlane = .ok () := if_neg (by omega)
  have hswapped : Follows (d.swapAxesInWords 0 1) (d.swapAxes 0 1) := by
    rw [swapAxesInWords, swapAxes, swapping_plane hrank]
    exact transposedInWords_follows hd.metadata_eq _
  obtain ⟨u, hu, hswap⟩ := exists_swapAxes hd hrank
  have hturned (axis : Int) : Follows (do (← d.swapAxesInWords 0 1).flipInWords axis)
      (do (← d.swapAxes 0 1).flip axis) := by
    refine hswapped.bind fun e he => ?_
    obtain rfl : u = e := Except.ok.inj (hu.symm.trans he)
    exact flipInWords_follows hswap.toBare axis
  obtain ⟨v, hv, hfirst⟩ := exists_flip_of_lt (a := 0) hd (by omega)
  have hflipped : Follows (do (← d.flipInWords 0).flipInWords 1) (do (← d.flip 0).flip 1) := by
    refine (flipInWords_follows hd 0).bind fun e he => ?_
    obtain rfl : v = e := Except.ok.inj (hv.symm.trans he)
    exact flipInWords_follows hfirst.toBare 1
  rw [rot90, rot90InWords, hcheck, ok_bind]
  have hturns := turns_cases k
  generalize (k % 4).toNat = n at hturns ⊢
  obtain rfl | rfl | rfl | rfl := hturns
  · exact viewInWords_follows d
  · exact hturned 0
  · exact hflipped
  · exact hturned 1

/-! ## Turning as often as one likes -/

theorem Placed.turnable_flipped (h : e.Placed d (Placement.flipped a) length) (hd : d.Turnable) :
    e.Turnable :=
  h.turnable (Placement.perm_shape_flipped a) (fun _ hx => hx.flipped a) hd

theorem Placed.turnable_turned {n : Nat} (h : e.Placed d Placement.turned^[n] length)
    (hd : d.Turnable) : e.Turnable :=
  h.turnable (Placement.perm_shape_turned n) (fun _ hx => hx.turned n) hd

section

variable (h : d.Turnable) (hd : d.Bare length)
include h hd

/-- Where no stride is as long as half of the words, every flip is given. -/
theorem flipInWords_of_turnable (axis : Int) : d.flipInWords axis = d.flip axis := by
  cases haxis : normalizeAxis axis d.rank with
  | error err =>
    obtain ⟨hflip, hwords⟩ := flip_of_error haxis
    rw [hflip, hwords]
  | ok a =>
    obtain ⟨e, he, hplaced⟩ := exists_flip hd haxis
    rw [flipInWords_of_room hd h.room haxis he, ensure_of (hplaced.turnable_flipped h).allFit, he]
    rfl

/-- Where no stride is as long as half of the words, every turn is given. -/
theorem rot90InWords_of_turnable (hrank : 2 ≤ d.rank) (k : Int) : d.rot90InWords k = d.rot90 k := by
  obtain ⟨e, he, hplaced⟩ := exists_rot90 hd hrank k
  rw [rot90InWords_of_room hd hrank h.room h.allFit he,
    ensure_of (hplaced.turnable_turned h).allFit, he]
  rfl

theorem rot90InWords_rot90InWords (hrank : 2 ≤ d.rank) (j k : Int) :
    (do (← d.rot90InWords j).rot90InWords k) = (do (← d.rot90 j).rot90 k) := by
  obtain ⟨u, hu, hplaced⟩ := exists_rot90 hd hrank j
  have hurank : u.rank = d.rank := hplaced.rank_eq (Placement.perm_shape_turned _)
  rw [rot90InWords_of_turnable h hd hrank, hu, ok_bind]
  exact rot90InWords_of_turnable (hplaced.turnable_turned h) hplaced.toBare (by omega) k

theorem flipInWords_twice (haxis : normalizeAxis axis d.rank = .ok a) :
    (do (← d.flipInWords axis).flipInWords axis) = (do (← d.flip axis).flip axis) := by
  obtain ⟨u, hu, hplaced⟩ := exists_flip hd haxis
  rw [flipInWords_of_turnable h hd, hu, ok_bind]
  exact flipInWords_of_turnable (hplaced.turnable_flipped h) hplaced.toBare axis

theorem flipInWords_rot90InWords_flipInWords (hrank : 2 ≤ d.rank) :
    (do (← (← d.flipInWords 0).rot90InWords 1).flipInWords 0) =
      (do (← (← d.flip 0).rot90 1).flip 0) := by
  obtain ⟨u, hu, hfirst⟩ := exists_flip_of_lt (a := 0) hd (by omega)
  have hu : d.flip 0 = .ok u := hu
  have hurank : u.rank = d.rank := hfirst.rank_eq (Placement.perm_shape_flipped 0)
  obtain ⟨v, hv, hturn⟩ := exists_rot90 hfirst.toBare (by omega) 1
  have huturnable := hfirst.turnable_flipped h
  rw [flipInWords_of_turnable h hd, hu]
  simp only [ok_bind]
  rw [rot90InWords_of_turnable huturnable hfirst.toBare (by omega), hv, ok_bind]
  exact flipInWords_of_turnable (hturn.turnable_turned huturnable) hturn.toBare 0

end

/-- **Rotations and flips obey the laws of the symmetries of a square.** -/
theorem rotations_are_dihedral (hd : d.toFrame.Sound length) (hmeta : d.metadata = .empty)
    (hrank : 2 ≤ d.rank) :
    -- Turns by right angles add up.
    (∀ j k : Int, ∃ u v w, d.rot90 j = .ok u ∧ u.rot90 k = .ok v ∧ d.rot90 (j + k) = .ok w ∧
      u.buffer = d.buffer ∧ v.buffer = d.buffer ∧ w.buffer = d.buffer ∧
      v.geometry = w.geometry ∧ ∀ b, v.toFrame.elements b = w.toFrame.elements b) ∧
    -- A flip undoes itself.
    (∀ axis a, Shape.normalizeAxis axis d.rank = .ok a → ∃ u v, d.flip axis = .ok u ∧
      u.flip axis = .ok v ∧ u.buffer = d.buffer ∧ v.buffer = d.buffer ∧ v.geometry = d.geometry) ∧
    -- A quarter turn between two flips is a turn the other way.
    (∃ u v w z, d.flip 0 = .ok u ∧ u.rot90 1 = .ok v ∧ v.flip 0 = .ok w ∧ d.rot90 (-1) = .ok z ∧
      u.buffer = d.buffer ∧ v.buffer = d.buffer ∧ w.buffer = d.buffer ∧ z.buffer = d.buffer ∧
      w.geometry = z.geometry ∧ ∀ b, w.toFrame.elements b = z.toFrame.elements b) ∧
    -- What a flip and a quarter turn show.
    (∀ axis a u, Shape.normalizeAxis axis d.rank = .ok a → d.flip axis = .ok u →
      u.shape = d.shape ∧ ∀ b q, u.shape.contains q = true →
        u.toFrame.item b q = d.toFrame.item b (q.mirror d.shape a)) ∧
    (∀ m n s u, d.shape = m :: n :: s → d.rot90 1 = .ok u → u.shape = n :: m :: s ∧
      ∀ b i j q, u.shape.contains (i :: j :: q) = true →
        u.toFrame.item b (i :: j :: q) = d.toFrame.item b (j :: (n - 1 - i) :: q)) ∧
    -- In words the same views are given, if any. Only strides that have no opposite stop a flip or
    -- a turn of data that takes up less than half of the words.
    (∀ axis a, Shape.normalizeAxis axis d.rank = .ok a → d.flipInWords axis = (do
      Word.ensure (d.ViewsInWords (Region.backward d.shape a))
      d.flip axis)) ∧
    (∀ k, Word.Follows (d.rot90InWords k) (d.rot90 k)) ∧
    (d.shape.room d.itemSize < Word.half → Word.AllFit d.strides →
      (∀ axis u, d.flip axis = .ok u →
        d.flipInWords axis = (do Word.ensure (Word.AllFit u.strides); .ok u)) ∧
      (∀ k u, d.rot90 k = .ok u →
        d.rot90InWords k = (do Word.ensure (Word.AllFit u.strides); .ok u))) ∧
    -- The laws hold in words where no stride is as long as half of them.
    (d.Turnable →
      (∀ j k : Int, (do (← d.rot90InWords j).rot90InWords k) = (do (← d.rot90 j).rot90 k)) ∧
      (∀ k, d.rot90InWords k = d.rot90 k) ∧
      (∀ axis a, Shape.normalizeAxis axis d.rank = .ok a →
        (do (← d.flipInWords axis).flipInWords axis) = (do (← d.flip axis).flip axis)) ∧
      (do (← (← d.flipInWords 0).rot90InWords 1).flipInWords 0) =
        (do (← (← d.flip 0).rot90 1).flip 0)) ∧
    (0 < d.size → d.shape.room d.itemSize < Word.half ∧
      ((∀ x ∈ List.zip d.shape d.strides, x.1 = 1 → x.2.natAbs < Word.half) → d.Turnable)) := by
  have hbare : d.Bare length := ⟨hd, hmeta⟩
  refine ⟨fun j k => ?_, fun axis a haxis => ?_, ?_, fun axis a u haxis hu => ?_,
    fun m n s u hshape hu => ?_, fun axis a => flipInWords_eq hbare,
    rot90InWords_follows hbare hrank, fun hroom hfit => ?_, fun hturnable => ?_,
    fun hpos => ⟨hd.room_lt hpos, hd.turnable hpos⟩⟩
  · obtain ⟨u, v, w, hu, hv, hw, huplaced, hvplaced, hwplaced⟩ :=
      exists_rot90_rot90 hbare hrank j k
    have hgeometry := hvplaced.geometry_eq hwplaced rfl
    have hkind := hvplaced.kind_eq.trans hwplaced.kind_eq.symm
    exact ⟨u, v, w, hu, hv, hw, huplaced.buffer_eq, hvplaced.buffer_eq, hwplaced.buffer_eq,
      hgeometry, Frame.elements_congr hkind hgeometry⟩
  · obtain ⟨u, v, hu, hv, huplaced, hvplaced⟩ := exists_flip_flip hbare haxis
    exact ⟨u, v, hu, hv, huplaced.buffer_eq, hvplaced.buffer_eq,
      Geometry.eq_of_placement hvplaced.itemSize_eq hvplaced.placement_eq⟩
  · obtain ⟨u, v, w, z, hu, hv, hw, hz, huplaced, hvplaced, hwplaced, hzplaced⟩ :=
      exists_flip_rot90_flip hbare hrank
    have hgeometry := hwplaced.geometry_eq hzplaced rfl
    have hkind := hwplaced.kind_eq.trans hzplaced.kind_eq.symm
    exact ⟨u, v, w, z, hu, hv, hw, hz, huplaced.buffer_eq, hvplaced.buffer_eq, hwplaced.buffer_eq,
      hzplaced.buffer_eq, hgeometry, Frame.elements_congr hkind hgeometry⟩
  · exact ⟨(shares_flip hd hu).1, fun b q hq => item_flip hd haxis hu b hq⟩
  · have hushape := shape_quarter_turn hbare hshape hu
    exact ⟨hushape, fun b i j q hq => item_quarter_turn hd hushape hu b hq⟩
  · refine ⟨fun axis u hu => ?_, fun k u hu =>
      rot90InWords_of_room hbare hrank hroom hfit hu⟩
    cases haxis : Shape.normalizeAxis axis d.rank with
    | error err =>
      rw [(flip_of_error haxis).1] at hu
      cases hu
    | ok a => exact flipInWords_of_room hbare hroom haxis hu
  · exact ⟨rot90InWords_rot90InWords hturnable hbare hrank,
      rot90InWords_of_turnable hturnable hbare hrank,
      fun axis a => flipInWords_twice hturnable hbare,
      flipInWords_rot90InWords_flipInWords hturnable hbare hrank⟩

/-- Two rows of three pairs. -/
def pairTable : Block :=
  ofList (.int true .w32) [2, 3] 2 ((List.range 12).map fun i => Scalar.int i)

theorem rotations_are_dihedral_pairs : ∃ d u v w : Block, pairTable.flip 1 = .ok d ∧
    d.geometry = ⟨[2, 3], 2, 4, [6, -2]⟩ ∧
    d.rot90 3 = .ok u ∧ u.rot90 6 = .ok v ∧ d.rot90 (3 + 6) = .ok w ∧
    v.geometry = w.geometry ∧ w.shape = [3, 2] ∧ w.item [0, 1] = d.item [1, 2] ∧
    (∃ x y, d.flip (-1) = .ok x ∧ x.flip (-1) = .ok y ∧ y.geometry = d.geometry ∧
      x.item [1, 0] = d.item [1, 2]) ∧
    (∃ x z, (do (← (← d.flip 0).rot90 1).flip 0) = .ok x ∧ d.rot90 (-1) = .ok z ∧
      x.geometry = z.geometry) ∧
    d.Turnable ∧ (do (← d.rot90InWords 3).rot90InWords 6) = .ok v := by
  have hturns (d : Block) (hsound : d.Sound) (hmeta : d.metadata = .empty)
      (hgeometry : d.geometry = ⟨[2, 3], 2, 4, [6, -2]⟩) : d.Turnable ∧
      (do (← d.rot90InWords 3).rot90InWords 6) = (do (← d.rot90 3).rot90 6) := by
    have hshape : d.shape = [2, 3] := congrArg Geometry.shape hgeometry
    have hstrides : d.strides = [6, -2] := congrArg Geometry.strides hgeometry
    obtain ⟨-, -, -, -, -, -, -, -, hwords, hpos⟩ :=
      rotations_are_dihedral hsound hmeta (congrArg List.length hshape).ge
    have hturnable : d.Turnable :=
      (hpos (by rw [Frame.size, hshape]; decide)).2 (by rw [hshape, hstrides]; decide)
    exact ⟨hturnable, (hwords hturnable).1 3 6⟩
  exact ⟨_, _, _, _, rfl, rfl, rfl, rfl, rfl, by decide +kernel, rfl, rfl,
    ⟨_, _, rfl, rfl, rfl, rfl⟩, ⟨_, _, rfl, rfl, by decide +kernel⟩,
    hturns _ (by decide +kernel) rfl rfl⟩

def tenRows : Block := ofList (.int true .w32) [10, 2] 1 ((List.range 20).map fun i => Scalar.int i)

/-- One row, with a step so long that the stride is the most negative word. -/
def sixthRow : Region :=
  ⟨[10, 2], none, [⟨5, -1, -4611686018427387904, 1⟩, ⟨0, 2, 1, 2⟩], false, .none⟩

/-- The most negative word has no opposite, so an axis with that stride cannot be flipped, although
it has one position only and the stride leads nowhere. -/
theorem longest_stride_stops_flips : ∃ d : Block, tenRows.sliceViewInWords sixthRow = .ok d ∧
    d.Sound ∧ d.metadata = .empty ∧ d.geometry = ⟨[1, 2], 1, 10, [-9223372036854775808, 1]⟩ ∧
    (∃ e, (do (← d.flip 0).flip 0) = .ok e ∧ e.geometry = d.geometry) ∧
    (do (← d.flipInWords 0).flipInWords 0) = .error (.fault .overflow) ∧
    (∃ e, (do (← d.rot90 1).rot90 1) = .ok e) ∧
    (do (← d.rot90InWords 1).rot90InWords 1) = .error (.fault .overflow) :=
  ⟨_, rfl, by decide +kernel, rfl, by decide +kernel, ⟨_, rfl, by decide +kernel⟩, rfl, ⟨_, rfl⟩,
    rfl⟩

end Dataset

end Hyperslab
