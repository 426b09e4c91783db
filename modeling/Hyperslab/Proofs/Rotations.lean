import Hyperslab.Proofs.Transpositions
import Mathlib.Dynamics.PeriodicPts.Defs

/-!
# Rotations and flips

Flips and rotations are views, so they are known by the shape, the first index and the strides that
they lead to. On these, over exact integers, a flip moves the first index to the other end of an
axis and turns its stride around, and a quarter turn exchanges the first two axes and flips one of
them. A flip undoes itself, four quarter turns lead back, and a quarter turn between two flips is a
turn the other way.
-/
namespace Hyperslab

open List Permutation Region Shape Word

variable {s : Shape} {a : Nat}

/-- A shape, the index of its first item, and strides. -/
@[ext] structure Placement where
  shape : Shape
  first : Int
  strides : Strides

namespace Placement

variable {x : Placement}

/-- One axis in the opposite order. An axis that is empty, or so long that it counts as negative,
stays as it is. -/
def flipped (a : Nat) (x : Placement) : Placement :=
  if 0 < Word.signed (x.shape.getD a 0) then
    { x with
      first := x.first +
        if x.shape.size = 0 then 0 else ((x.shape.getD a 0 : Int) - 1) * x.strides.getD a 0
      strides := x.strides.modify a Neg.neg }
  else x

/-- The first two axes exchanged. -/
def swapped : Placement → Placement
  | ⟨m :: n :: s, first, t :: u :: ts⟩ => ⟨n :: m :: s, first, u :: t :: ts⟩
  | x => x

/-- A quarter turn in the plane of the first two axes. -/
def turned (x : Placement) : Placement := x.swapped.flipped 0

/-- There are two axes to turn. -/
def HasPlane (x : Placement) : Prop :=
  ∃ m n s first t u ts, x = ⟨m :: n :: s, first, t :: u :: ts⟩

@[simp] theorem shape_flipped (a : Nat) (x : Placement) : (x.flipped a).shape = x.shape := by
  rw [flipped]
  split <;> rfl

theorem perm_shape_flipped (a : Nat) (x : Placement) : (x.flipped a).shape.Perm x.shape :=
  Perm.of_eq (shape_flipped a x)

theorem perm_shape_swapped (x : Placement) : x.swapped.shape.Perm x.shape := by
  unfold swapped
  split
  · exact Perm.swap ..
  · exact Perm.refl _

theorem perm_shape_turned (n : Nat) (x : Placement) : (turned^[n] x).shape.Perm x.shape := by
  induction n generalizing x with
  | zero => exact Perm.refl _
  | succ n ih =>
    have hone : (turned x).shape.Perm x.shape := by
      rw [turned, shape_flipped]
      exact perm_shape_swapped x
    exact (ih (turned x)).trans hone

/-! ## Laws -/

theorem getD_modify_neg (ts : Strides) (a : Nat) :
    (ts.modify a Neg.neg).getD a 0 = -ts.getD a 0 := by
  rw [getD_eq_getElem?_getD, getD_eq_getElem?_getD, getElem?_modify]
  cases ts[a]? <;> simp

theorem modify_neg_modify_neg (ts : Strides) (a : Nat) :
    (ts.modify a Neg.neg).modify a Neg.neg = ts := by
  have hneg : (Neg.neg ∘ Neg.neg : Int → Int) = id := by
    funext t
    exact neg_neg t
  rw [modify_modify_eq, hneg, modify_id]

theorem getD_modify_of_ne {ts : Strides} {a b : Nat} (hab : a ≠ b) :
    (ts.modify a Neg.neg).getD b 0 = ts.getD b 0 := by
  simp [hab]

/-- **A flip undoes itself.** -/
theorem flipped_flipped (a : Nat) (x : Placement) : (x.flipped a).flipped a = x := by
  unfold flipped
  by_cases hturns : 0 < signed (x.shape.getD a 0)
  · simp only [if_pos hturns]
    ext1
    · rfl
    · simp only [getD_modify_neg]
      split <;> ring
    · exact modify_neg_modify_neg x.strides a
  · simp only [if_neg hturns]

theorem flipped_comm (a b : Nat) (x : Placement) :
    (x.flipped a).flipped b = (x.flipped b).flipped a := by
  by_cases hab : a = b
  · rw [hab]
  unfold flipped
  by_cases ha : 0 < signed (x.shape.getD a 0) <;> by_cases hb : 0 < signed (x.shape.getD b 0)
  · simp only [if_pos ha, if_pos hb]
    ext1
    · rfl
    · simp only [getD_modify_of_ne hab, getD_modify_of_ne (Ne.symm hab)]
      ring
    · exact modify_modify_ne _ _ _ hab
  all_goals simp only [if_pos, if_neg, ha, hb, not_false_eq_true]

/-! ## The plane of the first two axes -/

section Plane

variable (m n : Nat) (s : Shape) (first t u : Int) (ts : Strides)

theorem flipped_zero : flipped 0 ⟨m :: n :: s, first, t :: u :: ts⟩ =
    if 0 < signed m then
      ⟨m :: n :: s, first + if m * (n * s.size) = 0 then 0 else ((m : Int) - 1) * t, -t :: u :: ts⟩
    else ⟨m :: n :: s, first, t :: u :: ts⟩ := rfl

theorem flipped_one : flipped 1 ⟨m :: n :: s, first, t :: u :: ts⟩ =
    if 0 < signed n then
      ⟨m :: n :: s, first + if m * (n * s.size) = 0 then 0 else ((n : Int) - 1) * u, t :: -u :: ts⟩
    else ⟨m :: n :: s, first, t :: u :: ts⟩ := rfl

end Plane

section

variable (h : x.HasPlane)
include h

theorem HasPlane.swapped : x.swapped.HasPlane := by
  obtain ⟨m, n, s, first, t, u, ts, rfl⟩ := h
  exact ⟨n, m, s, first, u, t, ts, rfl⟩

theorem HasPlane.flipped (a : Nat) : (x.flipped a).HasPlane := by
  obtain ⟨m, n, s, first, t, u, ts, rfl⟩ := h
  unfold Placement.flipped
  split
  · rcases a with _ | _ | a <;> exact ⟨_, _, _, _, _, _, _, rfl⟩
  · exact ⟨_, _, _, _, _, _, _, rfl⟩

theorem swapped_swapped : x.swapped.swapped = x := by
  obtain ⟨m, n, s, first, t, u, ts, rfl⟩ := h
  rfl

/-- Flipping the first axis and exchanging the two is exchanging them and flipping the second. -/
theorem swapped_flipped_zero : (x.flipped 0).swapped = x.swapped.flipped 1 := by
  obtain ⟨m, n, s, first, t, u, ts, rfl⟩ := h
  rw [Placement.swapped, flipped_one, flipped_zero, Nat.mul_left_comm]
  split <;> rfl

theorem swapped_flipped_one : (x.flipped 1).swapped = x.swapped.flipped 0 := by
  obtain ⟨m, n, s, first, t, u, ts, rfl⟩ := h
  rw [Placement.swapped, flipped_one, flipped_zero, Nat.mul_left_comm]
  split <;> rfl

theorem turned_two : turned^[2] x = (x.flipped 0).flipped 1 :=
  calc turned^[2] x = ((x.swapped.flipped 0).swapped).flipped 0 := rfl
    _ = (x.swapped.swapped.flipped 1).flipped 0 := by rw [swapped_flipped_zero h.swapped]
    _ = (x.flipped 0).flipped 1 := by rw [swapped_swapped h, flipped_comm]

theorem turned_three : turned^[3] x = x.swapped.flipped 1 :=
  calc turned^[3] x = turned (turned^[2] x) := Function.iterate_succ_apply' ..
    _ = ((x.flipped 1).flipped 0).swapped.flipped 0 := by rw [turned_two h, flipped_comm]; rfl
    _ = ((x.swapped.flipped 0).flipped 1).flipped 0 := by
      rw [swapped_flipped_zero (h.flipped 1), swapped_flipped_one h]
    _ = x.swapped.flipped 1 := by rw [flipped_comm, flipped_flipped]

/-- **Four quarter turns lead back.** -/
theorem turned_four : turned^[4] x = x :=
  calc turned^[4] x = turned (turned^[3] x) := Function.iterate_succ_apply' ..
    _ = (x.swapped.flipped 1).swapped.flipped 0 := by rw [turned_three h]; rfl
    _ = (x.swapped.swapped.flipped 0).flipped 0 := by rw [swapped_flipped_one h.swapped]
    _ = x := by rw [flipped_flipped, swapped_swapped h]

/-- A quarter turn between two flips is a turn the other way. -/
theorem flipped_turned_flipped : (turned (x.flipped 0)).flipped 0 = turned^[3] x :=
  calc (turned (x.flipped 0)).flipped 0 = ((x.flipped 0).swapped.flipped 0).flipped 0 := rfl
    _ = turned^[3] x := by rw [flipped_flipped, swapped_flipped_zero h, turned_three h]

theorem turned_add (j k : Int) :
    turned^[(k % 4).toNat] (turned^[(j % 4).toNat] x) = turned^[((j + k) % 4).toNat] x := by
  have hperiod : Function.IsPeriodicPt turned 4 x := by
    rw [Function.IsPeriodicPt, Function.IsFixedPt, turned_four h]
  have hmod : ((j + k) % 4).toNat = ((k % 4).toNat + (j % 4).toNat) % 4 := by omega
  rw [← Function.iterate_add_apply, hmod, hperiod.iterate_mod_apply]

end

end Placement

/-! ## Where regions and orders place items -/

/-- The shape, the first index and the strides of a geometry. -/
def Geometry.placement (g : Geometry) : Placement := ⟨g.shape, g.offset, g.strides⟩

theorem Geometry.eq_of_placement {g g' : Geometry} (hitem : g.itemSize = g'.itemSize)
    (h : g.placement = g'.placement) : g = g' := by
  cases g
  simp_all [placement]

theorem Geometry.Inside.hasPlane {g : Geometry} {length : Nat} (h : g.Inside length)
    (hrank : 2 ≤ g.shape.length) : g.placement.HasPlane := by
  obtain ⟨s, k, offset, ts⟩ := g
  match s, ts with
  | m :: n :: s, t :: u :: ts => exact ⟨m, n, s, offset, t, u, ts, rfl⟩

theorem Permutation.apply_swap_plane {α : Type} (x y : α) (l : List α) :
    apply (swap (l.length + 2) 0 1) (x :: y :: l) = y :: x :: l := by
  have horders : Orders (swap (l.length + 2) 0 1) (x :: y :: l).length :=
    orders_swap (Nat.zero_lt_succ _) (Nat.succ_lt_succ (Nat.zero_lt_succ _))
  refine ext_getElem? fun i => ?_
  rw [getElem?_apply fun a ha => horders.mem_iff.mp ha, swap]
  rcases i with _ | _ | i
  · simp
  · simp
  · by_cases hi : i < l.length <;> simp [hi]

/-- All of a shape, with one axis in the opposite order. -/
def Region.backward (s : Shape) (a : Nat) : Region :=
  { full s with spans := (full s).spans.modify a Span.flip }

theorem Region.flip_full {axis : Int} (haxis : normalizeAxis axis s.length = .ok a) :
    (full s).flip axis = .ok (backward s a) := by
  have hrank : (full s).rank = s.length := by simp [rank, full]
  rw [flip, hrank, haxis]
  rfl

theorem Region.shape_backward (ha : a < s.length) : (backward s a).shape = s := by
  rw [shape_flip (flip_full (normalizeAxis_natCast ha)), shape_full]

theorem Region.valid_backward (ha : a < s.length) : (backward s a).Valid :=
  Built.valid (.flip (.full s) (flip_full (normalizeAxis_natCast ha)))

/-- The stride of an axis that a region shows in the opposite order is turned around. -/
theorem Region.strides_backward {ts : Strides} (hlength : ts.length = s.length)
    (a : Nat) : zipWith (· * ·) ts (backward s a).steps =
      if 0 < signed (s.getD a 0) then ts.modify a Neg.neg else ts := by
  have hstep (d : Nat) : (Span.full d).flip.step = if 0 < signed d then -1 else 1 := by
    rw [Span.flip, apply_ite Span.step]
    rfl
  have hsteps : (backward s a).steps = ((s.map Span.full).modify a Span.flip).map Span.step :=
    append_nil _
  refine ext_getElem? fun i => ?_
  rw [hsteps, getElem?_zipWith, getElem?_map, getElem?_modify,
    apply_ite (fun us : Strides => us[i]?), getElem?_modify]
  by_cases hi : i < s.length
  · have hs : s[i]? = some s[i] := getElem?_eq_getElem hi
    have hts : ts[i]? = some ts[i] := getElem?_eq_getElem (hlength ▸ hi)
    by_cases hai : a = i
    · subst hai
      by_cases hturns : 0 < signed s[a] <;> simp [hs, hts, hstep, hturns]
    · have hfull : (Span.full s[i]).step = 1 := rfl
      simp [hs, hts, hai, hfull]
  · have hts : ts[i]? = none := getElem?_eq_none (by omega)
    simp [hts]

/-- The position that the first one of a flipped shape leads back to. -/
theorem Strides.offset_mirror_origin (ts : Strides) (ha : a < s.length) :
    ts.offset (Position.mirror s a s.origin) = ((s.getD a 0 - 1 : Nat) : Int) * ts.getD a 0 := by
  have hlength : a < s.origin.length := by simpa [origin] using ha
  have hzero : s.origin[a] = 0 := by simp [origin]
  have hset : Position.mirror s a s.origin = s.origin.set a (s.getD a 0 - 1) := by
    rw [Position.mirror, modify_eq_set_getElem?, getElem?_eq_getElem hlength, hzero]
    rfl
  rw [hset, offset_set ts s.origin hlength, hzero]
  simp

namespace Geometry

variable {g : Geometry} {length a : Nat}

/-- Where there are items, every axis has a length that can be counted. -/
theorem Inside.signed_pos (h : g.Inside length) (hs : 0 < g.shape.size) (ha : a < g.shape.length) :
    0 < signed (g.shape.getD a 0) ∧ 0 < g.shape.getD a 0 := by
  have hmem : g.shape.getD a 0 ∈ g.shape := by
    rw [getD_eq_getElem?_getD, getElem?_eq_getElem ha]
    exact getElem_mem ha
  have hpos : 0 < g.shape.getD a 0 := pos_of_mem hs hmem
  rw [signed_of_lt (h.lt_half hs hmem)]
  exact ⟨by omega, hpos⟩

theorem Inside.offset_backward (h : g.Inside length) (ha : a < g.shape.length) :
    ((g.slice (backward g.shape a)).offset : Int) = g.offset +
      if g.shape.size = 0 then 0 else ((g.shape.getD a 0 : Int) - 1) * g.strides.getD a 0 := by
  have hshape := shape_backward ha
  by_cases hsize : g.shape.size = 0
  · have hrsize : (backward g.shape a).size = 0 := (congrArg Shape.size hshape).trans hsize
    rw [if_pos hsize, Geometry.slice, if_pos hrsize, add_zero]
  · have hs : 0 < g.shape.size := Nat.pos_of_ne_zero hsize
    have horigin := contains_origin hs
    have hplace := h.place_slice (valid_backward ha) rfl (by rwa [hshape])
    have hsmall : ∀ d ∈ g.shape, d < half := fun d hd => h.lt_half hs hd
    have hsource : (backward g.shape a).sourcePosition g.shape.origin =
        g.shape.origin.mirror g.shape a := sourcePosition_flip hsmall horigin
    rw [hsource, place, place, Strides.offset_origin, Strides.offset_mirror_origin _ ha,
      add_zero] at hplace
    have hpos := (h.signed_pos hs ha).2
    rw [if_neg hsize, hplace, Nat.cast_sub hpos, Nat.cast_one]

/-- **A region with one axis in the opposite order has the flipped placement.** -/
theorem Inside.placement_backward (h : g.Inside length) (ha : a < g.shape.length) :
    (g.slice (backward g.shape a)).placement = g.placement.flipped a := by
  have hshape : (g.slice (backward g.shape a)).shape = g.shape := shape_backward ha
  have hoffset := h.offset_backward ha
  have hstrides : (g.slice (backward g.shape a)).strides = _ := strides_backward h.length_strides a
  rw [placement, hshape, hoffset, hstrides]
  by_cases hturns : 0 < signed (g.shape.getD a 0)
  · rw [if_pos hturns]
    exact (if_pos hturns).symm
  · have hsize : g.shape.size = 0 := by
      by_contra hne
      exact hturns (h.signed_pos (Nat.pos_of_ne_zero hne) ha).1
    rw [if_neg hturns, if_pos hsize]
    exact (if_neg hturns).symm

end Geometry

namespace Dataset

variable {axis : Int} {a : Nat}

variable {β : Type} {d e e' : Dataset β} {f g : Placement → Placement} {length : Nat}

/-- The dataset lies in a buffer of the given length, and nothing is attached to it. -/
structure Bare (d : Dataset β) (length : Nat) : Prop where
  sound : d.toFrame.Sound length
  metadata_eq : d.metadata = .empty

/-- The dataset `e` is a view of `d`, placed where `f` leads. -/
structure Placed (e d : Dataset β) (f : Placement → Placement) (length : Nat) : Prop
    extends e.Bare length where
  buffer_eq : e.buffer = d.buffer
  kind_eq : e.kind = d.kind
  itemSize_eq : e.itemSize = d.itemSize
  placement_eq : e.geometry.placement = f d.geometry.placement

theorem Placed.trans (h' : e'.Placed e g length) (h : e.Placed d f length) :
    e'.Placed d (fun x => g (f x)) length where
  toBare := h'.toBare
  buffer_eq := h'.buffer_eq.trans h.buffer_eq
  kind_eq := h'.kind_eq.trans h.kind_eq
  itemSize_eq := h'.itemSize_eq.trans h.itemSize_eq
  placement_eq := by rw [h'.placement_eq, h.placement_eq]

section

variable (h : e.Placed d f length)
include h

theorem Placed.congr
    (hfg : f d.geometry.placement = g d.geometry.placement) : e.Placed d g length :=
  { h with placement_eq := h.placement_eq.trans hfg }

theorem Placed.geometry_eq (h' : e'.Placed d g length)
    (hfg : f d.geometry.placement = g d.geometry.placement) : e.geometry = e'.geometry := by
  refine Geometry.eq_of_placement (h.itemSize_eq.trans h'.itemSize_eq.symm) ?_
  rw [h.placement_eq, hfg, h'.placement_eq]

theorem Placed.perm_shape (hf : ∀ x, (f x).shape.Perm x.shape) : e.shape.Perm d.shape := by
  have hshape : e.shape = (f d.geometry.placement).shape := congrArg Placement.shape h.placement_eq
  rw [hshape]
  exact hf d.geometry.placement

theorem Placed.rank_eq (hf : ∀ x, (f x).shape.Perm x.shape) : e.rank = d.rank :=
  (h.perm_shape hf).length_eq

end

theorem placed_view (hd : d.Bare length) : d.view.Placed d id length where
  sound := hd.sound.view
  metadata_eq := by rw [view, hd.metadata_eq]; rfl
  buffer_eq := rfl
  kind_eq := rfl
  itemSize_eq := rfl
  placement_eq := congrArg Geometry.placement (Frame.geometry_view d.toFrame)

/-! ## Flips -/

/-- **A flip of a dataset without metadata.** -/
theorem exists_flip (hd : d.Bare length) (haxis : normalizeAxis axis d.rank = .ok a) :
    ∃ e, d.flip axis = .ok e ∧ e.Placed d (Placement.flipped a) length := by
  have hflip := flip_full haxis
  obtain ⟨frame, hframe⟩ : ∃ frame, d.toFrame.slice (backward d.shape a) = .ok frame := by
    simp only [Frame.slice, bind_eq_ok, Frame.checkRegion_eq_ok]
    exact ⟨_, (), rfl, rfl⟩
  have he : d.flip axis = .ok (d.through frame .empty) := by
    rw [Dataset.flip, hflip, ok_bind, sliceView, hframe, hd.metadata_eq]
    rfl
  refine ⟨_, he, ?_⟩
  have hshown := (shares_flip hd.sound he).2.shown hd.sound
  refine ⟨⟨hshown.sound, rfl⟩, rfl, hshown.kind_eq, hshown.shows.itemSize_eq, ?_⟩
  have hgeometry : (d.through frame .empty).geometry =
      d.geometry.slice (backward d.shape a) := (Frame.slice_eq_ok hframe).2.1
  rw [hgeometry]
  exact hd.sound.inside.placement_backward (normalizeAxis_lt haxis)

theorem exists_flip_of_lt (hd : d.Bare length)
    (ha : a < d.rank) : ∃ e, d.flip a = .ok e ∧ e.Placed d (Placement.flipped a) length :=
  exists_flip hd (normalizeAxis_natCast ha)

/-! ## Quarter turns -/

theorem swapping_plane (hrank : 2 ≤ d.rank) :
    d.swapping 0 1 = .ok ((Permutation.swap d.rank 0 1).map Int.ofNat) := by
  have hzero : normalizeAxis 0 d.rank = .ok 0 := normalizeAxis_natCast (a := 0) (by omega)
  have hone : normalizeAxis 1 d.rank = .ok 1 := normalizeAxis_natCast (a := 1) (by omega)
  rw [Frame.swapping, hzero, hone, Permutation.swap, map_map]
  refine congrArg Except.ok (map_congr_left fun i _ => ?_)
  simp only [Function.comp_apply, apply_ite Int.ofNat, Int.ofNat_eq_natCast]

theorem exists_swapAxes (hd : d.Bare length) (hrank : 2 ≤ d.rank) :
    ∃ e, d.swapAxes 0 1 = .ok e ∧ e.Placed d Placement.swapped length := by
  have horders : Orders (Permutation.swap d.rank 0 1) d.rank := orders_swap (by omega) (by omega)
  have hnames := ofAxes_eq_ok_iff.mp (ofAxes_map_ofNat horders)
  refine ⟨d.through (d.permuted (Permutation.swap d.rank 0 1)) .empty, ?_,
    ⟨hd.sound.permuted horders, rfl⟩, rfl, rfl, rfl, ?_⟩
  · rw [swapAxes, swapping_plane hrank, ok_bind, transposed_eq_through hd.sound hd.metadata_eq hnames]
  · obtain ⟨m, n, s, first, t, u, ts, hplane⟩ := hd.sound.inside.hasPlane hrank
    have hshape : d.shape = m :: n :: s := congrArg Placement.shape hplane
    have hstrides : d.strides = t :: u :: ts := congrArg Placement.strides hplane
    have hlength : ts.length = s.length := by
      simpa [Frame.geometry, hshape, hstrides] using hd.sound.inside.length_strides
    have hswap : (d.through (d.permuted (Permutation.swap d.rank 0 1)) .empty).geometry =
        ⟨apply (Permutation.swap d.rank 0 1) d.shape, d.itemSize, d.offset,
          apply (Permutation.swap d.rank 0 1) d.strides⟩ :=
      Frame.geometry_withGeometry ..
    have hrank : d.rank = s.length + 2 := congrArg List.length hshape
    have hfirst : (d.offset : Int) = first := congrArg Placement.first hplane
    rw [hplane, hswap, Geometry.placement, hshape, hstrides, hrank,
      apply_swap_plane, ← hlength, apply_swap_plane, hfirst]
    rfl

/-- A turn by right angles is none, one, two or three quarter turns. -/
theorem turns_cases (k : Int) :
    (k % 4).toNat = 0 ∨ (k % 4).toNat = 1 ∨ (k % 4).toNat = 2 ∨ (k % 4).toNat = 3 := by
  omega

/-- **A dataset without metadata turned by right angles.** -/
theorem exists_rot90 (hd : d.Bare length) (hrank : 2 ≤ d.rank) (k : Int) :
    ∃ e, d.rot90 k = .ok e ∧ e.Placed d Placement.turned^[(k % 4).toNat] length := by
  have hplane := hd.sound.inside.hasPlane hrank
  have hcheck : d.checkPlane = .ok () := if_neg (by omega)
  rw [Dataset.rot90, hcheck]
  have hturns := turns_cases k
  generalize (k % 4).toNat = n at hturns ⊢
  -- A quarter turn and three of them begin with the exchange of the axes.
  obtain ⟨u, hu, hswap⟩ := exists_swapAxes hd hrank
  have hurank : u.rank = d.rank := hswap.rank_eq Placement.perm_shape_swapped
  obtain rfl | rfl | rfl | rfl := hturns
  · exact ⟨d.view, rfl, placed_view hd⟩
  · obtain ⟨e, he, hflip⟩ := exists_flip_of_lt (a := 0) hswap.toBare (by omega)
    refine ⟨e, ?_, (hflip.trans hswap).congr ?_⟩
    · rw [hu]
      exact he
    · rw [Function.iterate_one, Placement.turned]
  · obtain ⟨v, hv, hfirst⟩ := exists_flip_of_lt (a := 0) hd (by omega)
    have hvrank : v.rank = d.rank := hfirst.rank_eq (Placement.perm_shape_flipped 0)
    obtain ⟨e, he, hsecond⟩ := exists_flip_of_lt (a := 1) hfirst.toBare (by omega)
    refine ⟨e, ?_, (hsecond.trans hfirst).congr (Placement.turned_two hplane).symm⟩
    have hv : d.flip 0 = .ok v := hv
    rw [hv]
    exact he
  · obtain ⟨e, he, hflip⟩ := exists_flip_of_lt (a := 1) hswap.toBare (by omega)
    refine ⟨e, ?_, (hflip.trans hswap).congr (Placement.turned_three hplane).symm⟩
    rw [hu]
    exact he

/-! ## The laws of views -/

/-- **Turns by right angles add up.** -/
theorem exists_rot90_rot90 (hd : d.Bare length) (hrank : 2 ≤ d.rank) (j k : Int) :
    ∃ u v w, d.rot90 j = .ok u ∧ u.rot90 k = .ok v ∧ d.rot90 (j + k) = .ok w ∧
      u.Placed d Placement.turned^[(j % 4).toNat] length ∧
      v.Placed d Placement.turned^[((j + k) % 4).toNat] length ∧
      w.Placed d Placement.turned^[((j + k) % 4).toNat] length := by
  obtain ⟨u, hu, huplaced⟩ := exists_rot90 hd hrank j
  have hurank : u.rank = d.rank := huplaced.rank_eq (Placement.perm_shape_turned _)
  obtain ⟨v, hv, hvplaced⟩ := exists_rot90 huplaced.toBare (by omega) k
  obtain ⟨w, hw, hwplaced⟩ := exists_rot90 hd hrank (j + k)
  have hadd := Placement.turned_add (hd.sound.inside.hasPlane hrank) j k
  exact ⟨u, v, w, hu, hv, hw, huplaced, (hvplaced.trans huplaced).congr hadd, hwplaced⟩

/-- **A flip undoes itself.** -/
theorem exists_flip_flip (hd : d.Bare length) (haxis : normalizeAxis axis d.rank = .ok a) :
    ∃ u v, d.flip axis = .ok u ∧ u.flip axis = .ok v ∧ u.Placed d (Placement.flipped a) length ∧
      v.Placed d id length := by
  obtain ⟨u, hu, huplaced⟩ := exists_flip hd haxis
  have hurank : u.rank = d.rank := huplaced.rank_eq (Placement.perm_shape_flipped a)
  obtain ⟨v, hv, hvplaced⟩ := exists_flip huplaced.toBare (hurank ▸ haxis)
  exact ⟨u, v, hu, hv, huplaced, (hvplaced.trans huplaced).congr (Placement.flipped_flipped a _)⟩

/-- **A quarter turn between two flips is a turn the other way.** -/
theorem exists_flip_rot90_flip (hd : d.Bare length) (hrank : 2 ≤ d.rank) :
    ∃ u v w z, d.flip 0 = .ok u ∧ u.rot90 1 = .ok v ∧ v.flip 0 = .ok w ∧ d.rot90 (-1) = .ok z ∧
      u.Placed d (Placement.flipped 0) length ∧
      v.Placed d (fun x => Placement.turned (x.flipped 0)) length ∧
      w.Placed d Placement.turned^[3] length ∧ z.Placed d Placement.turned^[3] length := by
  obtain ⟨u, hu, huplaced⟩ := exists_flip_of_lt (a := 0) hd (by omega)
  have hurank : u.rank = d.rank := huplaced.rank_eq (Placement.perm_shape_flipped 0)
  obtain ⟨v, hv, hvplaced⟩ := exists_rot90 huplaced.toBare (by omega) 1
  have hvrank : v.rank = u.rank := hvplaced.rank_eq (Placement.perm_shape_turned _)
  obtain ⟨w, hw, hwplaced⟩ := exists_flip_of_lt (a := 0) hvplaced.toBare (by omega)
  obtain ⟨z, hz, hzplaced⟩ := exists_rot90 hd hrank (-1)
  have hlaw := Placement.flipped_turned_flipped (hd.sound.inside.hasPlane hrank)
  exact ⟨u, v, w, z, hu, hv, hw, hz, huplaced, hvplaced.trans huplaced,
    (hwplaced.trans (hvplaced.trans huplaced)).congr hlaw, hzplaced⟩

/-! ## Items -/

theorem item_flip (hd : d.toFrame.Sound length) (haxis : normalizeAxis axis d.rank = .ok a)
    (he : d.flip axis = .ok e) (elements : Elements) {q : Position} (hq : e.shape.contains q) :
    e.toFrame.item elements q = d.toFrame.item elements (q.mirror d.shape a) := by
  have hshown := (shares_flip hd he).2.shown hd
  rw [Frame.item_of_shows hd hshown.sound hshown.kind_eq hshown.shows hq,
    (normalizeAxis_eq_ok haxis).1]

theorem shape_quarter_turn {m n : Nat} {s : Shape} (hd : d.Bare length)
    (hshape : d.shape = m :: n :: s) (he : d.rot90 1 = .ok e) : e.shape = n :: m :: s := by
  have hrank : 2 ≤ d.rank := by simp [Frame.rank, hshape]
  obtain ⟨e', he', hplaced⟩ := exists_rot90 hd hrank 1
  obtain rfl : e = e' := Except.ok.inj (he.symm.trans he')
  obtain ⟨m', n', s', first, t, u, ts, hplane⟩ := hd.sound.inside.hasPlane hrank
  have hsame : m :: n :: s = m' :: n' :: s' := hshape.symm.trans (congrArg Placement.shape hplane)
  cases hsame
  calc e.shape = (Placement.turned^[1] d.geometry.placement).shape :=
        congrArg Placement.shape hplaced.placement_eq
    _ = d.geometry.placement.swapped.shape := by
      rw [Function.iterate_one, Placement.turned, Placement.shape_flipped]
    _ = n :: m :: s := by rw [hplane, Placement.swapped]

theorem item_quarter_turn {m n : Nat} {s : Shape} (hd : d.toFrame.Sound length)
    (hshape : e.shape = n :: m :: s) (he : d.rot90 1 = .ok e) (elements : Elements)
    {i j : Nat} {q : Position} (hq : e.shape.contains (i :: j :: q)) :
    e.toFrame.item elements (i :: j :: q) = d.toFrame.item elements (j :: (n - 1 - i) :: q) := by
  have hshown := (shares_rot90 hd he).shown hd
  rw [Frame.item_of_shows hd hshown.sound hshown.kind_eq hshown.shows hq, hshape]
  rfl

end Dataset

end Hyperslab
