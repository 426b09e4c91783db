import Hyperslab.Proofs.Cuts
import Hyperslab.Proofs.RotationsInWords

/-!
# Rolls

A roll moves the items cyclically along an axis, or along the row-major order of all of them. It
joins the two bands that a cut of the source leaves, the last one first. Two rolls are one by the
sum of the shifts, since each is a turn of coordinates modulo the length.
-/
namespace Hyperslab

open List Region Shape Word

theorem Word.fits_ediv {z : Int} {n : Nat} (hz : fits z) (hn : 0 < n) : fits (z / n) := by
  rw [fits_iff] at *
  exact ⟨Int.le_ediv_of_mul_le (by omega) (by nlinarith),
    Int.ediv_lt_of_lt_mul (by omega) (by nlinarith)⟩

namespace Shape

variable {s : Shape} {q : Position} {axis : Option Nat} {shift : Int} {a n c : Nat}

/-- The coordinate, of `n`, that a shift moves to `c`. -/
def shiftedFrom (n : Nat) (shift : Int) (c : Nat) : Nat := ((c - shift) % n).toNat

theorem shiftedFrom_lt (hn : 0 < n) (shift : Int) (c : Nat) : shiftedFrom n shift c < n := by
  have := Int.emod_lt_of_pos (c - shift) (Int.natCast_pos.mpr hn)
  rw [shiftedFrom]
  omega

theorem shiftedFrom_shiftedFrom (hn : 0 < n) (shift t : Int) (c : Nat) :
    shiftedFrom n shift (shiftedFrom n t c) = shiftedFrom n (shift + t) c := by
  have hpos := Int.emod_nonneg (c - t) (Int.natCast_ne_zero.mpr hn.ne')
  rw [shiftedFrom, shiftedFrom, Int.toNat_of_nonneg hpos, Int.emod_sub_emod]
  congr 2
  omega

theorem shiftedFrom_zero (hc : c < n) : shiftedFrom n 0 c = c := by
  rw [shiftedFrom, Int.sub_zero, ← Int.natCast_emod, Nat.mod_eq_of_lt hc, Int.toNat_natCast]

theorem shiftedFrom_eq (hc : c < n) (shift : Int) : shiftedFrom n shift c =
    if c < (shift % n).toNat then c + (n - (shift % n).toNat) else c - (shift % n).toNat := by
  have hlt := Int.emod_lt_of_pos shift (Int.natCast_pos.mpr (Nat.zero_lt_of_lt hc))
  have hpos := Int.emod_nonneg shift (Int.natCast_ne_zero.mpr (Nat.ne_zero_of_lt hc))
  rw [shiftedFrom, ← Int.sub_emod_emod]
  split
  · rw [← Int.add_emod_right, Int.emod_eq_of_lt] <;> omega
  · rw [Int.emod_eq_of_lt] <;> omega

/-- The position of the item that a roll moves to `q`: along an axis, or in the row-major order. -/
def rolledFrom (s : Shape) (shift : Int) : Option Nat → Position → Position
  | some a, q => q.modify a (shiftedFrom (s.getD a 0) shift)
  | none, q => unravel (shiftedFrom s.size shift (s.ravel q)) s

section

variable (haxis : ∀ a ∈ axis, a < s.length) (hq : s.contains q)
include haxis hq

theorem contains_rolledFrom : s.contains (s.rolledFrom shift axis q) := by
  have hpos := size_pos_of_contains hq
  cases axis with
  | none => exact contains_unravel hpos _
  | some a =>
    have hlt := getD_lt_of_contains hq (haxis a rfl)
    have hmodify := contains_set_modify (a := a) (f := shiftedFrom (s.getD a 0) shift) hq
      (shiftedFrom_lt (Nat.zero_lt_of_lt hlt) ..)
    rwa [set_getD_self] at hmodify

theorem rolledFrom_rolledFrom (shift t : Int) :
    s.rolledFrom shift axis (s.rolledFrom t axis q) = s.rolledFrom (shift + t) axis q := by
  have hpos := size_pos_of_contains hq
  cases axis with
  | none =>
    rw [rolledFrom, rolledFrom, ravel_unravel (shiftedFrom_lt hpos ..),
      shiftedFrom_shiftedFrom hpos]
    rfl
  | some a =>
    have hlt := getD_lt_of_contains hq (haxis a rfl)
    rw [rolledFrom, rolledFrom, modify_modify_eq]
    exact Position.modify_congr (shiftedFrom_shiftedFrom (Nat.zero_lt_of_lt hlt) ..)

theorem rolledFrom_zero : s.rolledFrom 0 axis q = q := by
  cases axis with
  | none => rw [rolledFrom, shiftedFrom_zero (ravel_lt hq), unravel_ravel hq]
  | some a => exact Position.modify_of_eq (shiftedFrom_zero (getD_lt_of_contains hq (haxis a rfl)))

end

theorem room_singleton_lt (h : s.room n < half) : room n [s.size] < half := by
  have hone : size [s.size] = s.size := by simp
  rcases Nat.eq_zero_or_pos s.size with hzero | hpos
  · rw [hzero]
    exact (Nat.mul_le_mul_right n (size_max_pos s)).trans_lt h
  · rw [room_of_pos hpos] at h
    rwa [room_of_pos (by rwa [hone]), hone]

theorem forall₂_set_le (h : n ≤ s.getD a 0) : Forall₂ (· ≤ ·) (s.set a n) s := by
  induction s generalizing a with
  | nil => exact .nil
  | cons d s ih =>
    cases a with
    | zero => exact .cons h (forall₂_le_self s)
    | succ a => exact .cons le_rfl (ih h)

end Shape

namespace Dataset

variable {d src e : Block} {k : Kind} {s t : Shape} {a n m lo hi : Nat} {shift : Int}

/-! ## The two bands -/

theorem Plain.exists_bandView (hd : d.Plain k) (hroom : d.shape.room d.itemSize < Word.half)
    (ha : a < d.rank) (hle : lo ≤ hi) (hhi : hi ≤ d.lengthAlong a) :
    ∃ e, e.BandOf d a lo ∧ e.lengthAlong a = hi - lo ∧
      e.geometry = d.geometry.slice (.band d.shape a lo hi) ∧
      Region.along d.shape a (Slice.between lo hi) = .ok (.band d.shape a lo hi) ∧
      d.sliceViewInWords (.band d.shape a lo hi) =
        (do Word.ensure (d.ViewsInWords (.band d.shape a lo hi)); .ok e) := by
  have hn := hd.sound.itemSize_pos
  have hr : (Region.band d.shape a lo hi).Valid := valid_band hhi
  obtain ⟨e, he, hview, -, hshape⟩ := hd.sound.sliceView_eq hd.metadata_eq hr rfl
  rw [shape_band] at hshape
  have hlength : e.lengthAlong a = hi - lo := by
    rw [lengthAlong, hshape]
    exact getD_set_self ha
  refine ⟨e, ⟨hview.sound, hview.kind_eq, hlength.symm ▸ hshape, hview.itemSize_eq,
    hview.metadata_eq, fun p hp => ?_⟩, hlength, geometry_sliceView he,
    along_between ha (getD_lt_half_of_room hn hroom ha) hle hhi, ?_⟩
  · rw [hview.item_eq hd.sound hp,
      sourcePosition_band (le_modulus_of_room hn hroom) hhi (hshape ▸ hp)]
  · rw [sliceViewInWords_of_empty hd.sound hd.metadata_eq hr rfl, he]

/-- Two bands in the other order: what is behind the cut comes first. -/
theorem BandOf.joinedItem_eq {head tail : Block} {c : Nat} {q : Position} (hd : d.Plain k)
    (ha : a < d.rank) (hhead : head.BandOf d a (d.lengthAlong a - c)) (htail : tail.BandOf d a 0)
    (hfirst : head.lengthAlong a = c) (hsecond : tail.lengthAlong a = d.lengthAlong a - c)
    (hc : (shift % d.lengthAlong a).toNat = c) (hq : d.shape.contains q) :
    joinedItem k d.itemSize a [head, tail] q =
      d.item (q.modify a (shiftedFrom (d.lengthAlong a) shift)) := by
  have hqa : q.getD a 0 < d.lengthAlong a := getD_lt_of_contains hq ha
  have hin : d.shape.contains (d.shape.rolledFrom shift (some a) q) :=
    contains_rolledFrom (fun _ h => Option.some.inj h ▸ ha) hq
  change joinedItem k d.itemSize a [head, tail] q = d.item (d.shape.rolledFrom shift (some a) q)
  have hfrom := shiftedFrom_eq hqa shift
  rw [hc] at hfrom
  have hset := hq
  rw [← set_getD_self d.shape a] at hset
  rcases Nat.lt_or_ge (q.getD a 0) c with hbefore | hbehind
  · rw [if_pos hbefore] at hfrom
    have hmove : d.shape.rolledFrom shift (some a) q = q.modify a (· + (d.lengthAlong a - c)) :=
      Position.modify_congr hfrom
    have hp := hhead.contains_modify (f := id) hset (hfirst ▸ hbefore)
    rw [modify_id] at hp
    rw [joinedItem_of_lt (hfirst ▸ hbefore), hmove, hhead.fitItem_eq hd hp (hmove ▸ hin)]
  · rw [if_neg (Nat.not_lt.mpr hbehind)] at hfrom
    have hmove : d.shape.rolledFrom shift (some a) q = (q.modify a (· - c)).modify a (· + 0) :=
      (Position.modify_congr hfrom).trans (modify_modify_eq ..).symm
    have hp := htail.contains_modify (f := (· - c)) hset (by omega)
    have hqc : (q.modify a (· - c)).getD a 0 = q.getD a 0 - c :=
      Position.getD_modify (length_of_contains hq ▸ ha) _
    rw [joinedItem_of_le (hfirst ▸ hbehind), hfirst, joinedItem_of_lt (by omega), hmove,
      htail.fitItem_eq hd hp (hmove ▸ hin)]

/-- The bands that a shift exchanges. -/
def turnedBands (d : Block) (a : Nat) (shift : Int) : List Region :=
  let n := d.lengthAlong a
  let c := (shift % n).toNat
  [.band d.shape a (n - c) n, .band d.shape a 0 (n - c)]

/-- The bands in the other order are the items of the source, moved along the axis. -/
theorem Plain.turnInWords_eq (hd : d.Plain k) (hroom : d.shape.room d.itemSize < Word.half)
    (ha : a < d.rank) (hpos : 0 < d.lengthAlong a) (hreserve : reserve k d.shape d.itemSize = .ok m)
    (hs : Word.fits shift) : ∃ e, e.Fresh k d.shape d.itemSize ∧ (∀ q, d.shape.contains q →
        e.item q = d.item (q.modify a (Shape.shiftedFrom (d.lengthAlong a) shift))) ∧
      d.turnInWords shift a =
        (do Word.ensure (∀ r ∈ d.turnedBands a shift, d.ReadsInWords r); .ok e) := by
  obtain ⟨c, hc⟩ : ∃ c, (shift % d.lengthAlong a).toNat = c := ⟨_, rfl⟩
  have hlt : c < d.lengthAlong a := by
    have := Int.emod_lt_of_pos shift (Int.natCast_pos.mpr hpos)
    omega
  obtain ⟨head, hhead, hfirst, hheadGeometry, hfront, hheadView⟩ :=
    hd.exists_bandView hroom ha (Nat.sub_le _ c) le_rfl
  obtain ⟨tail, htail, hsecond, htailGeometry, hback, htailView⟩ :=
    hd.exists_bandView hroom ha (Nat.zero_le _) (Nat.sub_le (d.lengthAlong a) c)
  have hparts : ∀ e ∈ [head, tail], ∃ lo, e.BandOf d a lo := by
    simp only [List.forall_mem_cons, List.not_mem_nil, false_implies, implies_true, and_true]
    exact ⟨⟨_, hhead⟩, _, htail⟩
  obtain ⟨e, hfresh, hitem, he⟩ := hd.concatenate_bands hroom
    (Permutation.normalizeAxis_natCast ha) (hd.kind_eq ▸ hreserve) hparts (by simp)
    (by simp only [totalLength_cons, totalLength_nil]; omega)
  refine ⟨e, hd.kind_eq ▸ hfresh, fun q hq => ?_, ?_⟩
  · rw [hitem q hq, hhead.joinedItem_eq hd ha htail (by omega) hsecond hc hq]
  have hreads : ((d.ViewsInWords (.band d.shape a (d.lengthAlong a - c) (d.lengthAlong a)) ∧
        d.ViewsInWords (.band d.shape a 0 (d.lengthAlong a - c))) ∧
      ∀ e ∈ [head, tail], Word.AllFit e.geometry.walkNumbers) ↔
      ∀ r ∈ d.turnedBands a shift, d.ReadsInWords r := by
    simp only [turnedBands, hc, List.forall_mem_cons, List.not_mem_nil, false_implies,
      implies_true, hheadGeometry, htailGeometry, Frame.readsInWords_iff]
    tauto
  have hquotient : Word.check [shift / (d.lengthAlong a : Int)] = .ok () := by
    exact ensure_of (by simpa [Word.AllFit] using fits_ediv hs hpos)
  have hget : d.shape.getD a 0 = d.lengthAlong a := rfl
  have hsigned : Word.signed (d.lengthAlong a) = d.lengthAlong a :=
    signed_of_lt (getD_lt_half_of_room hd.sound.itemSize_pos hroom ha)
  simp only [turnInWords, hget, hsigned, hquotient, hc, hfront, hback, hheadView, htailView, he,
    bind_assoc, ok_bind]
  rw [ensure_and, ensure_and, ensure_congr hreads]

/-! ## Other shapes of packed items -/

theorem Fresh.reshape (h : d.Fresh k t n) (he : d.reshape s = .ok e) :
    Fresh { e with isView := false } k s n := by
  have hsound := h.sound.reshape he
  obtain ⟨map, hmap, -⟩ := bind_eq_ok.mp he
  simp only [reshape_of_dense h.layout_eq hmap, h.metadata_eq] at he
  cases he
  refine ⟨?_, ⟨hsound.inside, hsound.listable⟩, rfl, ?_⟩
  · change { d.withGeometry s d.offset (s.strides d.itemSize) with isView := false } =
      Frame.packed k d.name s n
    rw [h.frame_eq]
    simp [Frame.withGeometry, Frame.packed, Layout.ofStrides]
  · rw [← (Regrouping.of_eq_ok hmap).1, h.shape_eq]
    exact h.few

theorem Fresh.reshapesInWords (h : d.Fresh k t n) (hroom : s.room n < half) :
    d.ReshapesInWords s where
  strides _ := h.itemSize_eq ▸ stridesFit_of_room h.itemSize_pos hroom
  walk hnot := absurd (.inl (by rw [h.layout_eq]; rfl)) hnot

theorem Fresh.exists_setShapeInWords (h : d.Fresh k t n) (hsize : t.SameSize s)
    (hroom : s.room n < half) : ∃ e, d.setShapeInWords s = .ok e ∧ e.Fresh k s n ∧
      ∀ q, s.contains q → e.item q = d.item (unravel (s.ravel q) t) := by
  obtain rfl := h.shape_eq
  by_cases hs : s = d.shape
  · subst hs
    refine ⟨d, by simp [setShapeInWords, setShape], h, fun q hq => ?_⟩
    rw [unravel_ravel hq]
  · obtain ⟨out, hout⟩ := h.sound.exists_reshape h.metadata_eq hsize
    obtain ⟨map, hmap⟩ := Regrouping.exists_of_iff.mpr hsize
    have hown : d.isView = false := congrArg Frame.isView h.frame_eq
    refine ⟨{ out with isView := false }, ?_, h.reshape hout,
      (h.sound.reshape_eq_ok h.metadata_eq hout).2.2⟩
    simp only [setShapeInWords, if_pos hs, checkRegrouped_of_empty h.metadata_eq,
      Frame.checkReshape_eq hsize, ensure_of (h.reshapesInWords hroom), setShape, if_neg hs, hmap,
      hout, hown, ok_bind]
    rfl

theorem Fresh.readsInWords_turned (h : d.Fresh k s n) (hroom : s.room n < half)
    (hsrc : src.geometry = d.geometry) (a : Nat) (shift : Int) :
    ∀ r ∈ src.turnedBands a shift, src.ReadsInWords r := by
  have hshape : src.shape = s := (congrArg Geometry.shape hsrc).trans h.shape_eq
  have hn : src.itemSize = n := (congrArg Geometry.itemSize hsrc).trans h.itemSize_eq
  have hband {lo hi : Nat} (hhi : hi ≤ s.getD a 0) : src.ReadsInWords (.band s a lo hi) := by
    have hr : (band s a lo hi).Valid := valid_band hhi
    have hsteps : (band s a lo hi).StepsWithin s := stepsWithin_band hhi
    have hless : (band s a lo hi).shape.room n < half := by
      rw [shape_band]
      exact (room_le_room (forall₂_set_le (by omega)) le_rfl).trans_lt hroom
    have hpos := h.itemSize_pos
    refine ⟨⟨fun _ => ?_, sizeChecked_of_room hpos hless, ?_, ?_⟩, ?_⟩
    · rw [hshape, hn]
      exact stridesFit_of_room hpos hroom
    · rw [hsrc]
      exact h.allFit_strides_slice (forall₂_le_self s) hroom hr hsteps
    · rw [hn]
      exact stridesFit_of_room hpos hless
    · rw [hsrc]
      exact h.allFit_walkNumbers_slice hr rfl fun _ => hsteps
  simp only [turnedBands, lengthAlong, hshape, forall_mem_cons, not_mem_nil,
    false_implies, implies_true, and_true]
  exact ⟨hband le_rfl, hband (Nat.sub_le ..)⟩

/-! ## Rolls -/

theorem Plain.copyInWords_eq (hd : d.Plain k) (hroom : d.shape.room d.itemSize < half)
    (hreserve : reserve k d.shape d.itemSize = .ok m) (hempty : d.size = 0) :
    d.copyInWords = .ok d.copy ∧ d.copy.Fresh k d.shape d.itemSize := by
  have hwalk : d.checkWalk = .ok () := checkWalk_eq_ok.mpr
    ⟨fun _ => stridesFit_of_room hd.sound.itemSize_pos hroom, by
      have hnone : d.geometry.shape.size = 0 := hempty
      rw [Geometry.walkNumbers, if_pos hnone]
      exact allFit_nil⟩
  have hread : d.checkRead = .ok () := check_eq_ok.mpr hd.sound.fault_eq_none
  refine ⟨by rw [copyInWords, hwalk, hread, hd.metadata_eq]; rfl, ?_, hd.sound.dense _, ?_, ?_⟩
  · rw [← hd.kind_eq]
    rfl
  · rw [copy, hd.metadata_eq]
    rfl
  · obtain ⟨rfl, hmax⟩ := elementCount_eq_ok (reserve_eq_ok hreserve)
    exact hmax

/-- `src` is what is turned: a view of `d`, or its items in a row. A position of `d` and the same one
in row-major order of `src` have the same item, also after a turn. -/
structure RollsFrom (d src : Block) (k : Kind) (axis : Option Nat) : Prop where
  source : axis.elim (d.reshape [d.size] = .ok src) fun _ => src = d.view
  plain : src.Plain k
  itemSize_eq : src.itemSize = d.itemSize
  sameSize : src.shape.SameSize d.shape
  axis_lt : axis.getD 0 < src.rank
  room : src.shape.room src.itemSize < Word.half
  item_eq : ∀ shift q, d.shape.contains q = true →
    src.item ((Shape.unravel (d.shape.ravel q) src.shape).modify (axis.getD 0)
      (Shape.shiftedFrom (src.lengthAlong (axis.getD 0)) shift)) =
        d.item (d.shape.rolledFrom shift axis q)

/-- The numbers met in a roll are words: those of laying the items in a row, and those of reading
the two bands. -/
def RollsInWords (d src : Block) (shift : Int) (axis : Option Nat) : Prop :=
  (axis = none → d.ReshapesInWords [d.size]) ∧
    (0 < src.lengthAlong (axis.getD 0) →
      ∀ r ∈ src.turnedBands (axis.getD 0) shift, src.ReadsInWords r)

instance (d src : Block) (shift : Int) (axis : Option Nat) :
    Decidable (d.RollsInWords src shift axis) := inferInstanceAs (Decidable (_ ∧ _))

/-- `e` is a packed dataset of the items of `d`, each moved by a shift. -/
structure RolledOf (e d : Block) (k : Kind) (shift : Int) (axis : Option Nat) : Prop where
  fresh : e.Fresh k d.shape d.itemSize
  name_eq : e.name = d.name
  item_eq : ∀ q, d.shape.contains q = true → e.item q = d.item (d.shape.rolledFrom shift axis q)

section Roll

variable {axis : Option Int}

theorem Plain.rollsFrom_view (hd : d.Plain k) (hroom : d.shape.room d.itemSize < half)
    (ha : a < d.rank) : d.RollsFrom d.view k (some a) := by
  have hview := isView_view hd.sound hd.metadata_eq
  have hitem {p : Position} (hp : d.shape.contains p) : d.view.item p = d.item p :=
    hview.item_eq hd.sound hp
  obtain ⟨c, hc⟩ := Option.isSome_iff_exists.mp (sizeChecked_of_room hd.sound.itemSize_pos hroom)
  refine ⟨rfl, ⟨hview.sound, hd.kind_eq, hview.metadata_eq, fun p hp => ?_⟩, rfl, ⟨c, hc, hc⟩, ha,
    hroom, fun shift q hq => ?_⟩
  · rw [hitem hp]
    exact hd.holds p hp
  · have hshape : d.view.shape = d.shape := rfl
    have hin : d.shape.contains (d.shape.rolledFrom shift (some a) q) :=
      contains_rolledFrom (fun _ h => Option.some.inj h ▸ ha) hq
    rw [hshape, unravel_ravel hq]
    exact hitem hin

theorem Plain.rollsFrom_row (hd : d.Plain k) (hroom : d.shape.room d.itemSize < half)
    (hsize : d.shape.SameSize [d.size]) : ∃ src, d.RollsFrom src k none := by
  obtain ⟨src, hsrc⟩ := hd.sound.exists_reshape hd.metadata_eq hsize
  obtain ⟨hshape, -, hitem⟩ := hd.sound.reshape_eq_ok hd.metadata_eq hsrc
  have hitemSize := (hd.sound.frame_reshape hsrc).1
  refine ⟨src, hsrc, hd.reshape hsrc, hitemSize, hshape ▸ hsize.symm, ?_, ?_, fun shift q hq => ?_⟩
  · rw [Frame.rank, hshape]
    exact Nat.one_pos
  · rw [hshape, hitemSize]
    exact room_singleton_lt hroom
  · have hlt := shiftedFrom_lt (size_pos_of_contains hq) shift (d.shape.ravel q)
    have hone : unravel (d.shape.ravel q) [d.size] = [d.shape.ravel q] := by
      simpa [unravel, Frame.size] using Nat.mod_eq_of_lt (ravel_lt hq)
    have hrow := hitem [shiftedFrom d.size shift (d.shape.ravel q)] (contains_cons.mpr ⟨hlt, rfl⟩)
    rw [lengthAlong, hshape, hone]
    simpa [Frame.size, rolledFrom] using hrow

theorem RollsFrom.rollSource_eq (h : d.RollsFrom src k (axis.map fun _ => a)) (hd : d.Plain k)
    (haxis : ∀ x ∈ axis, normalizeAxis x d.rank = .ok a)
    (hroom : d.shape.room d.itemSize < half) (hsize : d.shape.SameSize [d.size]) :
    d.rollSource axis = (do
      ensure ((axis.map fun _ => a) = none → d.ReshapesInWords [d.size])
      .ok (src, (axis.map fun _ => a).getD 0)) := by
  cases axis with
  | none =>
    have hsrc : d.reshape [d.size] = .ok src := h.source
    have ⟨c, hc, _⟩ := hsize
    have hword : d.shape.sizeWord = .ok d.size := by
      simp [sizeWord, hc, Frame.size, size_of_sizeChecked hc]
    simp only [rollSource, flattenInWords, hword, ok_bind, reshapeInWords,
      checkRegrouped_of_empty hd.metadata_eq, Frame.checkReshape_eq hsize, hsrc, bind_assoc]
    exact congrArg (· >>= _) (ensure_congr ⟨fun h _ => h, fun h => h rfl⟩)
  | some x =>
    obtain rfl : src = d.view := h.source
    rw [rollSource, viewInWords_of_room ⟨hd.sound, hd.metadata_eq⟩ hroom, haxis x rfl]
    rfl

/-- **The items of a roll, and when it stops.** -/
theorem Plain.exists_rolled (hd : d.Plain k) (haxis : ∀ x ∈ axis, normalizeAxis x d.rank = .ok a)
    (hreserve : reserve k d.shape d.itemSize = .ok m) (hroom : d.shape.room d.itemSize < half)
    (hs : fits shift) :
    ∃ src e, d.RollsFrom src k (axis.map fun _ => a) ∧
      e.RolledOf d k shift (axis.map fun _ => a) ∧ d.rollInWords shift axis =
        (do ensure (d.RollsInWords src shift (axis.map fun _ => a)); .ok e) := by
  have hsize : d.shape.SameSize [d.size] := by
    obtain ⟨c, hc, hmax, -⟩ := reserve_eq_ok_iff.mp hreserve
    have hle : c ≤ c * d.itemSize := Nat.le_mul_of_pos_right _ hd.sound.itemSize_pos
    have hbound : maxElements < modulus := by decide
    rw [Frame.size, size_of_sizeChecked hc]
    exact ⟨c, hc, sizeChecked_singleton (by omega)⟩
  obtain ⟨src, h⟩ : ∃ src, d.RollsFrom src k (axis.map fun _ => a) := by
    cases axis with
    | none => exact hd.rollsFrom_row hroom hsize
    | some x => exact ⟨_, hd.rollsFrom_view hroom (Permutation.normalizeAxis_lt (haxis x rfl))⟩
  refine ⟨src, ?_⟩
  have hsource := h.rollSource_eq hd haxis hroom hsize
  generalize axis.map (fun _ => a) = along at *
  rcases Nat.eq_zero_or_pos (src.lengthAlong (along.getD 0)) with hzero | hpos
  · have hempty : d.shape.size = 0 := by
      rw [← h.sameSize.size_eq]
      by_contra hne
      have hlt := getD_lt_of_contains (contains_unravel (Nat.pos_of_ne_zero hne) 0) h.axis_lt
      rw [lengthAlong] at hzero
      omega
    obtain ⟨hcopy, hfresh⟩ := hd.copyInWords_eq hroom hreserve hempty
    refine ⟨d.copy, h, ⟨hfresh, rfl, fun q hq => ?_⟩, ?_⟩
    · exact absurd (size_pos_of_contains hq) (by omega)
    · have hget : src.shape.getD (along.getD 0) 0 = 0 := hzero
      have hwords : d.RollsInWords src shift along ↔
          (along = none → d.ReshapesInWords [d.size]) := and_iff_left fun hlt => absurd hzero hlt.ne'
      rw [ensure_congr hwords]
      simp only [rollInWords, hsource, bind_assoc, ok_bind, hget, if_true, hcopy]
  · have hreserve' : reserve k src.shape src.itemSize = .ok m := by
      obtain ⟨c, hc, hd⟩ := h.sameSize
      rw [reserve_eq_ok_iff] at hreserve ⊢
      rw [hc, h.itemSize_eq, ← hd]
      exact hreserve
    obtain ⟨e, hfresh, hitem, he⟩ := h.plain.turnInWords_eq h.room h.axis_lt hpos hreserve' hs
    obtain ⟨out, hout, hfresh', hitem'⟩ :=
      hfresh.exists_setShapeInWords h.sameSize (h.itemSize_eq.symm ▸ hroom)
    refine ⟨out.withName d.name, h, ⟨(h.itemSize_eq ▸ hfresh').withName _, rfl, fun q hq => ?_⟩, ?_⟩
    · have hin := contains_unravel (h.sameSize.size_eq ▸ size_pos_of_contains hq) (d.shape.ravel q)
      exact (hitem' q hq).trans ((hitem _ hin).trans (h.item_eq shift q hq))
    · have hget : src.shape.getD (along.getD 0) 0 = src.lengthAlong (along.getD 0) := rfl
      have hwords : d.RollsInWords src shift along ↔ (along = none → d.ReshapesInWords [d.size]) ∧
            ∀ r ∈ src.turnedBands (along.getD 0) shift, src.ReadsInWords r :=
        and_congr_right' (forall_prop_of_true hpos)
      rw [ensure_congr hwords, ← ensure_and]
      simp only [rollInWords, hsource, bind_assoc, ok_bind, hget, if_neg hpos.ne', he, hout]
      rfl

theorem Fresh.rollsInWords {axis : Option Nat} (h : d.Fresh k s n) (hroom : s.room n < half)
    (hsrc : d.RollsFrom src k axis) : d.RollsInWords src shift axis := by
  obtain rfl := h.shape_eq
  have hrow : room n [d.size] < half := room_singleton_lt hroom
  refine ⟨fun _ => h.reshapesInWords hrow, fun _ => ?_⟩
  cases axis with
  | none => exact (h.reshape hsrc.source).readsInWords_turned hrow (rfl : src.geometry = _) _ shift
  | some a =>
    have hview : src.geometry = d.geometry := by
      rw [show src = d.view from hsrc.source]
      exact Frame.geometry_view d.toFrame
    exact h.readsInWords_turned hroom hview _ shift

variable {axis : Option Nat} {t : Int} {twice once : Block}

theorem RolledOf.plain (h : e.RolledOf d k shift axis) (hd : d.Plain k)
    (haxis : ∀ a ∈ axis, a < d.rank) : e.Plain k where
  sound := h.fresh.sound
  kind_eq := h.fresh.kind_eq
  metadata_eq := h.fresh.metadata_eq
  holds p hp := by
    rw [h.fresh.shape_eq] at hp
    rw [h.item_eq p hp]
    exact hd.holds _ (contains_rolledFrom haxis hp)

theorem RolledOf.trans (h : e.RolledOf d k shift axis) (h' : twice.RolledOf e k t axis)
    (haxis : ∀ a ∈ axis, a < d.rank) : twice.RolledOf d k (shift + t) axis where
  fresh := by
    have hfresh := h'.fresh
    rwa [h.fresh.shape_eq, h.fresh.itemSize_eq] at hfresh
  name_eq := h'.name_eq.trans h.name_eq
  item_eq q hq := by
    have hshape := h.fresh.shape_eq
    rw [h'.item_eq q (by rwa [hshape]), hshape, h.item_eq _ (contains_rolledFrom haxis hq),
      rolledFrom_rolledFrom haxis hq]

/-- Items moved by one shift are the same in every way that they were moved. -/
theorem RolledOf.eq (h : twice.RolledOf d k shift axis) (h' : once.RolledOf d k shift axis) :
    twice.toFrame = once.toFrame ∧ twice.toList = once.toList := by
  have hshape := h'.fresh.shape_eq
  refine ⟨?_, toList_eq_of_items (h.fresh.shape_eq.trans hshape.symm) fun q hq => ?_⟩
  · rw [h.fresh.frame_eq, h'.fresh.frame_eq, h.name_eq, h'.name_eq]
  · rw [hshape] at hq
    rw [h.item_eq q hq, h'.item_eq q hq]

end Roll

/-- **A roll moves the items cyclically, and two rolls are one by the sum of the shifts.** The item
at a coordinate of the axis, or at a place in the row-major order, is the one that many before it,
counted around. The roll of a dataset is given just if the numbers met in reading it are words; the
result is packed and is rolled again in any case, and a roll back gives the first items. Where there
are no items, the shape is asked to take up few. -/
theorem rolls_add_up {axis : Option Int} (hd : d.Plain k)
    (haxis : ∀ x ∈ axis, Shape.normalizeAxis x d.rank = .ok a)
    (hreserve : reserve k d.shape d.itemSize = .ok m)
    (hempty : d.size = 0 → d.shape.room d.itemSize < Word.half) (hs : Word.fits shift = true) :
    let along := axis.map fun _ => a
    ∃ src e, d.RollsFrom src k along ∧ e.RolledOf d k shift along ∧
      d.rollInWords shift axis = (do Word.ensure (d.RollsInWords src shift along); .ok e) ∧
      (d.Fresh k d.shape d.itemSize → d.rollInWords shift axis = .ok e) ∧
      ∀ t, Word.fits t = true → ∃ twice, e.rollInWords t axis = .ok twice ∧
        twice.RolledOf d k (shift + t) along ∧
        (∀ once, Word.fits (shift + t) = true → d.rollInWords (shift + t) axis = .ok once →
          twice.toFrame = once.toFrame ∧ twice.toList = once.toList) ∧
        (shift + t = 0 → twice.toList = d.toList) := by
  intro along
  have hroom := room_lt_of_reserve hreserve hempty
  have halong : ∀ b ∈ along, b < d.rank := by
    intro b hb
    obtain ⟨x, hx, rfl⟩ := Option.mem_map.mp hb
    exact Permutation.normalizeAxis_lt (haxis x hx)
  obtain ⟨src, e, hsrc, hrolled, he⟩ := hd.exists_rolled haxis hreserve hroom hs
  refine ⟨src, e, hsrc, hrolled, he, fun hfresh => ?_, fun t ht => ?_⟩
  · rw [he, Word.ensure_of (hfresh.rollsInWords hroom hsrc)]
    rfl
  have hshape := hrolled.fresh.shape_eq
  have hitemSize := hrolled.fresh.itemSize_eq
  obtain ⟨src', twice, hsrc', hagain, htwice⟩ := (hrolled.plain hd halong).exists_rolled
    (by rwa [Frame.rank, hshape]) (by rwa [hshape, hitemSize]) (by rwa [hshape, hitemSize]) ht
  have hsum := hrolled.trans hagain halong
  rw [Word.ensure_of (hrolled.fresh.rollsInWords hroom hsrc')] at htwice
  refine ⟨twice, htwice, hsum, fun once hfits honce => ?_, fun hzero => ?_⟩
  · obtain ⟨_, e', -, hrolled', he'⟩ := hd.exists_rolled haxis hreserve hroom hfits
    simp only [he', bind_eq_ok, Except.ok.injEq] at honce
    obtain ⟨-, -, rfl⟩ := honce
    exact hsum.eq hrolled'
  · refine toList_eq_of_items hsum.fresh.shape_eq fun q hq => ?_
    rw [hsum.item_eq q hq, hzero, Shape.rolledFrom_zero halong hq]

theorem rolls_add_up_pairs : ∃ e back : Block, pairRows.rollInWords 7 (some (-2)) = .ok e ∧
    e.item [0, 1] = pairRows.item [2, 1] ∧ e.rollInWords (-7) (some (-2)) = .ok back ∧
      back.toList = pairRows.toList := by
  have hplain : pairRows.Plain (.int true .w32) :=
    plain_ofList (by decide) rfl (by decide) (by decide)
  have haxis : ∀ x ∈ some (-2), Shape.normalizeAxis x pairRows.rank = .ok 0 := by
    rintro _ ⟨⟩
    rfl
  obtain ⟨_, e, -, hrolled, -, hpacked, hagain⟩ :=
    rolls_add_up hplain haxis rfl (by decide) (by decide : Word.fits 7 = true)
  obtain ⟨back, hback, -, -, hsame⟩ := hagain (-7) (by decide)
  exact ⟨e, back, hpacked ⟨rfl, hplain.sound, rfl, by decide⟩, hrolled.item_eq [0, 1] rfl, hback,
    hsame rfl⟩

/-- A dataset without items is not rolled in words if an axis is too long. -/
theorem long_axis_stops_rolling :
    zeros (.int true .w32) 1 [0, 9223372036854775808] = .ok farColumns ∧
    farColumns.Plain (.int true .w32) ∧ Shape.normalizeAxis 1 farColumns.rank = .ok 1 ∧
    reserve (.int true .w32) farColumns.shape 1 = .ok 0 ∧
    farColumns.rollInWords 1 (some 1) = .error (.fault .overflow) :=
  ⟨rfl, plain_ofList (by decide) rfl (by decide) (by simp), rfl, rfl, rfl⟩

end Dataset

end Hyperslab
