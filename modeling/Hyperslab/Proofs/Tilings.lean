import Hyperslab.Proofs.Joins

/-!
# Tiling

A position of a tiled dataset is a position of the dataset and the number of a tile along each axis.
Rows of many columns are copied tile by tile: a write has the items of all positions in one tile.
Other datasets are scattered item by item: a write has the item of one position in all tiles. Both
put the same items everywhere.
-/
namespace Hyperslab

open Dataset List Region Shape Word

/-! ## Positions in tiles -/

namespace Shape

variable {s reps : Shape} {j p q : Position}

/-- The shape repeated along each axis. -/
def tiled (s reps : Shape) : Shape := List.zipWith (· * ·) s reps

@[simp] theorem length_tiled (s reps : Shape) :
    (s.tiled reps).length = min s.length reps.length := length_zipWith

theorem size_tiled (hlength : reps.length = s.length) :
    (s.tiled reps).size = s.size * reps.size := by
  simp only [size_eq_prod]
  exact (prod_mul_prod_eq_prod_zipWith_of_length_eq s reps hlength.symm).symm

theorem le_tiled (hlength : reps.length = s.length) :
    Forall₂ (· ≤ ·) s (s.tiled (reps.map (max · 1))) := by
  refine forall₂_iff_get.mpr ⟨by simp [hlength], fun i hi _ => ?_⟩
  simpa [tiled] using Nat.le_mul_of_pos_right s[i] (by omega)

theorem tiled_le (s reps : Shape) :
    Forall₂ (· ≤ ·) (s.tiled reps) (s.tiled (reps.map (max · 1))) := by
  refine forall₂_iff_get.mpr ⟨by simp, fun i _ _ => ?_⟩
  simpa [tiled] using Nat.mul_le_mul_left _ (Nat.le_max_left ..)

theorem tiled_of_pos (hpos : 0 < (s.tiled reps).size) :
    s.tiled (reps.map (max · 1)) = s.tiled reps := by
  refine ext_getElem (by simp) fun i _ hi => ?_
  have hd := pos_of_mem hpos (getElem_mem hi)
  simp only [tiled, getElem_zipWith, getElem_map] at hd ⊢
  rw [Nat.max_eq_left (Nat.pos_of_mul_pos_left hd)]

/-- Position `p` of a shape in the tile with number `j`. -/
def tilePosition (s : Shape) (j p : Position) : Position :=
  List.zipWith (· + ·) (List.zipWith (· * ·) j s) p

theorem contains_mod_div (hlength : reps.length = s.length) (hq : (s.tiled reps).contains q) :
    s.contains (zipWith (· % ·) q s) ∧ reps.contains (zipWith (· / ·) q s) := by
  obtain ⟨hrank, hlt⟩ := contains_iff_getElem.mp hq
  have hc (i : Nat) (h₁ : i < q.length) (h₂ : i < s.length) (h₃ : i < reps.length) :
      q[i] < s[i] * reps[i] := by simpa [tiled] using hlt i h₁ (by simp_all)
  constructor <;> refine contains_iff_getElem.mpr ⟨by simp [hrank, hlength], fun i hi hs => ?_⟩ <;>
    have hi := hc i (by simp_all) (by simp_all) (by simp_all) <;>
    simp only [getElem_zipWith]
  · exact Nat.mod_lt _ (Nat.pos_of_mul_pos_right (Nat.zero_lt_of_lt hi))
  · exact Nat.div_lt_of_lt_mul hi

theorem exists_tilePosition (hlength : reps.length = s.length) (hq : (s.tiled reps).contains q) :
    ∃ j p, reps.contains j ∧ s.contains p ∧ s.tilePosition j p = q := by
  have hrank := length_of_contains hq
  obtain ⟨hmod, hdiv⟩ := contains_mod_div hlength hq
  refine ⟨_, _, hdiv, hmod, ?_⟩
  refine ext_getElem (by simp [tilePosition, hrank]) fun i _ _ => ?_
  simp [tilePosition, Nat.div_add_mod']

theorem mod_tilePosition (hlength : j.length = s.length) (hp : s.contains p) :
    zipWith (· % ·) (tilePosition s j p) s = p := by
  obtain ⟨hrank, hlt⟩ := contains_iff_getElem.mp hp
  refine ext_getElem (by simp [tilePosition, hlength, hrank]) fun i hi hp => ?_
  simp [tilePosition, Nat.mod_eq_of_lt (hlt i hp (hrank ▸ hp))]

end Shape

/-! ## Regions of tiles -/

namespace Span

def tile (t d : Nat) : Span := ⟨(t * d : Nat), ((t + 1) * d : Nat), 1, (t + 1) * d - t * d⟩

/-- One coordinate in all tiles along an axis. -/
def copies (c d r : Nat) : Span := ⟨(min c (d * r) : Nat), (d * r : Nat), d, r⟩

theorem count_tile (t d : Nat) : (tile t d).count = d := by
  simp only [tile, Nat.succ_mul, Nat.add_sub_cancel_left]

theorem coord_tile (t d c : Nat) : ((tile t d).coord c).toNat = t * d + c := by
  simp only [coord, tile]
  omega

theorem coord_copies {c d r t : Nat} (hc : c < d) (ht : t < r) :
    ((copies c d r).coord t).toNat = t * d + c := by
  have hle : d ≤ d * r := Nat.le_mul_of_pos_right d (by omega)
  simp only [coord, copies, Nat.min_eq_left (hc.le.trans hle)]
  rw [← Nat.cast_mul, ← Nat.cast_add, Int.toNat_natCast, Nat.add_comm]

end Span

namespace Slice

theorem resolve_tile {t d r : Nat} (ht : t < r) (hsmall : d * r < half) :
    (between (t * d) ((t + 1) * d)).resolve (d * r) (d * r) = .ok (Span.tile t d) := by
  refine resolve_between (Nat.mul_le_mul_right d (Nat.le_succ t)) ?_ hsmall
  rw [Nat.mul_comm d]
  exact Nat.mul_le_mul_right d ht

theorem resolve_copies {c d r : Nat} (hc : c < d) (hsmall : d * max r 1 < half) :
    (range (some (c : Int)) none (max (if r = 1 then d * r else d) 1 : Nat)).resolve (d * r)
      (d * r) = .ok (Span.copies c d r) := by
  have hle : d * r ≤ d * max r 1 := Nat.mul_le_mul_left d (Nat.le_max_left r 1)
  have hd : d ≤ d * max r 1 := Nat.le_mul_of_pos_right d (by omega)
  have hstep : max (if r = 1 then d * r else d) 1 = d := by
    split
    · rename_i hone
      rw [hone]
      omega
    · omega
  have hstart : clamp 0 ((d * r : Nat) : Int) ((some (c : Int)).elim 0 (wrap (d * r : Nat))) =
      (min c (d * r) : Nat) := by
    rw [Option.elim_some, wrap_of_nonneg (Int.natCast_nonneg c), clamp]
    split <;> omega
  have hstop : clamp 0 ((d * r : Nat) : Int) (Option.elim none ((d * r : Nat) : Int)
      (wrap (d * r : Nat))) = (d * r : Nat) :=
    clamp_of_mem (Int.natCast_nonneg _) le_rfl
  have hsteps : steps ((d * r : Nat) - (min c (d * r) : Nat)) d = r := by
    rcases Nat.eq_zero_or_pos r with rfl | hr
    · simp [steps]
    · obtain ⟨b, rfl⟩ : ∃ b, r = b + 1 := ⟨r - 1, by omega⟩
      have hmul : d * (b + 1) = b * d + d := by rw [Nat.mul_comm, Nat.succ_mul]
      refine steps_eq (by omega) hr ?_ ?_
      · rw [show ((b + 1 : Nat) : Int) - 1 = b by omega]
        omega
      · rw [← Nat.cast_mul, Nat.succ_mul]
        omega
  rw [hstep, resolve_forward (hle.trans_lt hsmall) (Nat.zero_lt_of_lt hc) (by omega) hstart hstop,
    hsteps]
  rfl

end Slice

namespace Region

variable {s reps : Shape} {j p q : Position}

def tile (s reps : Shape) (j : Position) : Region :=
  ⟨s.tiled reps, none, List.zipWith Span.tile j s, false, .none⟩

/-- One position in all tiles. -/
def copies (s reps : Shape) (p : Position) : Region :=
  ⟨s.tiled reps, none,
    List.zipWith (fun c (d : Nat × Nat) => Span.copies c d.1 d.2) p (s.zip reps), false, .none⟩

theorem ofSlices_tile (hlength : reps.length = s.length) (hj : reps.contains j)
    (hsmall : ∀ d ∈ s.tiled reps, d < half) :
    ofSlices (s.tiled reps) (tileSlices s j) = .ok (tile s reps j) := by
  obtain ⟨hrank, hlt⟩ := contains_iff_getElem.mp hj
  refine ofSlices_of_resolve (by simp [tileSlices, hrank, hlength])
    (forall₂_iff_get.mpr ⟨by simp [tileSlices, hrank], fun i h₁ h₂ => ?_⟩)
  have hi : i < j.length := by simp_all
  have hd := hsmall _ (getElem_mem (n := i) (by simp_all))
  simpa [tileSlices, tiled] using
    Slice.resolve_tile (hlt i hi (hrank ▸ hi)) (by simpa [tiled] using hd)

theorem ofSlices_copies (hlength : reps.length = s.length) (hp : s.contains p)
    (hsmall : ∀ d ∈ s.tiled (reps.map (max · 1)), d < half) :
    ofSlices (s.tiled reps) (itemSlices s reps (s.tiled reps) p) = .ok (copies s reps p) := by
  obtain ⟨hrank, hlt⟩ := contains_iff_getElem.mp hp
  refine ofSlices_of_resolve (by simp [itemSlices, hrank])
    (forall₂_iff_get.mpr ⟨by simp [itemSlices, hrank], fun i h₁ h₂ => ?_⟩)
  have hi : i < p.length := by simp_all [itemSlices]
  have hd := hsmall _ (getElem_mem (n := i) (by simp_all))
  simpa [itemSlices, tiled] using
    Slice.resolve_copies (hlt i hi (hrank ▸ hi)) (by simpa [tiled] using hd)

theorem shape_tile (hj : j.length = s.length) : (tile s reps j).shape = s :=
  ext_getElem (by simp [tile, shape, hj]) fun i _ _ => by
    simp [tile, shape, Span.count_tile]

theorem shape_copies (hlength : reps.length = s.length) (hp : p.length = s.length) :
    (copies s reps p).shape = reps :=
  ext_getElem (by simp [copies, shape, hlength, hp]) fun i _ _ => by
    simp [copies, shape, Span.copies]

private theorem toNat_coords_tile (s reps : Shape) (j p : Position) :
    ((tile s reps j).coords p).map Int.toNat = s.tilePosition j p := by
  refine ext_getElem (by simp [tile, coords, tilePosition]) fun i _ _ => ?_
  simp [tile, coords, tilePosition, Span.coord_tile]

private theorem toNat_coords_copies (hj : reps.contains j) (hp : s.contains p)
    (hlength : reps.length = s.length) :
    ((copies s reps p).coords j).map Int.toNat = s.tilePosition j p := by
  obtain ⟨hj', hjlt⟩ := contains_iff_getElem.mp hj
  obtain ⟨hp', hplt⟩ := contains_iff_getElem.mp hp
  refine ext_getElem (by simp [copies, coords, tilePosition, hj', hp', hlength]) fun i h₁ h₂ => ?_
  have hi : i < s.length := by simp_all [tilePosition]
  simpa [copies, coords, tilePosition] using
    Span.coord_copies (hplt i (hp' ▸ hi) hi) (hjlt i (by omega) (by omega))

/-! ### One tile -/

section tile

variable (hlength : reps.length = s.length) (hj : reps.contains j = true)
  (hsmall : ∀ d ∈ s.tiled reps, d < half)

include hlength hj hsmall

theorem valid_tile : (tile s reps j).Valid := valid_ofSlices (ofSlices_tile hlength hj hsmall)

theorem stepsWithin_tile : (tile s reps j).StepsWithin (s.tiled reps) := by
  refine stepsWithin_of_unit (valid_tile hlength hj hsmall) fun span hspan => ?_
  obtain ⟨i, hi, rfl⟩ := getElem_of_mem hspan
  simp only [tile, getElem_zipWith, Span.tile]

theorem sourcePosition_tile (hp : s.contains p) :
    (tile s reps j).sourcePosition p = s.tilePosition j p := by
  have hj' : j.length = s.length := (length_of_contains hj).trans hlength
  rw [(valid_tile hlength hj hsmall).sourcePosition_eq
    (fun d hd => ((hsmall d hd).trans (by decide)).le) (by rwa [shape_tile hj'])]
  exact toNat_coords_tile ..

end tile

/-! ### One position in all tiles -/

section copies

variable (hlength : reps.length = s.length) (hp : s.contains p = true)
  (hsmall : ∀ d ∈ s.tiled (reps.map (max · 1)), d < half)

include hlength hp hsmall

theorem valid_copies : (copies s reps p).Valid := valid_ofSlices (ofSlices_copies hlength hp hsmall)

theorem sourcePosition_copies (hj : reps.contains j) :
    (copies s reps p).sourcePosition j = s.tilePosition j p := by
  have hmodulus : half ≤ modulus := by decide
  have hle : ∀ d ∈ s.tiled reps, d ≤ modulus := by
    intro d hd
    obtain ⟨i, hi, rfl⟩ := getElem_of_mem hd
    have hi' := (tiled_le s reps).length_eq ▸ hi
    have hlt := hsmall _ (get_mem _ ⟨i, hi'⟩)
    exact (((tiled_le s reps).get hi hi').trans_lt hlt).le.trans hmodulus
  rw [(valid_copies hlength hp hsmall).sourcePosition_eq hle
    (by rwa [shape_copies hlength (length_of_contains hp)])]
  exact toNat_coords_copies hj hp hlength

omit hsmall in
theorem stepsWithin_copies : (copies s reps p).StepsWithin (s.tiled (reps.map (max · 1))) := by
  have hp' := length_of_contains hp
  refine forall₂_iff_get.mpr ⟨by simp [copies, hp'], fun i h₁ h₂ => ?_⟩
  have hi : i < s.length ∧ i < reps.length := by simp_all
  have hd := Nat.le_mul_of_pos_right (s.get ⟨i, hi.1⟩) (m := max (reps.get ⟨i, hi.2⟩) 1) (by omega)
  simp only [copies, Span.copies, tiled, get_eq_getElem, getElem_zipWith,
    getElem_zip, getElem_map, Nat.abs_cast] at hd ⊢
  omega

end copies

end Region

/-! ## The two ways to tile -/

namespace Dataset

variable {d src out e : Block} {k : Kind} {reps : Shape} {j p : Position}

/-- The items of `src` repeated along each axis. -/
structure Tiles (e src : Block) (reps : Shape) : Prop where
  fresh : e.Fresh src.kind (src.shape.tiled reps) src.itemSize
  item_eq : ∀ q, (src.shape.tiled reps).contains q = true →
    e.item q = src.item (List.zipWith (· % ·) q src.shape)

theorem Tiles.toList_eq {e' : Block} (h : e.Tiles src reps) (h' : e'.Tiles src reps) :
    e.toList = e'.toList := by
  refine toList_eq_of_items (h.fresh.shape_eq.trans h'.fresh.shape_eq.symm) fun q hq => ?_
  rw [h'.fresh.shape_eq] at hq
  rw [h.item_eq q hq, h'.item_eq q hq]

/-- Writes of repeated items that cover every position make up a tiling. -/
theorem Fills.tiles {covered : Position → Prop}
    (h : e.Fills out (fun q => src.item (zipWith (· % ·) q src.shape)) covered)
    (hout : out.Fresh src.kind (src.shape.tiled reps) src.itemSize)
    (hall : ∀ q, (src.shape.tiled reps).contains q → covered q) : e.Tiles src reps where
  fresh := h.fresh hout
  item_eq q hq := h.item_of q (hout.shape_eq ▸ hq) (hall q hq)

theorem zipIdx_itemList (d : Block) :
    d.itemList.zipIdx = d.shape.positions.map fun p => (d.item p, d.shape.ravel p) := by
  apply ext_getElem?
  intro i
  rw [itemList_eq, positions_eq]
  rcases Nat.lt_or_ge i d.shape.size with hi | hi
  · simp [hi, ravel_unravel hi]
  · simp [hi]

theorem ofElements_item {n : Nat} {l : List Scalar} (hn : 0 < n) (hfew : n ≤ maxElements)
    (hl : l.length = n) : ∃ e, ofElements k n [] l = .ok e ∧ e.Sound ∧ e.metadata = .empty ∧
      e.layout = .dense ∧ e.itemSize = n ∧ e.shape = [] ∧ e.item [] = l := by
  have hcount : elementCount [] n = .ok n := elementCount_eq_ok_iff.mpr ⟨1, rfl, by omega, by omega⟩
  have hlist : k.bytes * (size [] * n) < half := by
    rw [size_nil, Nat.one_mul]
    exact bytes_mul_lt hfew
  have hmake := ofElements_positions (k := k) hn (fun _ _ => hl) hcount
  have hflat : ((positions []).map fun _ => l).flatten = l := by simp [positions_eq]
  rw [hflat] at hmake
  exact ⟨_, hmake, sound_ofItems hn (fun _ _ => hl) hlist, rfl, rfl, rfl, rfl,
    item_ofItems hn (fun _ _ => hl) hlist rfl⟩

section

variable (hsrc : src.OfKind src.kind) (hlength : reps.length = src.shape.length)

include hsrc hlength

theorem Fresh.copyTile_eq (hmeta : src.metadata = .empty)
    (hroom : (src.shape.tiled reps).room src.itemSize < Word.half)
    (hd : d.Fresh src.kind (src.shape.tiled reps) src.itemSize) (hj : reps.contains j) :
    ∃ e, (do d.setSliceInWords (← Region.ofSlices d.shape (tileSlices src.shape j)) src) =
        (do Word.ensure (Word.AllFit src.geometry.walkNumbers); .ok e) ∧
      e.Fills d (fun q => src.item (List.zipWith (· % ·) q src.shape))
        (Region.tile src.shape reps j).Covers := by
  have hsmall := lt_half_of_room hsrc.sound.itemSize_pos hroom
  have hj' : j.length = src.shape.length := (length_of_contains hj).trans hlength
  have hvalid := valid_tile hlength hj hsmall
  have hshape : (Region.tile src.shape reps j).shape = src.shape := shape_tile hj'
  obtain ⟨e, -, hwords, hwrite⟩ := hd.setSlice_of_shape hroom hvalid rfl
    (stepsWithin_tile hlength hj hsmall) hsrc.sound (.inl rfl) hshape.symm
  refine ⟨e, ?_, hwrite.fills hd.sound hd.metadata_eq hvalid hd.shape_eq.symm fun p hp => ?_⟩
  · rw [hd.shape_eq, ofSlices_tile hlength hj hsmall]
    rw [ok_bind, hwords, ensure_congr (and_iff_right (hmeta ▸ Metadata.copiesInWords_empty))]
  · rw [hshape] at hp
    rw [sourcePosition_tile hlength hj hsmall hp, mod_tilePosition hj' hp, hsrc.fitItem_self hp]

/-- **Tile by tile.** Every copy walks the source. -/
theorem tileByCopies_eq (hmeta : src.metadata = .empty)
    (hroom : (src.shape.tiled reps).room src.itemSize < Word.half)
    (hout : out.Fresh src.kind (src.shape.tiled reps) src.itemSize) :
    ∃ e, e.Tiles src reps ∧ src.tileByCopies reps out = (do
      Word.ensure (reps.sizeChecked.isSome ∧
        (reps.size = 0 ∨ Word.AllFit src.geometry.walkNumbers))
      .ok e) := by
  have hsmall := lt_half_of_room hsrc.sound.itemSize_pos hroom
  have hstep (j : Position) (hj : j ∈ reps.positions) (d : Block)
      (hd : d.Fresh src.kind (src.shape.tiled reps) src.itemSize) :=
    hd.copyTile_eq hsrc hlength hmeta hroom (mem_positions.mp hj)
  obtain ⟨e, he, hfills⟩ := hout.foldlM_fills hstep
  refine ⟨e, hfills.tiles hout fun q hq => ?_, ?_⟩
  · obtain ⟨j, p, hj, hp, rfl⟩ := exists_tilePosition hlength hq
    refine ⟨j, mem_positions.mpr hj, p, ?_, sourcePosition_tile hlength hj hsmall hp⟩
    rwa [shape_tile ((length_of_contains hj).trans hlength)]
  · have hwalks : (∀ j ∈ reps.positions, Word.AllFit src.geometry.walkNumbers) ↔
        reps.size = 0 ∨ Word.AllFit src.geometry.walkNumbers := by
      rw [← length_positions]
      cases reps.positions <;> simp +contextual
    rw [tileByCopies, sizeWord_bind, he, Word.ensure_congr hwalks, Word.ensure_and]

section

variable (hroom : (src.shape.tiled (reps.map (max · 1))).room src.itemSize < half)
  (hfew : 0 < src.size → src.itemSize ≤ maxElements)
include hroom hfew

theorem Fresh.scatterItem_eq
    (hd : d.Fresh src.kind (src.shape.tiled reps) src.itemSize) (hp : p ∈ src.shape.positions) :
    ∃ e, (do
        let value ← ofElements src.kind src.itemSize [] (src.item p)
        let r ← ofSlices d.shape
          (itemSlices src.shape reps d.shape (unravel (src.shape.ravel p) src.shape))
        d.setSliceInWords r value) = (do ensure True; .ok e) ∧
      e.Fills d (fun q => src.item (zipWith (· % ·) q src.shape))
        (copies src.shape reps p).Covers := by
  have hp := mem_positions.mp hp
  have hfew := hfew (size_pos_of_contains hp)
  have hn := hsrc.sound.itemSize_pos
  have hsmall := lt_half_of_room hn hroom
  have hp' := length_of_contains hp
  obtain ⟨value, hvalue, hsound, hmeta, hdense, hsize, hshape, hitem⟩ :=
    ofElements_item hn hfew (src.length_item p)
  have hvalid := valid_copies hlength hp hsmall
  obtain ⟨e, hwords, hfills⟩ := hd.setSlice_of_item (tiled_le ..) hroom
    tiled_of_pos hvalid rfl (stepsWithin_copies hlength hp) hsound hmeta hdense hsize
    hshape hfew
  refine ⟨e, ?_, hfills.congr (fun _ _ => Iff.rfl) fun q _ hcovered => ?_⟩
  · rw [hvalue, hd.shape_eq, unravel_ravel hp, ofSlices_copies hlength hp hsmall]
    exact hwords
  · obtain ⟨j, hj, rfl⟩ := hcovered
    rw [shape_copies hlength hp'] at hj
    rw [sourcePosition_copies hlength hp hsmall hj,
      mod_tilePosition ((length_of_contains hj).trans hlength) hp, hitem,
      hsrc.fitItem_self hp]

/-- **Item by item.** The source is walked once. -/
theorem tileByItems_eq (hout : out.Fresh src.kind (src.shape.tiled reps) src.itemSize) :
    ∃ e, e.Tiles src reps ∧ src.tileByItems reps out = (do
      ensure (AllFit src.geometry.walkNumbers)
      .ok e) := by
  have hn := hsrc.sound.itemSize_pos
  have hsmall := lt_half_of_room hn hroom
  have hstep (p : Position) (hp : p ∈ src.shape.positions) (d : Block)
      (hd : d.Fresh src.kind (src.shape.tiled reps) src.itemSize) :=
    hd.scatterItem_eq hsrc hlength hroom hfew hp
  obtain ⟨e, he, hfills⟩ := hout.foldlM_fills hstep
  refine ⟨e, hfills.tiles hout fun q hq => ?_, ?_⟩
  · obtain ⟨j, p, hj, hp, rfl⟩ := exists_tilePosition hlength hq
    refine ⟨p, mem_positions.mpr hp, j, ?_, sourcePosition_copies hlength hp hsmall hj⟩
    rwa [shape_copies hlength (length_of_contains hp)]
  · have hstrides : src.HasStrides := fun _ => stridesFit_of_room hn
      ((room_le_room (le_tiled hlength) le_rfl).trans_lt hroom)
    have hread : src.checkRead = .ok () := check_eq_ok.mpr hsrc.sound.fault_eq_none
    rw [tileByItems, Frame.checkWalk_eq, ensure_congr (and_iff_right hstrides), hread,
      zipIdx_itemList, foldlM_map, he, ensure_of (fun _ _ => trivial)]
    rfl

end

end

end Dataset

/-! ## Unit axes in front -/

namespace Shape

/-- A unit axis has one coordinate, so unit axes in front of a shape do not count. -/
theorem ravel_ones {s : Shape} {c : Nat} {p : Position} (hp : contains (replicate c 1 ++ s) p) :
    s.contains (p.drop c) ∧ ravel (replicate c 1 ++ s) p = s.ravel (p.drop c) := by
  induction c generalizing p with
  | zero => exact ⟨hp, rfl⟩
  | succ c ih =>
    obtain ⟨x, p, rfl, hx, hp⟩ := exists_of_contains_cons hp
    obtain rfl : x = 0 := by omega
    obtain ⟨hcontains, hravel⟩ := ih hp
    exact ⟨hcontains, by simpa [replicate_succ] using hravel⟩

theorem room_pad (s : Shape) (rank itemSize : Nat) :
    (s.pad rank).room itemSize = s.room itemSize := by
  simp [room, pad, size_eq_prod]

end Shape

namespace Dataset

variable {d e src : Block} {k : Kind} {n : Nat}

/-- **The dataset with unit axes in front.** -/
theorem Plain.exists_padded (hd : d.Plain k) (hroom : d.shape.room d.itemSize < half)
    (n : Nat) : ∃ src, d.reshape (d.shape.pad n) = .ok src ∧
      d.reshapeInWords (d.shape.pad n) = .ok src ∧ src.Plain k ∧ src.shape = d.shape.pad n ∧
      src.itemSize = d.itemSize ∧
      ∀ p, (d.shape.pad n).contains p → src.item p = d.item (p.drop (n - d.rank)) := by
  have hk := hd.sound.itemSize_pos
  obtain ⟨c, hc⟩ := Option.isSome_iff_exists.mp (sizeChecked_of_room hk hroom)
  have hsize : d.shape.SameSize (d.shape.pad n) := ⟨c, hc, by rw [sizeChecked_pad, hc]⟩
  have hkeeps : d.KeepsBuffer (d.shape.pad n) :=
    .inr (differsByOnes_iff.mpr (by simp [Shape.pad, Shape.squeeze]))
  have hwords : d.ReshapesInWords (d.shape.pad n) :=
    ⟨fun _ => stridesFit_of_room hk (by rwa [room_pad]), fun hnot => absurd hkeeps hnot⟩
  obtain ⟨src, hsrc⟩ := hd.sound.exists_reshape hd.metadata_eq hsize
  obtain ⟨hshape, -, hitem⟩ := hd.sound.reshape_eq_ok hd.metadata_eq hsrc
  refine ⟨src, hsrc, ?_, hd.reshape hsrc, hshape, (hd.sound.frame_reshape hsrc).1,
    fun p hp => ?_⟩
  · rw [reshapeInWords, checkRegrouped_of_empty hd.metadata_eq, Frame.checkReshape_eq hsize,
      ensure_of hwords]
    exact hsrc
  · obtain ⟨hcontains, hravel⟩ := ravel_ones hp
    rw [hitem p hp]
    exact congrArg d.item ((congrArg (unravel · d.shape) hravel).trans (unravel_ravel hcontains))

/-- What is asked of the numbers met in tiling: the source has to be walked, once for each tile where
rows are copied. -/
def TilesInWords (src : Block) (reps : Shape) : Prop :=
  if src.rank = 1 ∨ manyColumns < src.shape.getLastD 0 then
    reps.sizeChecked.isSome = true ∧ (reps.size = 0 ∨ Word.AllFit src.geometry.walkNumbers)
  else Word.AllFit src.geometry.walkNumbers

instance (src : Block) (reps : Shape) : Decidable (src.TilesInWords reps) := by
  unfold TilesInWords
  infer_instance

theorem tilesInWords_of_walk {reps : Shape} (hchecked : reps.sizeChecked.isSome)
    (hwalk : AllFit src.geometry.walkNumbers) : src.TilesInWords reps := by
  rw [TilesInWords]
  split
  · exact ⟨hchecked, .inr hwalk⟩
  · exact hwalk

/-- One of the two ways is taken. They differ in the numbers that they meet, not in the items. -/
theorem exists_tiles {out : Block} {reps : Shape} (hsrc : src.OfKind src.kind)
    (hmeta : src.metadata = .empty) (hlength : reps.length = src.shape.length)
    (hroom : (src.shape.tiled (reps.map (max · 1))).room src.itemSize < half)
    (hfew : 0 < src.size → src.itemSize ≤ maxElements)
    (hout : out.Fresh src.kind (src.shape.tiled reps) src.itemSize) :
    ∃ e, e.Tiles src reps ∧
      (if src.rank = 1 ∨ manyColumns < src.shape.getLastD 0 then src.tileByCopies reps out
        else src.tileByItems reps out) = (do ensure (src.TilesInWords reps); .ok e) ∧
      ∀ copied scattered, src.tileByCopies reps out = .ok copied →
        src.tileByItems reps out = .ok scattered →
        copied.toList = e.toList ∧ scattered.toList = e.toList := by
  have hnew := (room_le_room (tiled_le src.shape reps) le_rfl).trans_lt hroom
  obtain ⟨copied, hcopied, hcopies⟩ := tileByCopies_eq hsrc hlength hmeta hnew hout
  obtain ⟨scattered, hscattered, hitems⟩ := tileByItems_eq hsrc hlength hroom hfew hout
  obtain ⟨e, htiles, he⟩ : ∃ e, e.Tiles src reps ∧
      (if src.rank = 1 ∨ manyColumns < src.shape.getLastD 0 then src.tileByCopies reps out
        else src.tileByItems reps out) = (do ensure (src.TilesInWords reps); .ok e) := by
    by_cases hmany : src.rank = 1 ∨ manyColumns < src.shape.getLastD 0
    · exact ⟨copied, hcopied, by simp only [TilesInWords, if_pos hmany, hcopies]⟩
    · exact ⟨scattered, hscattered, by simp only [TilesInWords, if_neg hmany, hitems]⟩
  refine ⟨e, htiles, he, fun a b ha hb => ?_⟩
  simp only [hcopies, hitems, bind_eq_ok, Except.ok.injEq] at ha hb
  obtain ⟨-, -, rfl⟩ := ha
  obtain ⟨-, -, rfl⟩ := hb
  exact ⟨hcopied.toList_eq htiles, hscattered.toList_eq htiles⟩

private theorem tile_of {out : Block} {reps : List Nat} {rank columns : Nat}
    (hrank : max d.rank reps.length = rank)
    (hout : zeros d.kind d.itemSize ((d.shape.pad rank).tiled (pad reps rank)) = .ok out)
    (hsrc : d.reshapeInWords (d.shape.pad rank) = .ok src)
    (hany : ¬ ((d.shape.pad rank).tiled (pad reps rank)).any (modulus ≤ ·))
    (hcolumns : (d.shape.pad rank).getLast? = some columns) :
    d.tile reps = (·.withName d.name) <$>
      if rank = 1 ∨ manyColumns < columns then src.tileByCopies (pad reps rank) out
      else src.tileByItems (pad reps rank) out := by
  subst hrank
  rw [tiled] at hout hany
  rw [tile, if_neg hany, hout, hsrc]
  simp only [hcolumns]
  split <;> rfl

/-- **Both ways of tiling put the same items everywhere**: at each position, the item at the
remainders of the coordinates. In words the dataset has to be walked, as a packed one always can be,
and where rows are copied the number of tiles has to be a word. A result without items is asked to
take up few words. -/
theorem tilings_agree (d : Block) (k : Kind) (reps : List Nat) (m : Nat) :
    let rank := max d.rank reps.length
    let s := d.shape.pad rank
    let counts := Shape.pad reps rank
    let new := s.tiled counts
    d.Plain k → 0 < rank → d.buffer.size ≤ maxElements → reserve k new d.itemSize = .ok m →
    (new.size = 0 → (s.tiled (counts.map (max · 1))).room d.itemSize < Word.half) →
    ∃ src e : Block, d.reshape s = .ok src ∧ e.Fresh k new d.itemSize ∧ e.name = d.name ∧
      (∀ q, new.contains q = true →
        e.item q = d.item ((List.zipWith (· % ·) q s).drop (rank - d.rank))) ∧
      d.tile reps = (do Word.ensure (src.TilesInWords counts); .ok e) ∧
      (d.layout = .dense → counts.sizeChecked.isSome = true → d.tile reps = .ok e) ∧
      (0 < new.size → counts.sizeChecked.isSome = true) ∧
      ∀ out copied scattered : Block, zeros k d.itemSize new = .ok out →
        src.tileByCopies counts out = .ok copied → src.tileByItems counts out = .ok scattered →
        copied.toList = e.toList ∧ scattered.toList = e.toList := by
  intro rank s counts new hd hrank hbuffer hreserve hempty
  have hn := hd.sound.itemSize_pos
  have hs : s.length = rank := Shape.length_pad (Nat.le_max_left ..)
  have hlength : counts.length = s.length := (Shape.length_pad (Nat.le_max_right ..)).trans hs.symm
  have hfull : (s.tiled (counts.map (max · 1))).room d.itemSize < Word.half := by
    rcases Nat.eq_zero_or_pos new.size with hzero | hpos
    · exact hempty hzero
    · rw [Shape.tiled_of_pos hpos]
      exact room_lt_of_reserve hreserve fun hzero => absurd hzero hpos.ne'
  have hown : d.shape.room d.itemSize < Word.half := by
    rw [← Shape.room_pad d.shape rank]
    exact (Shape.room_le_room (Shape.le_tiled hlength) le_rfl).trans_lt hfull
  obtain ⟨src, hsrc, hpadded, hkind, hshape, hsize, hitem⟩ := hd.exists_padded hown rank
  have hfew : 0 < src.size → src.itemSize ≤ maxElements := by
    intro hpos
    have hd' : 0 < d.shape.size := by
      rwa [Frame.size, hshape, Shape.size_pad] at hpos
    have hle := (hd.sound.indexOf_eq_ok (Shape.contains_unravel hd' 0)).2
    omega
  obtain ⟨out, hout⟩ : ∃ out, zeros k d.itemSize new = .ok out :=
    ⟨_, by rw [← bind_pure (zeros ..), zeros_bind hn, hreserve]; rfl⟩
  obtain rfl := hkind.kind_eq
  have hfresh : out.Fresh src.kind (src.shape.tiled counts) src.itemSize := by
    rw [hsize, hshape]
    exact fresh_of_zeros hout
  have hrank' : src.rank = rank := (congrArg List.length hshape).trans hs
  obtain ⟨e, htiles, he, hsame⟩ := exists_tiles hkind.ofKind hkind.metadata_eq (by rwa [hshape])
    (by rw [hsize, hshape]; exact hfull) hfew hfresh
  have htile : d.tile reps = (do
      Word.ensure (src.TilesInWords counts)
      .ok (e.withName d.name)) := by
    have hany : ¬ new.any (Word.modulus ≤ ·) = true := by
      have hnew := (Shape.room_le_room (Shape.tiled_le s counts) le_rfl).trans_lt hfull
      have hmodulus : Word.half < Word.modulus := by decide
      simp only [List.any_eq_true, decide_eq_true_eq, not_exists, not_and, Nat.not_le]
      exact fun x hx => (Shape.lt_half_of_room hn hnew x hx).trans hmodulus
    obtain ⟨c, hc⟩ : ∃ c, s.getLast? = some c :=
      ⟨_, List.getLast?_eq_some_getLast (List.ne_nil_of_length_pos (hs ▸ hrank))⟩
    have hlast : src.shape.getLastD 0 = c := by
      rw [hshape, List.getLastD_eq_getLast?, hc]
      rfl
    rw [hrank', hlast] at he
    rw [tile_of rfl (hd.kind_eq ▸ hout) hpadded hany hc, he, map_bind]
    rfl
  refine ⟨src, e.withName d.name, hsrc, ?_, rfl, fun q hq => ?_, htile, fun hdense hchecked => ?_,
    fun hpos => ?_, fun out' copied scattered hout' => ?_⟩
  · have hfresh := htiles.fresh.withName d.name
    rwa [hsize, hshape] at hfresh
  · have hp := (Shape.contains_mod_div hlength hq).1
    exact (htiles.item_eq q (by rwa [hshape])).trans (by rw [hshape, hitem _ hp])
  · have hwalk := Frame.Sound.allFit_walkNumbers_of_dense hkind.sound (layout_reshape hdense hsrc)
    rw [htile, Word.ensure_of (tilesInWords_of_walk hchecked hwalk)]
    rfl
  · have hmul : new.size = s.size * counts.size := Shape.size_tiled hlength
    have hmax : maxElements < Word.modulus := by decide
    have hle : new.size ≤ maxElements :=
      (Nat.le_mul_of_pos_right _ hn).trans (fresh_of_zeros hout).few
    rw [hmul] at hpos hle
    have hcount := Nat.le_mul_of_pos_left counts.size (Nat.pos_of_mul_pos_right hpos)
    rw [Shape.sizeChecked_of_pos (Nat.pos_of_mul_pos_left hpos) (by omega)]
    rfl
  · obtain rfl : out = out' := Except.ok.inj (hout.symm.trans hout')
    exact hsame copied scattered

/-- Pairs are scattered to two layers of twice as many columns. -/
theorem tilings_agree_pairs : ∃ e : Block, pairRows.tile [2, 1, 2] = .ok e ∧
    e.Fresh (.int true .w32) [2, 3, 4] 2 ∧ e.item [1, 2, 3] = pairRows.item [2, 1] := by
  obtain ⟨_, e, -, hfresh, -, hitem, -, hdense, -, -⟩ := tilings_agree pairRows (.int true .w32)
    [2, 1, 2] 48 (plain_ofList (by decide) rfl (by decide) (by decide)) (by decide) (by decide) rfl
    (by decide)
  exact ⟨e, hdense rfl rfl, hfresh, (hitem [1, 2, 3] rfl).trans rfl⟩

/-- No rows of many columns. -/
def wideRows : Block := ofList (.int true .w32) [0, 70] 1 []

/-- Rows are copied tile by tile, and there are more tiles than words, although each is empty. -/
theorem empty_tiles_stop_tiling :
    wideRows.Plain (.int true .w32) ∧
    reserve (.int true .w32) (Shape.tiled [0, 70] [1099511627776, 1099511627776]) 1 = .ok 0 ∧
    Shape.room 1 (Shape.tiled [0, 70] [1099511627776, 1099511627776]) < Word.half ∧
    wideRows.tile [1099511627776, 1099511627776] = .error (.fault .overflow) :=
  ⟨plain_ofList (by decide) rfl (by decide) (by simp), rfl, by decide, rfl⟩

end Dataset

end Hyperslab
