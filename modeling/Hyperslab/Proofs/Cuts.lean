import Hyperslab.Proofs.Joins

/-!
# Cutting along an axis

A dataset is cut before given coordinates of an axis, in any order. However often a coordinate is
given, or how far past the end, the parts are bands that follow each other and end with the axis.
-/
namespace Hyperslab.Dataset

open List Region Shape Word

variable {d e : Block} {parts : List Block} {k : Kind} {a lo hi : Nat}

/-! ## Bands of a dataset -/

/-- The room that a dataset takes up, if it is small without items, is small in any case. -/
theorem Sound.room_lt (h : d.Sound) (hempty : d.size = 0 → d.shape.room d.itemSize < half) :
    d.shape.room d.itemSize < half := by
  rcases Nat.eq_zero_or_pos d.size with hzero | hpos
  · exact hempty hzero
  · exact Frame.Sound.room_lt h hpos

/-- `e` has the items of `d` from coordinate `lo` of an axis on, and nothing is attached to it. -/
structure BandOf (e d : Block) (a lo : Nat) : Prop where
  sound : e.Sound
  kind_eq : e.kind = d.kind
  shape_eq : e.shape = d.shape.set a (e.lengthAlong a)
  itemSize_eq : e.itemSize = d.itemSize
  metadata_eq : e.metadata = .empty
  item_eq : ∀ p, e.shape.contains p = true → e.item p = d.item (p.modify a (· + lo))

/-- `e` is a packed copy of a band. -/
structure CutOf (e d : Block) (a lo : Nat) : Prop extends e.BandOf d a lo where
  layout_eq : e.layout = .dense

theorem BandOf.contains_modify (h : e.BandOf d a lo) {q : Position} {f : Nat → Nat} {n : Nat}
    (hq : contains (d.shape.set a n) q) (hf : f (q.getD a 0) < e.lengthAlong a) :
    e.shape.contains (q.modify a f) := by
  have hset := contains_set_modify hq hf
  rwa [set_set, ← h.shape_eq] at hset

/-- Where a band is in the dataset, its items are of the kind and size of the dataset. -/
theorem BandOf.fitItem_eq (h : e.BandOf d a lo) (hd : d.Plain k) {p : Position}
    (hp : e.shape.contains p) (hin : d.shape.contains (p.modify a (· + lo))) :
    fitItem k d.itemSize (e.item p) = d.item (p.modify a (· + lo)) := by
  rw [h.item_eq p hp, hd.ofKind.fitItem_self hin]

/-- **Bands that are together as long as the axis are joined.** -/
theorem Plain.concatenate_bands (hd : d.Plain k) (hroom : d.shape.room d.itemSize < half)
    {axis : Int} (haxis : normalizeAxis axis d.rank = .ok a) {m : Nat}
    (hreserve : reserve d.kind d.shape d.itemSize = .ok m)
    (hparts : ∀ e ∈ parts, ∃ lo, e.BandOf d a lo) (hne : parts ≠ [])
    (htotal : totalLength a parts = d.lengthAlong a) :
    ∃ e : Block, e.Fresh d.kind d.shape d.itemSize ∧
      (∀ q, d.shape.contains q → e.item q = joinedItem k d.itemSize a parts q) ∧
      concatenateInWords parts axis =
        (do ensure (∀ e ∈ parts, AllFit e.geometry.walkNumbers); .ok e) := by
  obtain ⟨first, rest, rfl⟩ := exists_cons_of_ne_nil hne
  obtain ⟨_, hfirst⟩ := hparts first mem_cons_self
  have hwhole : first.shape.set a (totalLength a (first :: rest)) = d.shape := by
    rw [htotal, hfirst.shape_eq, set_set, lengthAlong, set_getD_self]
  have hrank : first.rank = d.rank := by
    rw [Frame.rank, hfirst.shape_eq, length_set]
    rfl
  have hpartOf : ∀ e ∈ first :: rest, e.PartOf first.shape d.itemSize a := by
    intro e he
    obtain ⟨_, hband⟩ := hparts e he
    refine ⟨hband.sound, .inl hband.itemSize_eq, ?_⟩
    rw [hfirst.shape_eq, set_set]
    exact hband.shape_eq
  obtain ⟨e, hfresh, -, hitem, -, hwords⟩ := concatenate_eq (hrank ▸ haxis) hpartOf
    ⟨first, mem_cons_self, hfirst.itemSize_eq⟩ (hwhole.symm ▸ hroom)
    (by rw [hwhole, hfirst.kind_eq]; exact hreserve)
  rw [hwhole, hfirst.kind_eq] at hfresh
  have hbare (e : Block) (he : e ∈ first :: rest) : e.metadata.CopiesInWords := by
    obtain ⟨_, hband⟩ := hparts e he
    rw [hband.metadata_eq]
    exact Metadata.copiesInWords_empty
  refine ⟨e, hfresh, fun q hq => ?_, ?_⟩
  · rw [hitem q (by rwa [hfresh.shape_eq]), hfirst.kind_eq, hd.kind_eq]
  · rw [hwords, ensure_congr (Q := ∀ e ∈ first :: rest, AllFit e.geometry.walkNumbers)]
    exact forall₂_congr fun e he => and_iff_right (hbare e he)

/-- A copy of a region along an axis, if it is made, is a band. -/
theorem Plain.bandOf_slice (hd : d.Plain k) (hroom : d.shape.room d.itemSize < Word.half)
    (ha : a < d.rank) (hle : lo ≤ hi) (hhi : hi ≤ d.lengthAlong a) {r : Region}
    (halong : Region.along d.shape a (Slice.between lo hi) = .ok r)
    (he : d.sliceInWords r = .ok e) : e.lengthAlong a = hi - lo ∧ e.CutOf d a lo := by
  have hn := hd.sound.itemSize_pos
  have hr : (Region.band d.shape a lo hi).Valid := Region.valid_band hhi
  rw [Region.along_between ha (getD_lt_half_of_room hn hroom ha) hle hhi, Except.ok.injEq] at halong
  subst halong
  simp only [sliceInWords, Frame.checkCopied, bind_eq_ok] at he
  obtain ⟨-, ⟨-, -, m, hm, -⟩, -, -, he⟩ := he
  obtain ⟨rfl, hmax⟩ := elementCount_eq_ok (reserve_eq_ok hm)
  have hlist : d.kind.bytes * ((Region.band d.shape a lo hi).shape.size * d.itemSize) < Word.half :=
    bytes_mul_lt hmax
  rw [hd.sound.slice_eq hr rfl hd.metadata_eq hm, Except.ok.injEq] at he
  subst he
  have hshape : (Region.band d.shape a lo hi).shape = d.shape.set a (hi - lo) :=
    Region.shape_band ..
  have hlength : lengthAlong (ofItems d.kind (d.name ++ (Region.band d.shape a lo hi).text)
      (Region.band d.shape a lo hi).shape d.itemSize
        fun p => d.item ((Region.band d.shape a lo hi).sourcePosition p)) a = hi - lo := by
    have hget := getD_set_self (n := hi - lo) ha
    rwa [← hshape] at hget
  refine ⟨hlength, ⟨sound_ofItems hn (fun _ _ => length_item ..) hlist, rfl, ?_, rfl, rfl,
    fun p hp => ?_⟩, rfl⟩
  · rw [hlength]
    exact hshape
  · rw [item_ofItems hn (fun _ _ => length_item ..) hlist hp,
      Region.sourcePosition_band (le_modulus_of_room hn hroom) hhi (hshape ▸ hp)]

theorem bandOf_zeros (ha : a < d.rank) (lo : Nat)
    (he : zeros d.kind d.itemSize (d.shape.set a 0) = .ok e) :
    e.lengthAlong a = 0 ∧ e.CutOf d a lo := by
  have hfresh := fresh_of_zeros he
  have hlength : e.lengthAlong a = 0 := by
    rw [lengthAlong, hfresh.shape_eq]
    exact getD_set_self ha
  refine ⟨hlength, ⟨hfresh.sound, hfresh.kind_eq, ?_, hfresh.itemSize_eq, hfresh.metadata_eq,
    fun p hp => ?_⟩, hfresh.layout_eq⟩
  · rw [hlength]
    exact hfresh.shape_eq
  · -- There is no position.
    rw [hfresh.shape_eq] at hp
    have hlt := getD_lt_of_contains hp (by rwa [length_set])
    rw [getD_set_self ha] at hlt
    omega

/-! ## Parts -/

/-- The datasets are bands that follow each other from `lo` to the end of the axis. -/
def Bands (d : Block) (a : Nat) : Nat → List Block → Prop
  | lo, [] => lo = d.lengthAlong a
  | lo, e :: parts =>
      e.CutOf d a lo ∧ lo + e.lengthAlong a ≤ d.lengthAlong a ∧
        Bands d a (lo + e.lengthAlong a) parts

/-- The lengths of the parts of an axis of length `n` from `last` on: up to each cut, and what is
left behind the last one. A part is empty if its cut is past the end or not past the last one. -/
def cutLengths (n : Nat) : Nat → List Nat → List Nat
  | last, [] => if last < n then [n - last] else []
  | last, cut :: cuts =>
      if n < cut then 0 :: cutLengths n last cuts
      else (max cut last - last) :: cutLengths n (max cut last) cuts

section cutLengths

variable {n cut last : Nat} {cuts : List Nat}

theorem cutLengths_of_lt (h : n < cut) :
    cutLengths n last (cut :: cuts) = 0 :: cutLengths n last cuts := if_pos h

theorem cutLengths_of_le (h : cut ≤ n) : cutLengths n last (cut :: cuts) =
    (max cut last - last) :: cutLengths n (max cut last) cuts := if_neg (Nat.not_lt.mpr h)

end cutLengths

/-- The parts up to the cuts are bands, whatever bands follow. -/
theorem Plain.splitAt_eq_ok (hd : d.Plain k) (hroom : d.shape.room d.itemSize < half)
    (ha : a < d.rank) {cuts : List Nat} {last stop : Nat} (hlast : last ≤ d.lengthAlong a)
    (h : d.splitAt a (d.lengthAlong a) last cuts = .ok (parts, stop)) :
    stop ≤ d.lengthAlong a ∧ cutLengths (d.lengthAlong a) last cuts = parts.map (lengthAlong · a) ++
        cutLengths (d.lengthAlong a) stop [] ∧
      ∀ rest, Bands d a stop rest → Bands d a last (parts ++ rest) := by
  induction cuts generalizing last parts stop with
  | nil =>
    obtain ⟨rfl, rfl⟩ : [] = parts ∧ last = stop := by simpa [splitAt] using h
    exact ⟨hlast, rfl, fun rest hrest => hrest⟩
  | cons cut cuts ih =>
    simp only [splitAt] at h
    split at h
    · rename_i hpast
      simp only [bind_eq_ok, Prod.exists] at h
      obtain ⟨e, he, parts', stop', hparts, rfl, rfl⟩ := h
      obtain ⟨hlength, hband⟩ := bandOf_zeros ha last he
      obtain ⟨hstop, hlengths, hbands⟩ := ih hlast hparts
      refine ⟨hstop, ?_, fun rest hrest => ⟨hband, ?_, ?_⟩⟩
      · rw [cutLengths_of_lt hpast, hlengths, map_cons, hlength, cons_append]
      · omega
      · rw [hlength]
        exact hbands rest hrest
    · rename_i hinside
      simp only [bind_eq_ok, Prod.exists] at h
      obtain ⟨r, hr, e, he, parts', stop', hparts, rfl, rfl⟩ := h
      have hcut : cut ≤ d.lengthAlong a := Nat.not_lt.mp hinside
      have hnext : max cut last ≤ d.lengthAlong a := Nat.max_le.mpr ⟨hcut, hlast⟩
      obtain ⟨hlength, hband⟩ := hd.bandOf_slice hroom ha (Nat.le_max_right cut last) hnext hr he
      obtain ⟨hstop, hlengths, hbands⟩ := ih hnext hparts
      have hend : last + e.lengthAlong a = max cut last := by omega
      refine ⟨hstop, ?_, fun rest hrest => ⟨hband, hend ▸ hnext, ?_⟩⟩
      · rw [cutLengths_of_le hcut, hlengths, map_cons, hlength, cons_append]
      · rw [hend]
        exact hbands rest hrest

/-- **The parts of a dataset are bands that follow each other, of the lengths between the cuts.** -/
theorem Plain.split_eq_ok (hd : d.Plain k) (hroom : d.shape.room d.itemSize < half)
    {axis : Int} (haxis : normalizeAxis axis d.rank = .ok a) {cuts : List Nat}
    (h : d.split cuts axis = .ok parts) :
    Bands d a 0 parts ∧ parts.map (lengthAlong · a) = cutLengths (d.lengthAlong a) 0 cuts := by
  have ha := Permutation.normalizeAxis_lt haxis
  simp only [split, haxis, ok_bind, bind_eq_ok, Prod.exists] at h
  obtain ⟨before, stop, hbefore, h⟩ := h
  obtain ⟨hstop, hlengths, hbands⟩ := hd.splitAt_eq_ok hroom ha (Nat.zero_le _) hbefore
  split at h
  · rename_i hlt
    simp only [bind_eq_ok, pure_eq_ok] at h
    obtain ⟨r, hr, e, he, rfl⟩ := h
    obtain ⟨hlength, hband⟩ := hd.bandOf_slice hroom ha hlt.le le_rfl hr he
    have hend : stop + e.lengthAlong a = d.lengthAlong a := by
      rw [hlength]
      exact Nat.add_sub_cancel' hlt.le
    have hrest : cutLengths (d.lengthAlong a) stop [] = [d.lengthAlong a - stop] := if_pos hlt
    refine ⟨hbands [e] ⟨hband, hend.le, hend⟩, ?_⟩
    rw [hlengths, hrest, map_append, map_singleton, hlength]
    rfl
  · rename_i hge
    obtain rfl := pure_eq_ok.mp h
    have hend : stop = d.lengthAlong a := Nat.le_antisymm hstop (Nat.not_lt.mp hge)
    have hrest : cutLengths (d.lengthAlong a) stop [] = [] := if_neg hge
    refine ⟨?_, ?_⟩
    · simpa using hbands [] hend
    · rw [hlengths, hrest, append_nil]

/-! ## Joining parts -/

namespace Bands

theorem totalLength_eq (h : Bands d a lo parts) : lo + totalLength a parts = d.lengthAlong a := by
  induction parts generalizing lo with
  | nil => exact h
  | cons e parts ih =>
    have hrest := ih h.2.2
    rw [totalLength_cons]
    omega

theorem bandOf_append {before after : List Block} (h : Bands d a lo (before ++ e :: after)) :
    e.BandOf d a (lo + totalLength a before) := by
  induction before generalizing lo with
  | nil => exact h.1.toBandOf
  | cons b before ih =>
    have hrest := ih h.2.2
    rwa [Nat.add_assoc] at hrest

theorem exists_cutOf (h : Bands d a lo parts) : ∀ e ∈ parts, ∃ lo, e.CutOf d a lo := by
  induction parts generalizing lo with
  | nil => simp
  | cons e parts ih =>
    rw [forall_mem_cons]
    exact ⟨⟨lo, h.1⟩, ih h.2.2⟩

theorem joinedItem_eq (hd : d.Plain k) (ha : a < d.rank) (h : Bands d a 0 parts) {q : Position}
    (hq : d.shape.contains q) : joinedItem k d.itemSize a parts q = d.item q := by
  have hlt : q.getD a 0 < totalLength a parts := by
    have htotal := h.totalLength_eq
    rw [Nat.zero_add] at htotal
    exact htotal ▸ getD_lt_of_contains hq ha
  obtain ⟨before, e, after, rfl, hlow, hhigh, hitem⟩ :=
    Dataset.joinedItem_eq (k := k) (n := d.itemSize) (length_of_contains hq ▸ ha) hlt
  have hband := h.bandOf_append
  rw [Nat.zero_add] at hband
  have hback : (q.modify a (· - totalLength a before)).modify a (· + totalLength a before) = q := by
    rw [modify_modify_eq]
    exact Position.modify_of_eq (Nat.sub_add_cancel hlow)
  have hqe := hband.contains_modify (n := d.lengthAlong a) (f := (· - totalLength a before))
    (by rwa [lengthAlong, set_getD_self]) (by omega)
  rw [hitem, hband.fitItem_eq hd hqe (by rwa [hback]), hback]

/-- **Parts that follow each other are joined to the dataset that they are parts of.** -/
theorem concatenate_eq (hd : d.Plain k) (hroom : d.shape.room d.itemSize < half) {axis : Int}
    (haxis : normalizeAxis axis d.rank = .ok a) {m : Nat}
    (hreserve : reserve d.kind d.shape d.itemSize = .ok m) (h : Bands d a 0 parts)
    (hne : parts ≠ []) :
    ∃ e : Block, concatenateInWords parts axis = .ok e ∧ e.Fresh d.kind d.shape d.itemSize ∧
      ∀ q, d.shape.contains q → e.item q = d.item q := by
  have ha := Permutation.normalizeAxis_lt haxis
  have htotal := h.totalLength_eq
  rw [Nat.zero_add] at htotal
  obtain ⟨e, hfresh, hitem, hwords⟩ := hd.concatenate_bands hroom haxis hreserve
    (fun e he => (h.exists_cutOf e he).imp fun _ hcut => hcut.toBandOf) hne htotal
  have hwalks : ∀ e ∈ parts, AllFit e.geometry.walkNumbers := by
    intro e he
    obtain ⟨_, hcut⟩ := h.exists_cutOf e he
    exact Frame.Sound.allFit_walkNumbers_of_dense hcut.sound hcut.layout_eq
  rw [ensure_of hwalks] at hwords
  refine ⟨e, hwords, hfresh, fun q hq => ?_⟩
  rw [hitem q hq, h.joinedItem_eq hd ha hq]

end Bands

/-- **Joining goes item by item, and undoes cutting.** Along the axis there are the items of the
datasets one after the other, single elements filled up with zeros. In words every dataset has to be
walked, as a packed one always can be, and what is attached to it copied. The parts of a dataset cut
anywhere are joined to it again. A result without items is asked to take up few words. -/
theorem concatenate_pointwise_and_after_split (k : Kind) (axis : Int) (a m : Nat) :
    (∀ (first : Block) (rest : List Block) (n : Nat),
      let ds := first :: rest
      let s : Shape := first.shape.set a (totalLength a ds)
      Shape.normalizeAxis axis first.rank = .ok a →
      (∀ d ∈ ds, d.OfKind k ∧ d.shape = first.shape.set a (d.lengthAlong a)) →
      (∀ d ∈ ds, d.itemSize = n ∨ d.itemSize = 1) → (∃ d ∈ ds, d.itemSize = n) →
      reserve k s n = .ok m → (s.size = 0 → s.room n < Word.half) →
      ∃ e : Block, e.Fresh k s n ∧ e.name = first.name ∧
        (∀ q, s.contains q = true → ∃ before d after, ds = before ++ d :: after ∧
          totalLength a before ≤ q.getD a 0 ∧
          q.getD a 0 < totalLength a before + d.lengthAlong a ∧
          d.shape.contains (q.modify a (· - totalLength a before)) = true ∧
          e.item q = d.item (q.modify a (· - totalLength a before)) ++
            List.replicate (n - d.itemSize) k.zero) ∧
        concatenate ds axis = .ok e ∧
        concatenateInWords ds axis = (do
          Word.ensure (∀ d ∈ ds, d.metadata.CopiesInWords ∧ Word.AllFit d.geometry.walkNumbers)
          .ok e) ∧
        ((∀ d ∈ ds, d.layout = .dense ∧ d.metadata.CopiesInWords) →
          concatenateInWords ds axis = .ok e)) ∧
    (∀ (d : Block) (cuts : List Nat) (parts : List Block), d.Plain k →
      Shape.normalizeAxis axis d.rank = .ok a →
      reserve d.kind d.shape d.itemSize = .ok m →
      (d.size = 0 → d.shape.room d.itemSize < Word.half) →
      d.split cuts axis = .ok parts → parts ≠ [] →
      ∃ e : Block, concatenateInWords parts axis = .ok e ∧ e.Fresh d.kind d.shape d.itemSize ∧
        e.toList = d.toList) := by
  constructor
  · intro first rest n ds s haxis hds hsize hlargest hreserve hempty
    have hroom := room_lt_of_reserve hreserve hempty
    obtain rfl : first.kind = k := (hds first List.mem_cons_self).1.kind_eq
    have hparts : ∀ d ∈ ds, d.PartOf first.shape n a := fun d hd =>
      ⟨(hds d hd).1.sound, hsize d hd, (hds d hd).2⟩
    obtain ⟨e, hfresh, hname, hitem, hexact, hwords⟩ :=
      concatenate_eq haxis hparts hlargest hroom hreserve
    refine ⟨e, hfresh, hname, fun q hq => ?_, hexact, hwords, fun hdense => ?_⟩
    · have ha : a < s.length := by
        rw [List.length_set]
        exact Permutation.normalizeAxis_lt haxis
      have hlt := Shape.getD_lt_of_contains hq ha
      rw [Shape.getD_set_self (Permutation.normalizeAxis_lt haxis)] at hlt
      obtain ⟨before, d, after, hsplit, hlow, hhigh, heq⟩ := joinedItem_eq (k := first.kind) (n := n)
        (by rwa [Shape.length_of_contains hq]) hlt
      have hd : d ∈ ds := hsplit ▸ List.mem_append_right _ List.mem_cons_self
      have hcontains : d.shape.contains (q.modify a (· - totalLength a before)) = true := by
        have hset := Shape.contains_set_modify (a := a) (n := d.lengthAlong a)
          (f := (· - totalLength a before)) hq (by omega)
        rwa [List.set_set, ← (hds d hd).2] at hset
      refine ⟨before, d, after, hsplit, hlow, hhigh, hcontains, ?_⟩
      rw [hitem q (by rwa [hfresh.shape_eq]), heq, (hds d hd).1.fitItem_eq hcontains]
    · have hwalks : ∀ d ∈ ds, d.metadata.CopiesInWords ∧ Word.AllFit d.geometry.walkNumbers :=
        fun d hd => ⟨(hdense d hd).2,
          Frame.Sound.allFit_walkNumbers_of_dense (hds d hd).1.sound (hdense d hd).1⟩
      rw [hwords, Word.ensure_of hwalks]
      rfl
  · intro d cuts parts hd haxis hreserve hempty hparts hne
    have hroom := hd.sound.room_lt hempty
    obtain ⟨hbands, -⟩ := hd.split_eq_ok hroom haxis hparts
    obtain ⟨e, he, hfresh, hitem⟩ := hbands.concatenate_eq hd hroom haxis hreserve hne
    exact ⟨e, he, hfresh, toList_eq_of_items hfresh.shape_eq hitem⟩

/-- Two rows of two numbers. -/
def singleRows : Block := ofList (.int true .w32) [2, 2] 1 ([1, 2, 3, 4].map Scalar.int)

def pairRow : Block := ofList (.int true .w32) [1, 2] 2 ([5, 6, 7, 8].map Scalar.int)

/-- Numbers are put before pairs, and the row of pairs is cut in and past its middle and joined
again. -/
theorem concatenate_pointwise_and_after_split_rows : ∃ e back : Block, ∃ parts : List Block,
    concatenateInWords [singleRows, pairRow] 0 = .ok e ∧
    e.Fresh (.int true .w32) [3, 2] 2 ∧
    e.item [1, 1] = [.int 4, .int 0] ∧ e.item [2, 1] = [.int 7, .int 8] ∧
    pairRow.split [1, 0, 7] (-1) = .ok parts ∧ parts.map (lengthAlong · 1) = [1, 0, 0, 1] ∧
    concatenateInWords parts (-1) = .ok back ∧ back.toList = pairRow.toList := by
  have hjoin := (concatenate_pointwise_and_after_split (.int true .w32) 0 0 12).1
  have hcut := (concatenate_pointwise_and_after_split (.int true .w32) (-1) 1 4).2
  have hsingle : singleRows.Plain (.int true .w32) :=
    plain_ofList (by decide) rfl (by decide) (by decide)
  have hpair : pairRow.Plain (.int true .w32) :=
    plain_ofList (by decide) rfl (by decide) (by decide)
  obtain ⟨e, hfresh, -, -, -, -, hwords⟩ := hjoin singleRows [pairRow] 2 rfl
    (by simp only [List.forall_mem_cons]; exact ⟨⟨hsingle.ofKind, rfl⟩, ⟨hpair.ofKind, rfl⟩, by simp⟩)
    (by decide) ⟨pairRow, by simp, rfl⟩ rfl (by decide)
  have hdense : ∀ d ∈ [singleRows, pairRow], d.layout = .dense ∧ d.metadata.CopiesInWords := by
    decide
  obtain ⟨x, hx, hnumber, hpairs⟩ : ∃ x : Block,
      concatenateInWords [singleRows, pairRow] 0 = .ok x ∧
      x.item [1, 1] = [.int 4, .int 0] ∧ x.item [2, 1] = [.int 7, .int 8] :=
    ⟨_, rfl, rfl, rfl⟩
  obtain rfl : e = x := Except.ok.inj ((hwords hdense).symm.trans hx)
  obtain ⟨parts, hparts, hlengths⟩ : ∃ parts, pairRow.split [1, 0, 7] (-1) = .ok parts ∧
      parts.map (lengthAlong · 1) = [1, 0, 0, 1] := ⟨_, rfl, by decide⟩
  have hne : parts ≠ [] := by
    rintro rfl
    cases hlengths
  obtain ⟨back, hback, -, hlist⟩ := hcut pairRow [1, 0, 7] parts hpair rfl rfl (by decide)
    hparts hne
  exact ⟨e, back, parts, hx, hfresh, hnumber, hpairs, hparts, hlengths, hback, hlist⟩

/-- No rows of very many columns. -/
def farColumns : Block := ofList (.int true .w32) [0, 9223372036854775808] 1 []

/-- A dataset without items is not joined in words to itself if an axis is too long. -/
theorem long_axis_stops_joining :
    zeros (.int true .w32) 1 [0, 9223372036854775808] = .ok farColumns ∧
    farColumns.OfKind (.int true .w32) ∧
    Shape.normalizeAxis 1 farColumns.rank = .ok 1 ∧
    reserve (.int true .w32) farColumns.shape 1 = .ok 0 ∧
    concatenateInWords [farColumns] 1 = .error (.fault .overflow) :=
  ⟨rfl, (plain_ofList (by decide) rfl (by decide) (by simp)).ofKind, rfl, rfl, rfl⟩

/-! ## Sections -/

/-- The lengths of the parts of an axis of length `n` that is cut into `c` sections: whole ones of
equal length, empty ones behind the end, and what is left. -/
def sectionLengths (n c : Nat) : List Nat :=
  let length := (n + c - 1) / c
  let whole := min (c - 1) (n / length)
  List.replicate whole length ++ List.replicate (c - 1 - whole) 0 ++
    if length * whole < n then [n - length * whole] else []

section sectionLengths

variable {n c length : Nat}

theorem cutLengths_multiples (hlength : length = 0 → n = 0) (j r : Nat) :
    cutLengths n (length * min j (n / length)) ((range' j r).map fun i => length * (i + 1)) =
      replicate (min r (n / length - j)) length ++ replicate (r - (n / length - j)) 0 ++
        cutLengths n (length * min (j + r) (n / length)) [] := by
  induction r generalizing j with
  | zero => simp
  | succ r ih =>
    rw [range'_succ, map_cons]
    by_cases hinside : j + 1 ≤ n / length
    · -- A whole section.
      have hcut : length * (j + 1) ≤ n :=
        (Nat.mul_le_mul_left _ hinside).trans (Nat.mul_div_le n length)
      have hlast : min j (n / length) = j := by omega
      have hnext : max (length * (j + 1)) (length * j) = length * min (j + 1) (n / length) := by
        rw [Nat.min_eq_left hinside]
        exact Nat.max_eq_left (Nat.mul_le_mul_left _ (Nat.le_succ j))
      have hpart : length * min (j + 1) (n / length) - length * j = length := by
        rw [Nat.min_eq_left hinside, Nat.mul_succ, Nat.add_sub_cancel_left]
      have hcount : min (r + 1) (n / length - j) = min r (n / length - (j + 1)) + 1 := by omega
      have hempty : r + 1 - (n / length - j) = r - (n / length - (j + 1)) := by omega
      rw [cutLengths_of_le hcut, hlast, hnext, hpart, ih, hcount, hempty, Nat.add_right_comm j 1 r]
      rfl
    · -- The last whole section was before.
      have hlast : min j (n / length) = min (j + 1) (n / length) := by omega
      have hcount : min (r + 1) (n / length - j) = min r (n / length - (j + 1)) := by omega
      have hempty : r + 1 - (n / length - j) = r - (n / length - (j + 1)) + 1 := by omega
      have hpart (cuts : List Nat) :
          cutLengths n (length * min (j + 1) (n / length)) (length * (j + 1) :: cuts) =
            0 :: cutLengths n (length * min (j + 1) (n / length)) cuts := by
        rcases Nat.eq_zero_or_pos length with rfl | hpos
        · rw [cutLengths_of_le (by omega)]
          simp
        · refine cutLengths_of_lt ?_
          rw [Nat.mul_comm]
          exact (Nat.div_lt_iff_lt_mul hpos).mp (by omega)
      have hnone : min r (n / length - (j + 1)) = 0 := by omega
      rw [hlast, hpart, ih, hcount, hempty, hnone, Nat.add_right_comm j 1 r]
      rfl

theorem cutLengths_sections (hc : 0 < c) :
    cutLengths n 0 ((List.range (c - 1)).map fun i => (n + c - 1) / c * (i + 1)) =
      sectionLengths n c := by
  have hzero (hlength : (n + c - 1) / c = 0) : n = 0 := by
    have := (Nat.div_eq_zero_iff_lt hc).mp hlength
    omega
  have hcuts := cutLengths_multiples hzero 0 (c - 1)
  rw [Nat.zero_min, Nat.mul_zero, Nat.zero_add, ← range_eq_range'] at hcuts
  have hempty (w : Nat) : c - 1 - w = c - 1 - min (c - 1) w := by omega
  rw [hcuts, hempty]
  rfl

theorem le_mul_sections (hc : 0 < c) : n ≤ c * ((n + c - 1) / c) := by
  have hdiv := Nat.div_add_mod (n + c - 1) c
  have hmod := Nat.mod_lt (n + c - 1) hc
  omega

/-- There are as many parts as sections, all but the last of equal length, if the last cut is before
the end. -/
theorem sectionLengths_of_lt (hc : 0 < c) (h : (c - 1) * ((n + c - 1) / c) < n) :
    sectionLengths n c =
      replicate (c - 1) ((n + c - 1) / c) ++ [n - (c - 1) * ((n + c - 1) / c)] := by
  have hpos : 0 < (n + c - 1) / c := Nat.div_pos (by omega) hc
  have hwhole : min (c - 1) (n / ((n + c - 1) / c)) = c - 1 :=
    Nat.min_eq_left ((Nat.le_div_iff_mul_le hpos).mpr h.le)
  simp only [sectionLengths, hwhole, Nat.sub_self, replicate_zero, append_nil]
  rw [Nat.mul_comm _ (c - 1), if_pos h]

/-- Otherwise a part is missing, or one that is empty stands before the last. -/
theorem sectionLengths_of_le (hc : 0 < c) (h : n ≤ (c - 1) * ((n + c - 1) / c)) :
    (sectionLengths n c).length = c - 1 ∨
      ∃ before rest, sectionLengths n c = before ++ [0, rest] ∧ 0 < rest := by
  simp only [sectionLengths]
  generalize (n + c - 1) / c = length at h ⊢
  have hwhole : n / length ≤ c - 1 := Nat.div_le_of_le_mul (by rwa [Nat.mul_comm])
  rw [Nat.min_eq_right hwhole]
  by_cases hrest : length * (n / length) < n
  · right
    have hless : n / length < c - 1 := by
      refine lt_of_le_of_ne hwhole fun heq => ?_
      rw [heq, Nat.mul_comm] at hrest
      omega
    refine ⟨replicate (n / length) length ++ replicate (c - 1 - n / length - 1) 0,
      n - length * (n / length), ?_, by omega⟩
    have hempty : c - 1 - n / length = c - 1 - n / length - 1 + 1 := by omega
    rw [if_pos hrest, hempty, replicate_succ']
    simp
  · simp only [if_neg hrest, append_nil, length_append, length_replicate]
    omega

/-- **Sections come out as their number says just if the last cut is before the end.** -/
theorem sectionLengths_iff (hc : 0 < c) :
    ((sectionLengths n c).length = c ∧ (sectionLengths n c).Pairwise (· ≥ ·)) ↔
      (c - 1) * ((n + c - 1) / c) < n := by
  constructor
  · rintro ⟨hlength, hsorted⟩
    by_contra hle
    rcases sectionLengths_of_le hc (Nat.not_lt.mp hle) with hshort | ⟨before, rest, heq, hpos⟩
    · omega
    · rw [heq, pairwise_append] at hsorted
      have hlast := (pairwise_cons.mp hsorted.2.1).1 rest (by simp)
      omega
  · intro hlt
    have hceil := le_mul_sections (n := n) hc
    rw [sectionLengths_of_lt hc hlt]
    refine ⟨by simp; omega, pairwise_append.mpr ⟨?_, by simp, ?_⟩⟩
    · exact pairwise_replicate.mpr (.inr le_rfl)
    · intro x hx y hy
      rw [eq_of_mem_replicate hx, mem_singleton.mp hy]
      obtain ⟨b, rfl⟩ : ∃ b, c = b + 1 := ⟨c - 1, by omega⟩
      rw [Nat.succ_mul] at hceil
      simp only [Nat.add_sub_cancel] at *
      omega

theorem sectionLengths_of_mod_eq (hn : 0 < n) (hc : 0 < c) (hmod : n % c = 0) :
    sectionLengths n c = replicate c (n / c) := by
  obtain ⟨q, rfl⟩ : c ∣ n := Nat.dvd_of_mod_eq_zero hmod
  have hq : 0 < q := Nat.pos_of_mul_pos_left hn
  have hlength : (c * q + c - 1) / c = q := by
    rw [Nat.add_sub_assoc hc, Nat.mul_add_div hc, Nat.div_eq_of_lt (by omega), Nat.add_zero]
  obtain ⟨b, rfl⟩ : ∃ b, c = b + 1 := ⟨c - 1, by omega⟩
  have hlt : (b + 1 - 1) * (((b + 1) * q + (b + 1) - 1) / (b + 1)) < (b + 1) * q := by
    rw [hlength, Nat.add_sub_cancel, Nat.succ_mul]
    omega
  rw [sectionLengths_of_lt hc hlt, hlength, Nat.add_sub_cancel, Nat.mul_div_cancel_left q hc,
    Nat.succ_mul, Nat.add_sub_cancel_left, replicate_succ']

end sectionLengths

/-- Sections, if they are made, are the parts between the multiples of their length. -/
theorem splitSections_eq_ok {axis : Int} {c : Nat} {equal : Bool}
    (haxis : normalizeAxis axis d.rank = .ok a) (h : d.splitSections c axis equal = .ok parts) :
    0 < c ∧ (equal → d.lengthAlong a % c = 0) ∧
      d.split ((List.range (c - 1)).map fun i => (d.lengthAlong a + c - 1) / c * (i + 1)) axis =
        .ok parts := by
  simp only [splitSections, haxis, ok_bind] at h
  split at h
  · cases h
  · rename_i hdivides
    obtain ⟨hc, heven⟩ := not_or.mp hdivides
    split at h
    · cases h
    · rw [bind_eq_ok] at h
      obtain ⟨-, -, h⟩ := h
      refine ⟨Nat.pos_of_ne_zero hc, fun hequal => ?_, h⟩
      by_contra hne
      exact heven ⟨hequal, hne⟩

/-- **An axis is cut into sections.** The parts follow each other along the axis and are joined to
the dataset again. Sections that start behind the end are empty, and what is left stands behind them,
so there are as many parts as sections, none longer than one before it, just if the last cut is
before the end. All but the last have equal length then; all have where the sections divide an axis
that is not empty. -/
theorem sections_cover_axis (hd : d.Plain k) {axis : Int}
    (haxis : Shape.normalizeAxis axis d.rank = .ok a)
    (hempty : d.size = 0 → d.shape.room d.itemSize < Word.half) {c : Nat} {equal : Bool}
    (h : d.splitSections c axis equal = .ok parts) :
    let n := d.lengthAlong a
    let length := (n + c - 1) / c
    let whole := min (c - 1) (n / length)
    parts.map (lengthAlong · a) = List.replicate whole length ++
      List.replicate (c - 1 - whole) 0 ++
        (if length * whole < n then [n - length * whole] else []) ∧
    (parts.length = c ∧ (parts.map (lengthAlong · a)).Pairwise (· ≥ ·) ↔ (c - 1) * length < n) ∧
    ((c - 1) * length < n → parts.map (lengthAlong · a) =
      List.replicate (c - 1) length ++ [n - (c - 1) * length]) ∧
    (equal = true → 0 < n → parts.map (lengthAlong · a) = List.replicate c (n / c)) ∧
    totalLength a parts = n ∧
    (∀ before part after, parts = before ++ part :: after →
      part.Sound ∧ part.kind = d.kind ∧ part.itemSize = d.itemSize ∧
      part.shape = d.shape.set a (part.lengthAlong a) ∧
      ∀ p, part.shape.contains p = true →
        part.item p = d.item (p.modify a (· + totalLength a before))) ∧
    (∀ m, parts ≠ [] → reserve d.kind d.shape d.itemSize = .ok m →
      ∃ e : Block, concatenateInWords parts axis = .ok e ∧
        e.Fresh d.kind d.shape d.itemSize ∧ e.toList = d.toList) := by
  intro n length whole
  obtain ⟨hc, heven, hsplit⟩ := splitSections_eq_ok haxis h
  have hroom := hd.sound.room_lt hempty
  obtain ⟨hbands, hlengths⟩ := hd.split_eq_ok hroom haxis hsplit
  rw [cutLengths_sections hc] at hlengths
  have hcount : parts.length = (sectionLengths n c).length := by
    rw [← hlengths, List.length_map]
  refine ⟨hlengths, ?_, ?_, ?_, ?_, ?_, ?_⟩
  · rw [hcount, hlengths]
    exact sectionLengths_iff hc
  · intro hlt
    rw [hlengths]
    exact sectionLengths_of_lt hc hlt
  · intro hequal hn
    rw [hlengths]
    exact sectionLengths_of_mod_eq hn hc (heven hequal)
  · have htotal := hbands.totalLength_eq
    rwa [Nat.zero_add] at htotal
  · rintro before part after rfl
    have hband := hbands.bandOf_append
    rw [Nat.zero_add] at hband
    exact ⟨hband.sound, hband.kind_eq, hband.itemSize_eq, hband.shape_eq, hband.item_eq⟩
  · intro m hne hreserve
    obtain ⟨e, he, hfresh, hitem⟩ := hbands.concatenate_eq hd hroom haxis hreserve hne
    exact ⟨e, he, hfresh, toList_eq_of_items hfresh.shape_eq hitem⟩

/-- The columns of a row of pairs, one in each of two sections. -/
theorem sections_cover_axis_row : ∃ parts : List Block, ∃ e : Block,
    pairRow.splitSections 2 1 true = .ok parts ∧ parts.map (lengthAlong · 1) = [1, 1] ∧
    concatenateInWords parts 1 = .ok e ∧ e.toList = pairRow.toList := by
  have hpair : pairRow.Plain (.int true .w32) :=
    plain_ofList (by decide) rfl (by decide) (by decide)
  obtain ⟨parts, hparts⟩ : ∃ parts, pairRow.splitSections 2 1 true = .ok parts := ⟨_, rfl⟩
  obtain ⟨-, -, -, hlengths, -, -, hjoined⟩ :=
    sections_cover_axis hpair rfl (by decide) hparts
  have hlengths : parts.map (lengthAlong · 1) = [1, 1] := hlengths rfl (by decide)
  have hne : parts ≠ [] := by
    rintro rfl
    cases hlengths
  obtain ⟨e, he, -, hlist⟩ := hjoined 4 hne rfl
  exact ⟨parts, e, hparts, hlengths, he, hlist⟩

/-- Four numbers in three sections are two parts; five in four sections are four, of which the last
but one is empty and the last is not; an empty axis in three sections that divide it is two. -/
theorem sections_missing_or_out_of_order :
    (∃ parts, (Dataset.range 4).splitSections 3 0 false = .ok parts ∧
      parts.map (lengthAlong · 0) = [2, 2]) ∧
    (∃ parts, (Dataset.range 5).splitSections 4 0 false = .ok parts ∧
      parts.map (lengthAlong · 0) = [2, 2, 0, 1]) ∧
    (∃ parts, (Dataset.range 0).splitSections 3 0 true = .ok parts ∧
      parts.map (lengthAlong · 0) = [0, 0]) :=
  ⟨⟨_, rfl, by decide⟩, ⟨_, rfl, by decide⟩, ⟨_, rfl, by decide⟩⟩

end Hyperslab.Dataset
