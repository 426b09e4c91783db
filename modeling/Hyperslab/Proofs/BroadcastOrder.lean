import Hyperslab.Proofs.Broadcast

/-!
# The order of broadcasting

A shape broadcasts to another one when, with both aligned at their last axes, each of its axes is
that of the other shape or a unit axis. This is an order of shapes with the scalar shape at the
bottom, and broadcasting is its join: what some shapes broadcast to is the least shape that all of
them broadcast to, and they are refused only when there is no such shape at all. All laws of
broadcasting follow from that, also those about refusals.
-/
namespace Hyperslab.Shape

open List

variable {a b c s t u : Shape} {shapes : List Shape}

/-! ## The order -/

/-- Aligned at the last axes, every axis of `s` is that of `t` or a unit axis. -/
def BroadcastsTo (s t : Shape) : Prop := ∃ r, r <:+ t ∧ s.Fits r

theorem Fits.trans (hst : s.Fits t) (htu : t.Fits u) : s.Fits u := by
  induction hst generalizing u with
  | nil => exact htu
  | cons hd _ ih =>
    cases htu with
    | cons hn htu => exact .cons (by omega) (ih htu)

theorem Fits.antisymm (hst : s.Fits t) (hts : t.Fits s) : s = t := by
  induction hst with
  | nil => rfl
  | @cons d n s t hd _ ih =>
    cases hts with
    | cons hn hts =>
      obtain rfl : d = n := by omega
      rw [ih hts]

theorem Fits.exists_suffix {r : Shape} (h : s.Fits t) (hr : r <:+ s) :
    ∃ r', r' <:+ t ∧ r.Fits r' := by
  rw [suffix_iff_eq_drop] at hr
  refine ⟨t.drop (s.length - r.length), drop_suffix _ _, ?_⟩
  have hdrop := forall₂_drop (s.length - r.length) h
  rwa [← hr] at hdrop

namespace BroadcastsTo

theorem length_le (h : s.BroadcastsTo t) : s.length ≤ t.length := by
  obtain ⟨r, hr, hs⟩ := h
  exact hs.length_eq ▸ hr.length_le

theorem refl (s : Shape) : s.BroadcastsTo s := ⟨s, suffix_rfl, fits_refl s⟩

theorem nil (s : Shape) : BroadcastsTo [] s := ⟨[], nil_suffix, .nil⟩

theorem trans (hst : s.BroadcastsTo t) (htu : t.BroadcastsTo u) : s.BroadcastsTo u := by
  obtain ⟨r, hr, hs⟩ := hst
  obtain ⟨r', hr', ht⟩ := htu
  obtain ⟨r'', hr'', hfits⟩ := ht.exists_suffix hr
  exact ⟨r'', hr''.trans hr', hs.trans hfits⟩

theorem antisymm (hst : s.BroadcastsTo t) (hts : t.BroadcastsTo s) : s = t := by
  have hlength : s.length = t.length := le_antisymm hst.length_le hts.length_le
  obtain ⟨r, hr, hs⟩ := hst
  obtain ⟨r', hr', ht⟩ := hts
  rw [hr.eq_of_length (hs.length_eq.symm.trans hlength)] at hs
  rw [hr'.eq_of_length (ht.length_eq.symm.trans hlength.symm)] at ht
  exact hs.antisymm ht

end BroadcastsTo

/-! ## The join of two shapes -/

theorem fits_replicate (s : Shape) : Fits (replicate s.length 1) s := by
  induction s with
  | nil => exact .nil
  | cons d s ih => exact .cons (.inr rfl) ih

/-- A shape fits the last axes of another one just if, with unit axes in front, it fits all of
them. -/
theorem fits_pad_iff : (s.pad t.length).Fits t ∧ s.length ≤ t.length ↔ s.BroadcastsTo t := by
  constructor
  · rintro ⟨hfits, -⟩
    exact hfits.exists_suffix ⟨_, rfl⟩
  · intro h
    refine ⟨?_, h.length_le⟩
    obtain ⟨r, ⟨lead, rfl⟩, hs⟩ := h
    rw [pad, length_append, hs.length_eq, Nat.add_sub_cancel]
    exact rel_append (fits_replicate lead) hs

theorem Fits.exists_joinAxes (ha : a.Fits u) (hb : b.Fits u) :
    ∃ t, joinAxes a b = some t ∧ t.Fits u := by
  induction ha generalizing b with
  | nil =>
    exact ⟨[], rfl, .nil⟩
  | @cons d n a u hd _ ih =>
    cases hb with
    | @cons e _ b _ he hb =>
      obtain ⟨t, ht, hfits⟩ := ih hb
      obtain ⟨m, hm, hmn⟩ : ∃ m, joinAxis d e = some m ∧ (m = n ∨ m = 1) := by
        unfold joinAxis
        split
        · exact ⟨d, rfl, hd⟩
        split
        · exact ⟨e, rfl, he⟩
        · rw [if_pos (by omega)]
          exact ⟨d, rfl, hd⟩
      exact ⟨m :: t, by simp [joinAxes, hm, ht], .cons hmn hfits⟩

theorem BroadcastsTo.exists_broadcast (ha : a.BroadcastsTo u) (hb : b.BroadcastsTo u) :
    ∃ t, broadcast a b = .ok t ∧ t.BroadcastsTo u := by
  -- The longer shape fits the last axes of `u`, and the other one does with unit axes in front.
  have hjoin {long short : Shape} (hle : short.length ≤ long.length) (hlong : long.BroadcastsTo u)
      (hshort : short.BroadcastsTo u) :
      ∃ t, joinAxes long (short.pad long.length) = some t ∧ t.BroadcastsTo u := by
    obtain ⟨r, hr, hlong⟩ := hlong
    obtain ⟨r', hr', hshort⟩ := hshort
    have hsuffix : r' <:+ r := suffix_of_suffix_length_le hr' hr
      (by rw [← hlong.length_eq, ← hshort.length_eq]; exact hle)
    have hpad := (fits_pad_iff.mpr ⟨r', hsuffix, hshort⟩).1
    rw [← hlong.length_eq] at hpad
    obtain ⟨t, ht, hfits⟩ := hlong.exists_joinAxes hpad
    exact ⟨t, ht, r, hr, hfits⟩
  by_cases hlt : a.length < b.length
  · obtain ⟨t, ht, htu⟩ := hjoin hlt.le hb ha
    exact ⟨t, by simp only [broadcast, if_pos hlt, ht], htu⟩
  · obtain ⟨t, ht, htu⟩ := hjoin (Nat.not_lt.mp hlt) ha hb
    exact ⟨t, by simp only [broadcast, if_neg hlt, ht], htu⟩

/-- What two shapes are broadcast to lies below just the shapes that both broadcast to. -/
theorem broadcastsTo_iff_of_broadcast (h : broadcast a b = .ok t) :
    t.BroadcastsTo u ↔ a.BroadcastsTo u ∧ b.BroadcastsTo u := by
  obtain ⟨⟨hale, ha⟩, hble, hb⟩ := broadcast_eq_ok h
  constructor
  · intro htu
    exact ⟨(fits_pad_iff.mp ⟨ha, hale⟩).trans htu, (fits_pad_iff.mp ⟨hb, hble⟩).trans htu⟩
  · rintro ⟨hau, hbu⟩
    obtain ⟨t', ht', htu⟩ := hau.exists_broadcast hbu
    rw [h] at ht'
    cases ht'
    exact htu

/-- A shape broadcasts to another one just if that is the join of the two. -/
theorem broadcast_eq_right_iff : broadcast s t = .ok t ↔ s.BroadcastsTo t := by
  constructor
  · intro h
    exact ((broadcastsTo_iff_of_broadcast h).mp (.refl t)).1
  · intro h
    obtain ⟨u, hu, hut⟩ := h.exists_broadcast (.refl t)
    rw [hu, hut.antisymm ((broadcastsTo_iff_of_broadcast hu).mp (.refl u)).2]

/-! ## The join of many shapes -/

/-- The shape broadcasts to just those shapes that all of the given ones broadcast to, so it is the
least of these. -/
def Joins (shapes : List Shape) (t : Shape) : Prop :=
  ∀ u, t.BroadcastsTo u ↔ ∀ s ∈ shapes, s.BroadcastsTo u

theorem Joins.bounds (h : Joins shapes t) : ∀ s ∈ shapes, s.BroadcastsTo t := (h t).mp (.refl t)

theorem Joins.eq (h : Joins shapes t) (h' : Joins shapes u) : t = u :=
  ((h u).mpr h'.bounds).antisymm ((h' t).mpr h.bounds)

theorem Joins.congr {shapes' : List Shape} (hmem : ∀ s, s ∈ shapes ↔ s ∈ shapes') :
    Joins shapes t ↔ Joins shapes' t := by
  simp only [Joins, hmem]

theorem broadcast_eq_ok_iff : broadcast a b = .ok t ↔ Joins [a, b] t := by
  constructor
  · intro h u
    simpa using broadcastsTo_iff_of_broadcast h
  · intro h
    obtain ⟨ha, hb⟩ : a.BroadcastsTo t ∧ b.BroadcastsTo t := by simpa using h.bounds
    obtain ⟨t', ht', -⟩ := ha.exists_broadcast hb
    have hjoins : Joins [a, b] t' := fun u => by simpa using broadcastsTo_iff_of_broadcast ht'
    rw [ht', hjoins.eq h]

theorem joins_cons_cons_iff (h : broadcast a b = .ok c) :
    Joins (a :: b :: shapes) t ↔ Joins (c :: shapes) t := by
  simp only [Joins, forall_mem_cons, broadcastsTo_iff_of_broadcast h, and_assoc]

/-- Broadcasting one shape after another finds the join of all. -/
theorem foldlM_broadcast_eq_ok_iff : shapes.foldlM broadcast a = .ok t ↔ Joins (a :: shapes) t := by
  induction shapes generalizing a with
  | nil =>
    have hself : Joins [a] a := fun u => by simp
    rw [foldlM_nil, pure_eq_ok]
    exact ⟨fun h => h ▸ hself, fun h => hself.eq h⟩
  | cons b shapes ih =>
    rw [foldlM_cons, bind_eq_ok]
    constructor
    · rintro ⟨c, hc, h⟩
      exact (joins_cons_cons_iff hc).mpr (ih.mp h)
    · intro h
      obtain ⟨hat, hbt, -⟩ : a.BroadcastsTo t ∧ b.BroadcastsTo t ∧ _ := by
        simpa only [forall_mem_cons] using h.bounds
      obtain ⟨c, hc, -⟩ := hat.exists_broadcast hbt
      exact ⟨c, hc, ih.mpr ((joins_cons_cons_iff hc).mp h)⟩

theorem broadcastAll_eq_ok_iff : broadcastAll shapes = .ok t ↔ Joins shapes t := by
  rw [broadcastAll, foldlM_broadcast_eq_ok_iff]
  simp only [Joins, forall_mem_cons, BroadcastsTo.nil, true_and]

theorem exists_foldlM_broadcast (h : ∀ s ∈ a :: shapes, s.BroadcastsTo u) :
    ∃ t, shapes.foldlM broadcast a = .ok t := by
  induction shapes generalizing a with
  | nil => exact ⟨a, rfl⟩
  | cons b shapes ih =>
    simp only [forall_mem_cons] at h
    obtain ⟨ha, hb, hshapes⟩ := h
    obtain ⟨c, hc, hcu⟩ := ha.exists_broadcast hb
    obtain ⟨t, ht⟩ := ih (forall_mem_cons.mpr ⟨hcu, hshapes⟩)
    exact ⟨t, by rw [foldlM_cons, hc, ok_bind, ht]⟩

/-! ## Strides that repeat a shape -/

/-- Aligned axes have strides just if those that a stride is given for fit. -/
theorem exists_alignStrides_iff {ts : Strides} (hlength : s.length = t.length) :
    (∃ us, alignStrides s ts t = some us) ↔ Fits (s.take ts.length) (t.take ts.length) := by
  induction s generalizing ts t with
  | nil =>
    rw [eq_nil_of_length_eq_zero hlength.symm]
    simp [alignStrides, Fits]
  | cons d s ih =>
    obtain ⟨n, t, rfl⟩ := exists_cons_of_length_eq_add_one hlength.symm
    cases ts with
    | nil => simp [alignStrides, Fits]
    | cons x ts =>
      have hrest : (∃ us, alignStrides s ts t = some us) ↔
          Fits (s.take ts.length) (t.take ts.length) := ih (by simpa using hlength)
      simp only [length_cons, take_succ_cons, Fits, forall₂_cons]
      rw [← Fits, ← hrest]
      simp only [alignStrides, Option.bind_eq_bind, Option.bind_eq_some_iff]
      constructor
      · rintro ⟨us, rest, hrest, hus⟩
        refine ⟨?_, rest, hrest⟩
        split_ifs at hus with hdn hd
        · exact .inl hdn
        · exact .inr hd
      · rintro ⟨hd, rest, hrest⟩
        by_cases hdn : d = n
        · exact ⟨_, rest, hrest, if_pos hdn⟩
        · exact ⟨_, rest, hrest, (if_neg hdn).trans (if_pos (by omega))⟩

/-- With a stride for every axis, a shape is walked as just the shapes that it broadcasts to. -/
theorem exists_broadcastStrides_iff {ts : Strides} (hts : s.length ≤ ts.length) :
    (∃ us, broadcastStrides s ts t = .ok us) ↔ s.BroadcastsTo t := by
  constructor
  · rintro ⟨us, hus⟩
    unfold broadcastStrides at hus
    split at hus
    · cases hus
    have hdrop : s.length = (t.drop (t.length - s.length)).length := by
      rw [length_drop]
      omega
    simp only at hus
    split at hus
    · rename_i out hout
      have hfits := (exists_alignStrides_iff hdrop).mp ⟨out, hout⟩
      rw [take_of_length_le hts, take_of_length_le (hdrop ▸ hts)] at hfits
      exact ⟨_, drop_suffix _ _, hfits⟩
    · cases hus
  · intro h
    have hle := h.length_le
    obtain ⟨r, hr, hs⟩ := h
    have hr : t.drop (t.length - s.length) = r := by
      rw [hs.length_eq]
      exact (suffix_iff_eq_drop.mp hr).symm
    obtain ⟨out, hout⟩ : ∃ out, alignStrides s ts r = some out := by
      rw [exists_alignStrides_iff hs.length_eq, take_of_length_le hts,
        take_of_length_le (hs.length_eq ▸ hts)]
      exact hs
    exact ⟨replicate (t.length - s.length) 0 ++ out,
      by simp only [broadcastStrides, if_neg (Nat.not_lt.mpr hle), hr, hout]⟩

/-! ## The laws -/

theorem broadcast_eq_ok_comm : broadcast a b = .ok t ↔ broadcast b a = .ok t := by
  rw [broadcast_eq_ok_iff, broadcast_eq_ok_iff]
  exact Joins.congr fun s => by simp [or_comm]

theorem broadcast_eq_ok_assoc :
    (do broadcast (← broadcast a b) c) = .ok t ↔ (do broadcast a (← broadcast b c)) = .ok t := by
  have hleft : (do broadcast (← broadcast a b) c) = [b, c].foldlM broadcast a := by simp
  have hright : (do broadcast (← broadcast b c) a) = [c, a].foldlM broadcast b := by simp
  calc (do broadcast (← broadcast a b) c) = .ok t
      ↔ Joins [a, b, c] t := by rw [hleft, foldlM_broadcast_eq_ok_iff]
    _ ↔ Joins [b, c, a] t := Joins.congr fun s => by
        simp only [mem_cons, not_mem_nil]
        tauto
    _ ↔ (do broadcast (← broadcast b c) a) = .ok t := by
        rw [hright, foldlM_broadcast_eq_ok_iff]
    _ ↔ (do broadcast a (← broadcast b c)) = .ok t := by
        simp only [bind_eq_ok, broadcast_eq_ok_comm]

theorem broadcast₃_eq (a b c : Shape) : broadcast₃ a b c = broadcastAll [a, b, c] := by
  simp [broadcast₃, broadcastAll, broadcast_nil, ok_bind]

theorem toOption_congr {x y : Except Error Shape} (h : ∀ t, x = .ok t ↔ y = .ok t) :
    x.toOption = y.toOption := by
  cases x with
  | ok t => rw [(h t).mp rfl]
  | error e =>
    cases y with
    | ok t => cases (h t).mpr rfl
    | error e' => rfl

/-- **Broadcasting is a partial join** of shapes, ordered by what they broadcast to: commutative,
associative and idempotent, failures included, with the scalar shape as identity. Many shapes, in
any order, broadcast to the least shape that all of them broadcast to, if there is one. With a
stride for each of its axes, a shape is walked as just the shapes that it broadcasts to. -/
theorem broadcast_is_join :
    (∀ s t, broadcast s t = .ok t ↔ s.BroadcastsTo t) ∧
    (∀ a b, (broadcast a b).toOption = (broadcast b a).toOption) ∧
    (∀ a, broadcast a a = .ok a) ∧
    (∀ a, broadcast [] a = .ok a ∧ broadcast a [] = .ok a) ∧
    (∀ a b c, (do broadcast (← broadcast a b) c).toOption =
      (do broadcast a (← broadcast b c)).toOption) ∧
    (∀ a b c, broadcast₃ a b c = broadcastAll [a, b, c]) ∧
    (∀ shapes shapes', shapes.Perm shapes' →
      (broadcastAll shapes).toOption = (broadcastAll shapes').toOption) ∧
    (∀ s ts t, s.length ≤ ts.length →
      ((∃ us, broadcastStrides s ts t = .ok us) ↔ broadcast s t = .ok t)) ∧
    (∀ shapes t, broadcastAll shapes = .ok t → (∀ s ∈ shapes, broadcast s t = .ok t) ∧
      ∀ u, (∀ s ∈ shapes, broadcast s u = .ok u) → broadcast t u = .ok u) ∧
    ∀ shapes e, broadcastAll shapes = .error e → ¬ ∃ u, ∀ s ∈ shapes, broadcast s u = .ok u := by
  refine ⟨fun _ _ => broadcast_eq_right_iff,
    fun a b => toOption_congr fun t => broadcast_eq_ok_comm,
    fun a => broadcast_eq_right_iff.mpr (.refl a),
    fun a => ⟨broadcast_nil a, broadcast_eq_ok_comm.mp (broadcast_nil a)⟩,
    fun a b c => toOption_congr fun t => broadcast_eq_ok_assoc, broadcast₃_eq,
    fun shapes shapes' hperm => toOption_congr fun t => ?_, fun s ts t hts => ?_,
    fun shapes t h => ?_, ?_⟩
  · rw [broadcastAll_eq_ok_iff, broadcastAll_eq_ok_iff]
    exact Joins.congr fun s => hperm.mem_iff
  · rw [exists_broadcastStrides_iff hts, broadcast_eq_right_iff]
  · have hjoins := broadcastAll_eq_ok_iff.mp h
    simp only [broadcast_eq_right_iff]
    exact ⟨hjoins.bounds, fun u => (hjoins u).mpr⟩
  · rintro shapes e h ⟨u, hu⟩
    simp only [broadcast_eq_right_iff] at hu
    obtain ⟨t, ht⟩ := exists_foldlM_broadcast (List.forall_mem_cons.mpr ⟨.nil u, hu⟩)
    rw [broadcastAll, ht] at h
    cases h

/-- A column, a row and a line of an empty grid, in two orders, and two grids that nothing covers.
-/
theorem broadcast_is_join_grid :
    broadcastAll [[4, 1], [1, 0], [0]] = .ok [4, 0] ∧
    (broadcastAll [[0], [4, 1], [1, 0]]).toOption = some [4, 0] ∧
    broadcast [1, 0] [4, 0] = .ok [4, 0] ∧ broadcast [4, 0] [2, 4, 0] = .ok [2, 4, 0] ∧
    (∃ us, broadcastStrides [1, 0] [7, 1] [4, 0] = .ok us) ∧
    ¬ ∃ u, ∀ s ∈ [[2, 3], [1], [4, 3]], broadcast s u = .ok u := by
  have hall : broadcastAll [[4, 1], [1, 0], [0]] = .ok [4, 0] := by decide
  obtain ⟨-, -, -, -, -, -, hperm, hstrides, hleast, hfails⟩ := broadcast_is_join
  obtain ⟨hbounds, hleast⟩ := hleast _ _ hall
  have hrow : broadcast [1, 0] [4, 0] = .ok [4, 0] := hbounds [1, 0] (by decide)
  refine ⟨hall, ?_, hrow, hleast [2, 4, 0] (by decide), (hstrides _ _ _ (by decide)).mpr hrow,
    hfails _ (.incompatibleShapes [2, 3] [4, 3]) (by decide)⟩
  rw [hperm [[0], [4, 1], [1, 0]] [[4, 1], [1, 0], [0]] (by decide), hall]
  rfl

end Hyperslab.Shape
