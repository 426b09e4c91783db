import Hyperslab.Proofs.AdmittedShapes
import Hyperslab.Proofs.OperandsInWords

/-!
# Row-major order

The positions of a shape have numbers, and come in the order of their numbers in three ways: by
repeated division, in a walk that carries from axis to axis, and by packed strides. A walk also
moves an index for each of its operands; it goes one stride beyond the end of an axis before it
turns, so the turns decide whether it comes to its end in words.
-/
namespace Hyperslab

open List Shape Word

/-! ## Walks -/

namespace Odometer

variable {s : Shape} {operands : List Operand} {o : Odometer} {i : Nat}

/-- A walk of a shape that comes to the position with number `i` next. -/
structure ComesTo (o : Odometer) (s : Shape) (operands : List Operand) (i : Nat) : Prop where
  shape_eq : o.shape = s
  strides_eq : o.strides = operands.map Operand.strides
  exact : o.Exact (operands.map Operand.start)
  standsAt : o.StandsAt i
  remaining_eq : o.remaining = s.size - i

theorem comesTo_start (s : Shape) (operands : List Operand) :
    (start s operands).ComesTo s operands 0 :=
  ⟨rfl, rfl, exact_start s operands, standsAt_start s operands, rfl⟩

theorem ComesTo.exists_next (h : o.ComesTo s operands i) (hi : i < s.size) :
    ∃ o', o.next? = some o' ∧ o'.ComesTo s operands (i + 1) ∧ o'.pos = unravel i s ∧
      o'.current = operands.map fun a => a.start + a.strides.offset (unravel i s) := by
  obtain ⟨rfl, hstrides, hexact, hat, hremaining⟩ := h
  obtain ⟨o', hnext⟩ : ∃ o', o.next? = some o' := by
    rw [StandsAt, if_pos hi] at hat
    simp [next?, hat]
  obtain ⟨hexact', hshape', hstrides', -, hcurrent⟩ := hexact.next hnext
  obtain ⟨hpos, hat'⟩ := hexact.standsAt_next hi hat hnext
  have hremaining' : o'.remaining = o.remaining - 1 := by
    simp only [next?, Option.map_eq_some_iff] at hnext
    obtain ⟨p, -, rfl⟩ := hnext
    rfl
  refine ⟨o', hnext, ⟨hshape', hstrides'.trans hstrides, hexact', hat', by omega⟩, hpos, ?_⟩
  rw [hcurrent, hpos, hstrides, indicesAt, zipWith_map, zipWith_self]

theorem ComesTo.next_eq_none (h : o.ComesTo s operands i) (hi : s.size ≤ i) : o.next? = none := by
  have hat := h.standsAt
  rw [StandsAt, h.shape_eq, if_neg (Nat.not_lt.mpr hi)] at hat
  rw [next?, hat, Option.map_none]

theorem after_succ (n : Nat) (o : Odometer) :
    o.after (n + 1) = ((o.after n).next?).getD (o.after n) := by
  induction n generalizing o with
  | zero => cases h : o.next? <;> simp [after, h]
  | succ n ih =>
    cases h : o.next? with
    | none => simp [after, h]
    | some o' => simpa [after, h] using ih o'

/-- Each call leads to the next position, and none leads past the last one. -/
theorem comesTo_after (s : Shape) (operands : List Operand) (k : Nat) :
    ((start s operands).after k).ComesTo s operands (min k s.size) := by
  induction k with
  | zero =>
    exact comesTo_start s operands
  | succ k ih =>
    rw [after_succ]
    rcases Nat.lt_or_ge k s.size with hk | hk
    · rw [Nat.min_eq_left hk.le] at ih
      obtain ⟨o', hnext, ho', -⟩ := ih.exists_next hk
      rwa [hnext, Nat.min_eq_left hk]
    -- Past the last position a call changes nothing, and the number stays at the size.
    · rw [Nat.min_eq_right hk] at ih
      rwa [ih.next_eq_none le_rfl, Option.getD_none, Nat.min_eq_right (hk.trans k.le_succ)]

theorem ComesTo.visits_eq {n : Nat} (h : o.ComesTo s operands i) (hn : i + n ≤ s.size) :
    o.visits n = (range n).map fun k => o.after (k + 1) := by
  induction n generalizing o i with
  | zero => rfl
  | succ n ih =>
    obtain ⟨o', hnext, ho', -⟩ := h.exists_next (by omega)
    simp only [visits, hnext, ih ho' (by omega), range_succ_eq_map, map_cons, map_map, after]
    rfl

theorem fault_start (hrank : ∀ a ∈ operands, a.strides.length = s.length) :
    (start s operands).fault? = none ↔ s.sizeChecked.isSome := by
  have hany :
      (start s operands).strides.any (·.length < (start s operands).shape.length) = false := by
    simpa [start] using fun a ha => (hrank a ha).ge
  rw [fault?, hany]
  cases h : s.sizeChecked <;> simp [start, h]

/-- **A walk visits the positions of a shape in row-major order, and then stands still.** As many
calls lead to a position as there are positions, and before each of them the walk knows how many are
left: one for a shape without axes, none if an axis is empty. The `k`-th call leads to the `k`-th
position, and the index of each operand to where its strides place this position. In words a walk of
signed lengths comes to its end just if, for each operand, the turns of the axes are words. -/
theorem walks_row_major (s : Shape) (operands : List Operand)
    (hoperands : ∀ a ∈ operands, fits a.start = true ∧ a.strides.length = s.length) :
    (∀ k, (((start s operands).after k).next?.isSome = true ↔ k < s.size) ∧
      ((start s operands).after k).remaining = s.size - k) ∧
    (∀ k < s.size, ∃ p, s.positions[k]? = some p ∧ ((start s operands).after (k + 1)).pos = p ∧
      ((start s operands).after (k + 1)).current =
        operands.map fun a => a.start + a.strides.offset p) ∧
    (∀ k, s.size ≤ k → (start s operands).after k = (start s operands).after s.size) ∧
    (s = [] → (start s operands).remaining = 1) ∧ (0 ∈ s → (start s operands).remaining = 0) ∧
    ((start s operands).fault? = none ↔ s.sizeChecked.isSome = true) ∧
    ((∀ d ∈ s, d < Word.half) → (start s operands).toListInWords = do
      ensure (0 < s.size → ∀ a ∈ operands, AllFit (Geometry.turns a.start a.start s a.strides))
      return (List.range s.size).map fun k => (start s operands).after (k + 1)) := by
  have hafter := comesTo_after s operands
  refine ⟨fun k => ⟨?_, ?_⟩, fun k hk => ?_, fun k hk => ?_, ?_, ?_,
    fault_start fun a ha => (hoperands a ha).2, ?_⟩
  · rcases Nat.lt_or_ge k s.size with hk | hk
    · obtain ⟨o', hnext, -⟩ := (hafter k).exists_next (by omega)
      simp [hnext, hk]
    · simp [(hafter k).next_eq_none (by omega), hk]
  · rw [(hafter k).remaining_eq]
    omega
  · have hcomes := hafter k
    rw [Nat.min_eq_left hk.le] at hcomes
    obtain ⟨o', hnext, -, hpos, hcurrent⟩ := hcomes.exists_next hk
    refine ⟨unravel k s, by simp [positions_eq, hk], ?_⟩
    rw [after_succ, hnext, Option.getD_some]
    exact ⟨hpos, hcurrent⟩
  · induction k, hk using Nat.le_induction with
    | base => rfl
    | succ k hk ih => rw [after_succ, (hafter k).next_eq_none (by omega), Option.getD_none, ih]
  · rintro rfl
    rfl
  · exact fun h => Nat.eq_zero_of_not_pos fun hs => (pos_of_mem hs h).false
  · intro _
    have hmet : AllFit ((start s operands).met s.size) ↔
        (0 < s.size → ∀ a ∈ operands, AllFit (Geometry.turns a.start a.start s a.strides)) := by
      rw [allFit_met_iff, forall₂_congr fun a ha =>
        Geometry.allFit_steps_iff_turns (hoperands a ha).1 (hoperands a ha).2]
      exact ⟨fun h hs a ha => h a ha hs, fun h a ha hs => h hs a ha⟩
    have hvisits := (comesTo_start s operands).visits_eq (n := s.size) (by omega)
    change (start s operands).visitsInWords s.size = _
    rw [visitsInWords_eq, check_eq_ensure, ensure_congr hmet, hvisits]

/-- Two operands, as in a walk of two views of one shape. -/
theorem walks_row_major_pair :
    let o := start [2, 3] [⟨1, [3, 1]⟩, ⟨0, [1, -2]⟩]
    (o.after 5).pos = [1, 1] ∧ (o.after 5).current = [5, -1] ∧ (o.after 5).remaining = 1 ∧
      (o.after 6).next? = none ∧
      o.toListInWords = .ok ((List.range 6).map fun k => o.after (k + 1)) := by
  obtain ⟨hcalls, hvisits, -, -, -, -, hwords⟩ :=
    walks_row_major [2, 3] [⟨1, [3, 1]⟩, ⟨0, [1, -2]⟩] (by decide)
  obtain ⟨p, hp, hpos, hcurrent⟩ := hvisits 4 (by decide)
  obtain rfl : [1, 1] = p := Option.some.inj hp
  refine ⟨hpos, hcurrent, (hcalls 5).2, ?_, (hwords (by decide)).trans ?_⟩
  · exact Option.not_isSome_iff_eq_none.mp fun h => absurd ((hcalls 6).1.mp h) (by decide)
  · rw [ensure_of (by decide)]
    rfl

/-- One position with the longest stride, which leads nowhere: the walk takes it before it turns. -/
theorem long_stride_stops_odometer :
    let o := start [1] [⟨1, [9223372036854775807]⟩]
    o.fault? = none ∧ (o.after 1).pos = [0] ∧ (o.after 1).current = [1] ∧
      o.toListInWords = .error (.fault .overflow) := by
  decide

end Odometer

/-- A walk of all positions of a shape meets them by their number. -/
theorem PositionWalk.map_pos_full {s : Shape} (hs : s.size ≤ modulus) :
    (start (.full s)).toList.map pos = (range s.size).map (unravel · s) := by
  have hwalk := congrArg (map fun v : Position × List Int => (Region.full s).sourcePosition v.1)
    (Odometer.toList_start s [])
  rw [map_map, map_map] at hwalk
  have hpos : (start (.full s)).toList.map pos =
      s.positions.map (Region.full s).sourcePosition := by
    rw [toList, map_map, start, Region.shape_full]
    exact hwalk
  rw [hpos, ← positions_eq]
  refine (map_congr_left fun p hp => ?_).trans (map_id _)
  have hp := mem_positions.mp hp
  exact Region.sourcePosition_full (fun d hd =>
    (le_size_of_mem (size_pos_of_contains hp) hd).trans hs) hp

/-- Dense items are read as they lie in the buffer. -/
theorem Dataset.Sound.toList_of_dense {d : Block} (h : d.Sound) (hdense : d.layout = .dense) :
    d.toList = (List.range (d.size * d.itemSize)).map fun j =>
      d.buffer.elements.getD (d.offset + j) d.kind.zero := by
  have helements : d.toList = (d.shape.positions.map d.item).flatten := Frame.elements_eq ..
  rw [helements, positions_eq, range_mul, map_map, map_flatMap]
  refine flatMap_congr fun i hi => ?_
  have hi : i < d.shape.size := mem_range.mp hi
  have hindex := Frame.Sound.indexOf_of_dense h hdense (contains_unravel (by omega) i)
  rw [ravel_unravel hi] at hindex
  rw [Function.comp_apply, item, Frame.item, hindex, map_map]
  refine map_congr_left fun j _ => ?_
  rw [Nat.add_assoc]
  rfl

/-! ## Numbers -/

namespace Shape

variable {s : Shape} {p q : Position}

/-- The coordinates of a number are the remainders of repeated division, the last one first. -/
theorem unravel_concat (s : Shape) (d i : Nat) :
    unravel i (s ++ [d]) = unravel (i / d) s ++ [i % d] := by
  induction s with
  | nil => simp [unravel]
  | cons e s ih =>
    have hsize : size (s ++ [d]) = d * size s := by
      rw [size_append, size_cons, size_nil, Nat.mul_one, Nat.mul_comm]
    rw [cons_append, unravel, ih, hsize, ← Nat.div_div_eq_div_mul, unravel, cons_append]

/-- Row-major order is the order of the coordinates, the first one first. -/
theorem ravel_lt_ravel_iff (hp : s.contains p) (hq : s.contains q) :
    s.ravel p < s.ravel q ↔ p < q := by
  induction s generalizing p q with
  | nil => simp [contains_nil.mp hq]
  | cons d s ih =>
    obtain ⟨i, p, rfl, -, hp⟩ := exists_of_contains_cons hp
    obtain ⟨j, q, rfl, -, hq⟩ := exists_of_contains_cons hq
    have hplt := ravel_lt hp
    have hqlt := ravel_lt hq
    rw [ravel_cons, ravel_cons, cons_lt_cons_iff, ← ih hp hq]
    rcases Nat.lt_trichotomy i j with hij | rfl | hij
    · have hle := Nat.mul_le_mul_right (size s) hij
      rw [Nat.succ_mul] at hle
      exact iff_of_true (by omega) (.inl hij)
    · simp
    · have hle := Nat.mul_le_mul_right (size s) hij
      rw [Nat.succ_mul] at hle
      exact iff_of_false (by omega) (by omega)

/-- **The ways of numbering positions agree.** In a shape without empty axes repeated division gives
each number a position, which is the one that a walk of the shape meets at this number, and which
packed strides place at as many items. Positions and numbers correspond one to one and in order.
Packed strides need the number of elements to be a signed word. A dense dataset finds its items in
the order of their numbers and reads the elements from its first one on as they lie in the buffer. -/
theorem numberings_agree (s : Shape) (m : Nat) (hs : 0 < s.size) :
    (∀ t d i, unravel i (t ++ [d]) = unravel (i / d) t ++ [i % d]) ∧
    (∀ i < s.size, s.contains (unravel i s) = true) ∧
    (s.size < modulus → (PositionWalk.start (.full s)).odometer.fault? = none ∧
      (PositionWalk.start (.full s)).toList.map PositionWalk.pos =
        (List.range s.size).map (unravel · s)) ∧
    (s.size * m < half → s.stridesChecked m = .ok (s.strides m) ∧
      ∀ i < s.size, (s.strides m).wordOffset (unravel i s) = .ok (i * m : Nat)) ∧
    (0 < m → m < half → (∀ d ∈ s, d < half) →
      ((∃ ts, s.stridesChecked m = .ok ts) ↔ s.size * m < half)) ∧
    (∀ p, s.contains p = true → s.ravel p < s.size ∧ unravel (s.ravel p) s = p) ∧
    (∀ i < s.size, s.ravel (unravel i s) = i) ∧
    (∀ p q, s.contains p = true → s.contains q = true → (s.ravel p < s.ravel q ↔ p < q)) ∧
    ∀ d : Block, d.Sound → d.layout = .dense → d.shape = s → d.itemSize = m →
      d.toListInWords = .ok ((List.range (s.size * m)).map fun j =>
        d.buffer.elements.getD (d.offset + j) d.kind.zero) ∧
      d.offset + s.size * m ≤ d.buffer.size ∧
      ∀ p, s.contains p = true → d.geometry.indexOf p = d.offset + s.ravel p * m := by
  have hcontains (i : Nat) : s.contains (unravel i s) := contains_unravel hs i
  refine ⟨unravel_concat, fun i _ => hcontains i,
    fun hlt => ⟨?_, PositionWalk.map_pos_full hlt.le⟩, fun hlt => ⟨?_, fun i hi => ?_⟩,
    fun hm hlt hsmall => ?_, fun p hp => ⟨ravel_lt hp, unravel_ravel hp⟩,
    fun i hi => ravel_unravel hi, fun p q => ravel_lt_ravel_iff, ?_⟩
  · refine (Odometer.fault_start (by simp)).mpr ?_
    rw [Region.shape_full, sizeChecked_of_pos hs hlt]
    rfl
  · have hfit : s.stridesFit m := by
      refine stridesFit_iff.mpr fun t ht => ?_
      obtain ⟨hextent, hle⟩ := extent_of_suffix ht hs hlt
      rw [hextent, fits_iff]
      omega
    rw [stridesChecked, if_pos hfit]
  · rw [Strides.wordOffset_strides (hcontains i) hlt, ravel_unravel hi]
  · rw [← room_of_pos hs, ← stridesFit_iff_room hm hlt hsmall, stridesChecked]
    split <;> simp_all
  · rintro d hd hdense rfl rfl
    refine ⟨?_, Frame.Sound.end_le_of_dense hd hdense hs,
      fun p hp => Frame.Sound.indexOf_of_dense hd hdense hp⟩
    rw [hd.toListInWords_eq, ensure_of ⟨Frame.Sound.hasStrides hd hs,
      Frame.Sound.allFit_walkNumbers_of_dense hd hdense⟩, hd.toList_of_dense hdense]
    rfl

theorem numberings_agree_pairs :
    Shape.contains [3, 2] (unravel 4 [3, 2]) = true ∧
    (Shape.strides 2 [3, 2]).wordOffset (unravel 4 [3, 2]) = .ok 8 ∧
    Dataset.pairRows.geometry.indexOf [2, 0] = 8 ∧
    Dataset.pairRows.toListInWords = .ok ((List.range 12).map fun j =>
      Dataset.pairRows.buffer.elements.getD (0 + j) (.int 0)) := by
  obtain ⟨-, hcontains, -, hstrides, -, -, -, -, hdense⟩ := numberings_agree [3, 2] 2 (by decide)
  have hpairs : Dataset.pairRows.Made :=
    .ofElements (k := .int true .w32) (n := 2) (s := [3, 2])
      (l := (List.range 12).map fun i => Scalar.int i) rfl
  obtain ⟨hlist, -, hindex⟩ := hdense _ hpairs.sound rfl rfl rfl
  exact ⟨hcontains 4 (by decide), (hstrides (by decide)).2 4 (by decide), hindex [2, 0] rfl, hlist⟩

/-- The product of all axes is formed on the way to packed strides, although it is none of them. -/
theorem long_axis_stops_strides :
    0 < size [4611686018427387904, 2] ∧ size [4611686018427387904, 2] < modulus ∧
    Shape.strides 1 [4611686018427387904, 2] = [2, 1] ∧
    Shape.stridesChecked 1 [4611686018427387904, 2] = .error (.fault .overflow) :=
  ⟨by decide, by decide, rfl, rfl⟩

end Shape

end Hyperslab
