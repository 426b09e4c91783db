import Hyperslab.Proofs.Reshapes

/-!
# Groups of axes

The axes of two shapes of the same size are paired by one pass over both: equal axes go together,
unit axes stand alone, and otherwise the side with the smaller product takes axes until the products
agree. The pass ends at the first common product, so it may seem to miss a grouping that cuts later.
It does not: without unit axes, a run whose other side is a single axis has no common product before
its end. So the pass finds groups just if the shapes can be cut into runs that merge or split one
axis each, and no product on the way is larger than the shapes.
-/
namespace Hyperslab

open List Shape

/-! ## Cuts -/

namespace Shape

variable {s : Shape}

/-- The two shapes are cut into pairs of consecutive runs of the same size, and each pair has a side
with at most one axis. -/
structure IsCut (source target : Shape) (runs : List (Shape × Shape)) : Prop where
  source_eq : runs.flatMap Prod.fst = source
  target_eq : runs.flatMap Prod.snd = target
  size_eq : ∀ r ∈ runs, r.1.size = r.2.size
  one_axis : ∀ r ∈ runs, r.1.length ≤ 1 ∨ r.2.length ≤ 1

theorem size_squeeze (s : Shape) : s.squeeze.size = s.size := by
  induction s with
  | nil => rfl
  | cons d s ih =>
    by_cases hd : d = 1
    · subst hd
      rw [size_cons, Nat.one_mul]
      exact ih
    · rw [squeeze_cons_of_ne hd, size_cons, size_cons, ih]

/-- No axis is empty or a unit axis. -/
def AllLong (s : Shape) : Prop := ∀ d ∈ s, 1 < d

theorem AllLong.of_append_left {t : Shape} (h : AllLong (s ++ t)) : s.AllLong :=
  fun d hd => h d (mem_append_left t hd)

theorem AllLong.of_append_right {t : Shape} (h : AllLong (s ++ t)) : t.AllLong :=
  fun d hd => h d (mem_append_right s hd)

theorem AllLong.tail {d : Nat} (h : AllLong (d :: s)) : s.AllLong :=
  fun e he => h e (mem_cons_of_mem d he)

theorem allLong_squeeze (h : 0 < s.size) : s.squeeze.AllLong := by
  intro d hd
  obtain ⟨hmem, hne⟩ : d ∈ s ∧ d ≠ 1 := by simpa [squeeze] using hd
  obtain ⟨a, b, rfl⟩ := append_of_mem hmem
  rw [size_append] at h
  have hd : 0 < d := Nat.pos_of_mul_pos_right (Nat.pos_of_mul_pos_left h)
  omega

/-- A run of long axes has more than one item, unless it is empty. -/
theorem AllLong.eq_nil (h : s.AllLong) (hsize : s.size = 1) : s = [] := by
  cases s with
  | nil => rfl
  | cons d s =>
    have hd : 1 < d := h d mem_cons_self
    have hone : d = 1 := Nat.eq_one_of_mul_eq_one_right (by simpa using hsize)
    omega

theorem AllLong.size_pos (h : s.AllLong) : 0 < s.size := by
  induction s with
  | nil => exact Nat.one_pos
  | cons d s ih =>
    have hd : 1 < d := h d mem_cons_self
    exact Nat.mul_pos (by omega) (ih fun e he => h e (mem_cons_of_mem _ he))

namespace IsCut

variable {source target : Shape} {runs : List (Shape × Shape)} {r : Shape × Shape}

theorem tail {s t : Shape} (h : IsCut source target ((s, t) :: runs)) :
    IsCut (runs.flatMap Prod.fst) (runs.flatMap Prod.snd) runs :=
  ⟨rfl, rfl, fun r hr => h.size_eq r (mem_cons_of_mem _ hr),
    fun r hr => h.one_axis r (mem_cons_of_mem _ hr)⟩

theorem total_size_eq (h : IsCut source target runs) : source.size = target.size := by
  induction runs generalizing source target with
  | nil => rw [← h.source_eq, ← h.target_eq]; rfl
  | cons r runs ih =>
    rw [← h.source_eq, ← h.target_eq, flatMap_cons, flatMap_cons, size_append,
      size_append, h.size_eq r mem_cons_self, ih h.tail]

theorem squeeze (h : IsCut source target runs) :
    IsCut source.squeeze target.squeeze
      (runs.map fun r => (Shape.squeeze r.1, Shape.squeeze r.2)) where
  source_eq := by
    rw [← h.source_eq, Shape.squeeze, List.filter_flatMap, List.flatMap_map]
    rfl
  target_eq := by
    rw [← h.target_eq, Shape.squeeze, List.filter_flatMap, List.flatMap_map]
    rfl
  size_eq r hr := by
    obtain ⟨r', hr', rfl⟩ := List.mem_map.mp hr
    exact (size_squeeze _).trans ((h.size_eq r' hr').trans (size_squeeze _).symm)
  one_axis r hr := by
    obtain ⟨r', hr', rfl⟩ := List.mem_map.mp hr
    have hle (s : Shape) : s.squeeze.length ≤ s.length := List.length_filter_le ..
    exact (h.one_axis r' hr').imp (hle _).trans (hle _).trans

/-- Without unit axes, the first axes of both sides are in one run, and what follows the run is cut
again. -/
theorem exists_first {d e : Nat} (h : IsCut (d :: source) (e :: target) runs)
    (hsource : AllLong (d :: source)) (htarget : AllLong (e :: target)) :
    ∃ a b s t rest, source = a ++ s ∧ target = b ++ t ∧ d * size a = e * size b ∧
      (a = [] ∨ b = []) ∧ IsCut s t rest := by
  induction runs with
  | nil => cases h.source_eq
  | cons r runs ih =>
    obtain ⟨u, v⟩ := r
    have hfst : u ++ runs.flatMap Prod.fst = d :: source := h.source_eq
    have hsnd : v ++ runs.flatMap Prod.snd = e :: target := h.target_eq
    have hsize : u.size = v.size := h.size_eq _ mem_cons_self
    have hlength : u.length ≤ 1 ∨ v.length ≤ 1 := h.one_axis _ mem_cons_self
    have hu : u.AllLong := AllLong.of_append_left (hfst ▸ hsource)
    have hv : v.AllLong := AllLong.of_append_left (hsnd ▸ htarget)
    cases u with
    | nil =>
      -- The run is empty on both sides.
      obtain rfl := hv.eq_nil hsize.symm
      exact ih ⟨hfst, hsnd, h.tail.size_eq, h.tail.one_axis⟩
    | cons d' a =>
      cases v with
      | nil => cases hu.eq_nil hsize
      | cons e' b =>
        obtain ⟨rfl, rfl⟩ : d' = d ∧ a ++ runs.flatMap Prod.fst = source := by simpa using hfst
        obtain ⟨rfl, rfl⟩ : e' = e ∧ b ++ runs.flatMap Prod.snd = target := by simpa using hsnd
        exact ⟨a, b, _, _, runs, rfl, rfl, hsize, by simpa using hlength, h.tail⟩

theorem exists_tail {d : Nat} (h : IsCut (d :: source) (d :: target) runs)
    (hsource : AllLong (d :: source)) (htarget : AllLong (d :: target)) :
    ∃ rest, IsCut source target rest := by
  obtain ⟨a, b, s, t, rest, rfl, rfl, hsize, hone, hrest⟩ := h.exists_first hsource htarget
  have hd : 1 < d := hsource d mem_cons_self
  have hsize : a.size = b.size := Nat.eq_of_mul_eq_mul_left (by omega) hsize
  have hnil : a = [] ∧ b = [] := by
    rcases hone with rfl | rfl
    · exact ⟨rfl, htarget.tail.of_append_left.eq_nil hsize.symm⟩
    · exact ⟨hsource.tail.of_append_left.eq_nil hsize, rfl⟩
  obtain ⟨rfl, rfl⟩ := hnil
  exact ⟨rest, hrest⟩

end IsCut

end Shape

namespace AxisGroup

variable {s t : Shape} {p q limit : Nat}

/-! ## What the pass finds -/

/-- Each group starts where the one before it ended, the first at the axes `i` and `j`, and the last
ends before the axes `m` and `n`. -/
def Consecutive (m n : Nat) : (i j : Nat) → List AxisGroup → Prop
  | i, j, [] => i = m ∧ j = n
  | i, j, g :: groups => g.sourceStart = i ∧ g.targetStart = j ∧
      Consecutive m n (i + g.sourceLength) (j + g.targetLength) groups

variable {i j : Nat} {source target : Shape} {groups : List AxisGroup}

theorem Grouped.consecutive (h : Grouped i j source target groups) :
    Consecutive (i + source.length) (j + target.length) i j groups := by
  induction h with
  | nil => exact ⟨rfl, rfl⟩
  | @cons i j source target groups m n hm hn _ _ _ ih =>
    have hsource : i + m + (source.drop m).length = i + source.length := by
      rw [length_drop]
      omega
    have htarget : j + n + (target.drop n).length = j + target.length := by
      rw [length_drop]
      omega
    rw [hsource, htarget] at ih
    exact ⟨rfl, rfl, ih⟩

theorem Grouped.isCut (h : Grouped i j source target groups)
    (hone : ∀ g ∈ groups, g.sourceLength ≤ 1 ∨ g.targetLength ≤ 1) (hs : s.drop i = source)
    (ht : t.drop j = target) :
    IsCut source target (groups.map fun g => (g.source s, g.target t)) := by
  induction h with
  | nil => exact ⟨rfl, rfl, by simp, by simp⟩
  | @cons i j source target groups m n hm hn hsize _ _ ih =>
    have hrest := ih (fun g hg => hone g (mem_cons_of_mem _ hg))
      (by rw [← drop_drop, hs]) (by rw [← drop_drop, ht])
    have hfirst : (AxisGroup.source ⟨i, m, j, n⟩ s, AxisGroup.target ⟨i, m, j, n⟩ t) =
        (source.take m, target.take n) := by rw [AxisGroup.source, AxisGroup.target, hs, ht]
    rw [map_cons, hfirst]
    refine ⟨?_, ?_, ?_, ?_⟩
    · rw [flatMap_cons, hrest.source_eq, take_append_drop]
    · rw [flatMap_cons, hrest.target_eq, take_append_drop]
    · exact forall_mem_cons.mpr ⟨hsize, hrest.size_eq⟩
    · have hlength : m ≤ 1 ∨ n ≤ 1 := hone _ mem_cons_self
      refine forall_mem_cons.mpr ⟨?_, hrest.one_axis⟩
      simpa [hm, hn] using hlength

theorem Passes.one_axis (h : Passes i j source target groups) :
    ∀ g ∈ groups, g.sourceLength ≤ 1 ∨ g.targetLength ≤ 1 := by
  induction h with
  | nil => simp
  | goes _ ih | comes _ ih | stays _ _ ih => exact forall_mem_cons.mpr ⟨.inl (by simp), ih⟩
  | regroups _ _ _ _ hone _ ih => exact forall_mem_cons.mpr ⟨by simpa using hone, ih⟩

/-! ## What the pass misses -/

section Equations

variable {p q : Nat} {s t : Shape}

theorem matchProducts_self (p : Nat) (s t : Shape) : matchProducts p p s t = .ok (0, 0) := by
  rw [matchProducts.eq_def, if_pos rfl]

theorem matchProducts_nil_of_lt (h : p < q) : matchProducts p q [] t = .error .productsDiffer := by
  rw [matchProducts.eq_def, if_neg (by omega), if_pos h]

theorem matchProducts_cons_of_lt (h : p < q) (d : Nat) : matchProducts p q (d :: s) t =
    (matchProducts (p * d) q s t).map fun c => (c.1 + 1, c.2) := by
  rw [matchProducts.eq_def, if_neg (by omega), if_pos h]
  rfl

theorem matchProducts_nil_of_gt (h : q < p) : matchProducts p q s [] = .error .productsDiffer := by
  rw [matchProducts.eq_def, if_neg (by omega), if_neg (by omega)]

theorem matchProducts_cons_of_gt (h : q < p) (d : Nat) : matchProducts p q s (d :: t) =
    (matchProducts p (q * d) s t).map fun c => (c.1, c.2 + 1) := by
  rw [matchProducts.eq_def, if_neg (by omega), if_neg (by omega)]
  rfl

end Equations

theorem matchProducts_swap (p q : Nat) (source target : Shape) :
    matchProducts q p target source = (matchProducts p q source target).map Prod.swap := by
  fun_induction matchProducts p q source target with
  | case1 p source target => exact matchProducts_self p target source
  | case2 p q target hne hlt => exact matchProducts_nil_of_gt hlt
  | case3 p q target hne hlt d rest ih =>
    rw [matchProducts_cons_of_gt hlt, ih]
    cases matchProducts (p * d) q rest target <;> rfl
  | case4 p q source hne hlt => exact matchProducts_nil_of_lt (by omega)
  | case5 p q source hne hlt e rest ih =>
    rw [matchProducts_cons_of_lt (by omega), ih]
    cases matchProducts p (q * e) source rest <;> rfl

/-- A side whose long axes lead to the product of the other one takes just them, with the unit axes
among them. -/
theorem matchProducts_of_run {a rest : Shape} (hp : 0 < p) (ha : a.AllLong)
    (hs : s.squeeze = a ++ rest) (hq : p * a.size = q) :
    ∃ m, matchProducts p q s t = .ok (m, 0) ∧ squeeze (s.drop m) = rest := by
  induction s generalizing p a with
  | nil =>
    obtain ⟨rfl, rfl⟩ := append_eq_nil_iff.mp hs.symm
    obtain rfl : p = q := (Nat.mul_one p).symm.trans hq
    exact ⟨0, matchProducts_self p _ t, rfl⟩
  | cons d s ih =>
    by_cases hpq : p = q
    · obtain rfl : a = [] := ha.eq_nil (Nat.eq_of_mul_eq_mul_left hp (by omega))
      exact ⟨0, hpq ▸ matchProducts_self p _ t, hs⟩
    · have hlt : p < q := by
        have : p ≤ q := hq ▸ Nat.le_mul_of_pos_right p ha.size_pos
        omega
      rw [matchProducts_cons_of_lt hlt]
      by_cases hd : d = 1
      · subst hd
        obtain ⟨m, hm, hrest⟩ := ih hp ha hs hq
        exact ⟨m + 1, by rw [Nat.mul_one, hm]; rfl, hrest⟩
      · cases a with
        | nil => exact absurd ((Nat.mul_one p).symm.trans hq) hpq
        | cons d' a =>
          rw [squeeze_cons_of_ne hd, cons_append, cons.injEq] at hs
          obtain ⟨rfl, hs⟩ := hs
          rw [size_cons, ← Nat.mul_assoc] at hq
          have hd : 1 < d := ha d mem_cons_self
          obtain ⟨m, hm, hrest⟩ := ih (Nat.mul_pos hp (by omega))
            (fun e he => ha e (mem_cons_of_mem _ he)) hs hq
          exact ⟨m + 1, by rw [hm]; rfl, hrest⟩

/-- The side with more axes in the first run takes them, and the other side none. What follows is
cut again. -/
theorem matchProducts_of_cut {d e : Nat} {runs : List (Shape × Shape)}
    (hcut : IsCut (d :: source.squeeze) (e :: target.squeeze) runs)
    (hsource : AllLong (d :: source.squeeze)) (htarget : AllLong (e :: target.squeeze)) :
    ∃ m n rest, matchProducts d e source target = .ok (m, n) ∧ (m = 0 ∨ n = 0) ∧
      IsCut (squeeze (source.drop m)) (squeeze (target.drop n)) rest ∧
      AllLong (squeeze (source.drop m)) ∧ AllLong (squeeze (target.drop n)) := by
  obtain ⟨a, b, s, t, rest, hs, ht, hsize, hone, hrest⟩ := hcut.exists_first hsource htarget
  have hd : 1 < d := hsource d mem_cons_self
  have he : 1 < e := htarget e mem_cons_self
  have hsource : AllLong (a ++ s) := hs ▸ hsource.tail
  have htarget : AllLong (b ++ t) := ht ▸ htarget.tail
  rcases hone with rfl | rfl
  · obtain ⟨n, hn, rfl⟩ := matchProducts_of_run (by omega) htarget.of_append_left ht
      (hsize.symm.trans (Nat.mul_one d))
    obtain rfl : source.squeeze = s := hs
    refine ⟨0, n, rest, ?_, .inl rfl, hrest, hsource, htarget.of_append_right⟩
    rw [matchProducts_swap, hn]
    rfl
  · obtain ⟨m, hm, rfl⟩ := matchProducts_of_run (by omega) hsource.of_append_left hs
      (hsize.trans (Nat.mul_one e))
    obtain rfl : target.squeeze = t := ht
    exact ⟨m, 0, rest, hm, .inr rfl, hrest, hsource.of_append_right, htarget⟩

/-- If the shapes without their unit axes can be cut, the pass finds groups. -/
theorem exists_between (i j : Nat) {runs : List (Shape × Shape)}
    (hcut : IsCut source.squeeze target.squeeze runs) (hsource : source.squeeze.AllLong)
    (htarget : target.squeeze.AllLong) : ∃ groups, between i j source target = .ok groups := by
  have hsome {g : AxisGroup} {x : Except RegroupFault (List AxisGroup)}
      (h : ∃ groups, x = .ok groups) : ∃ groups, (do return g :: (← x)) = .ok groups := by
    obtain ⟨groups, rfl⟩ := h
    exact ⟨g :: groups, rfl⟩
  fun_induction between i j source target generalizing runs with
  | case1 => exact ⟨[], rfl⟩
  | case2 i j source ih | case4 i j target ih => exact hsome (ih hcut hsource htarget)
  | case7 i j source e target _ ih | case8 i j d source target _ _ ih =>
    exact hsome (ih hcut hsource htarget)
  | case3 i j d source hd =>
    have hsize : (squeeze (d :: source)).size = 1 := hcut.total_size_eq
    cases squeeze_cons_of_ne hd source ▸ hsource.eq_nil hsize
  | case5 i j e target he =>
    have hsize : (squeeze (e :: target)).size = 1 := hcut.total_size_eq.symm
    cases squeeze_cons_of_ne he target ▸ htarget.eq_nil hsize
  | case6 i j source d target ih =>
    by_cases hd : d = 1
    · subst hd
      exact hsome (ih hcut hsource htarget)
    · rw [squeeze_cons_of_ne hd] at hsource htarget
      rw [squeeze_cons_of_ne hd, squeeze_cons_of_ne hd] at hcut
      obtain ⟨rest, hrest⟩ := hcut.exists_tail hsource htarget
      exact hsome (ih hrest hsource.tail htarget.tail)
  | case9 i j d source e target hne hd he ih =>
    rw [squeeze_cons_of_ne hd] at hcut hsource
    rw [squeeze_cons_of_ne he] at hcut htarget
    obtain ⟨m, n, rest, hmatch, hmn, hrest, hsource, htarget⟩ :=
      matchProducts_of_cut hcut hsource htarget
    have hboth : ¬ (m ≠ 0 ∧ n ≠ 0) := by omega
    simp only [hmatch, ok_bind, if_neg hboth]
    exact hsome (ih m n hrest hsource htarget)

/-! ## How the pass fails -/

theorem exists_matchProducts (hsize : p * source.size = q * target.size)
    (hpos : 0 < p * source.size) : ∃ m n, matchProducts p q source target = .ok (m, n) := by
  fun_induction matchProducts p q source target with
  | case1 => exact ⟨0, 0, rfl⟩
  | case2 p q target hne hlt =>
    have hq : q ≤ q * target.size :=
      Nat.le_mul_of_pos_right q (Nat.pos_of_mul_pos_left (hsize ▸ hpos))
    rw [size_nil] at hsize
    omega
  | case3 p q target hne hlt d rest ih =>
    rw [size_cons, ← Nat.mul_assoc] at hsize hpos
    obtain ⟨m, n, hmatch⟩ := ih hsize hpos
    exact ⟨m + 1, n, by rw [hmatch]; rfl⟩
  | case4 p q source hne hlt =>
    have hp : p ≤ p * source.size := Nat.le_mul_of_pos_right p (Nat.pos_of_mul_pos_left hpos)
    rw [size_nil] at hsize
    omega
  | case5 p q source hne hlt e rest ih =>
    rw [size_cons, ← Nat.mul_assoc] at hsize
    obtain ⟨m, n, hmatch⟩ := ih hsize hpos
    exact ⟨m, n + 1, by rw [hmatch]; rfl⟩

/-- What is left after the axes of one group has the same size on both sides. -/
theorem size_drop_eq {d e m n : Nat} (hmatch : matchProducts d e source target = .ok (m, n))
    (hsize : size (d :: source) = size (e :: target)) (hpos : 0 < size (d :: source)) :
    size (source.drop m) = size (target.drop n) ∧ 0 < size (source.drop m) := by
  obtain ⟨-, -, htaken⟩ := matchProducts_eq_ok hmatch
  have hsplit (s : Shape) (k : Nat) : s.size = size (s.take k) * size (s.drop k) := by
    rw [← size_append, take_append_drop]
  rw [size_cons, hsplit source m, ← Nat.mul_assoc] at hsize hpos
  rw [size_cons, hsplit target n, ← Nat.mul_assoc, ← htaken] at hsize
  exact ⟨Nat.eq_of_mul_eq_mul_left (Nat.pos_of_mul_pos_right hpos) hsize,
    Nat.pos_of_mul_pos_left hpos⟩

/-- Shapes of the same size without an empty axis correspond unless both sides of a group have more
than one axis. -/
theorem between_eq_error {fault : RegroupFault} (hsize : source.size = target.size)
    (hpos : 0 < source.size) (h : between i j source target = .error fault) :
    fault = .regrouped := by
  have hrest {g : AxisGroup} {x : Except RegroupFault (List AxisGroup)}
      (h : (do return g :: (← x)) = .error fault) : x = .error fault := by
    cases x with
    | ok groups => cases h
    | error fault => exact h
  fun_induction between i j source target with
  | case1 => cases h
  | case2 i j source ih =>
    rw [size_cons, Nat.one_mul] at hsize hpos
    exact ih hsize hpos (hrest h)
  | case7 i j source e target _ ih =>
    rw [size_cons, Nat.one_mul] at hsize hpos
    exact ih hsize hpos (hrest h)
  | case3 i j d source hd => exact absurd (Nat.eq_one_of_mul_eq_one_right hsize) hd
  | case4 i j target ih =>
    rw [size_cons, Nat.one_mul] at hsize
    exact ih hsize hpos (hrest h)
  | case8 i j d source target _ _ ih =>
    rw [size_cons 1, Nat.one_mul] at hsize
    exact ih hsize hpos (hrest h)
  | case5 i j e target he => exact absurd (Nat.eq_one_of_mul_eq_one_right hsize.symm) he
  | case6 i j source d target ih =>
    have hd : 0 < d := Nat.pos_of_mul_pos_right hpos
    exact ih (Nat.eq_of_mul_eq_mul_left hd hsize) (Nat.pos_of_mul_pos_left hpos) (hrest h)
  | case9 i j d source e target hne hd he ih =>
    obtain ⟨m, n, hmatch⟩ := exists_matchProducts hsize hpos
    simp only [hmatch, ok_bind] at h
    split at h
    · cases h
      rfl
    · obtain ⟨hsize, hpos⟩ := size_drop_eq hmatch hsize hpos
      exact ih m n hsize hpos (hrest h)

/-! ## The products on the way -/

/-- The search for a common product that stops, with no fault, at a product above the limit. -/
def matchProductsWithin (limit p q : Nat) (source target : Shape) :
    Except (Option RegroupFault) (Nat × Nat) :=
  if limit < p ∨ limit < q then .error none
  else if p = q then .ok (0, 0)
  else if p < q then
    match source with
    | [] => .error (some .productsDiffer)
    | d :: rest => do
        let (m, n) ← matchProductsWithin limit (p * d) q rest target
        return (m + 1, n)
  else
    match target with
    | [] => .error (some .productsDiffer)
    | d :: rest => do
        let (m, n) ← matchProductsWithin limit p (q * d) source rest
        return (m, n + 1)
termination_by source.length + target.length

/-- The pass over both shapes that stops, with no fault, at a product above the limit. -/
def betweenWithin (limit i j : Nat) (source target : Shape) :
    Except (Option RegroupFault) (List AxisGroup) :=
  match source, target with
  | [], [] => .ok []
  | d :: source, [] =>
      if d = 1 then do return ⟨i, 1, j, 0⟩ :: (← betweenWithin limit (i + 1) j source [])
      else .error (some .productsDiffer)
  | [], e :: target =>
      if e = 1 then do return ⟨i, 0, j, 1⟩ :: (← betweenWithin limit i (j + 1) [] target)
      else .error (some .productsDiffer)
  | d :: source, e :: target =>
      if d = e then do
        return ⟨i, 1, j, 1⟩ :: (← betweenWithin limit (i + 1) (j + 1) source target)
      else if d = 1 then do
        return ⟨i, 1, j, 0⟩ :: (← betweenWithin limit (i + 1) j source (e :: target))
      else if e = 1 then do
        return ⟨i, 0, j, 1⟩ :: (← betweenWithin limit i (j + 1) (d :: source) target)
      else do
        let (m, n) ← matchProductsWithin limit d e source target
        if m ≠ 0 ∧ n ≠ 0 then .error (some .regrouped)
        else
          return ⟨i, m + 1, j, n + 1⟩ ::
            (← betweenWithin limit (i + m + 1) (j + n + 1) (source.drop m) (target.drop n))
termination_by source.length + target.length
decreasing_by all_goals simp only [length_cons, length_drop, length_nil]; omega

theorem matchProductsWithin_step (hp : p ≤ limit) (hq : q ≤ limit) :
    matchProductsWithin limit p q s t =
      if p = q then .ok (0, 0)
      else if p < q then
        match s with
        | [] => .error (some .productsDiffer)
        | d :: rest => do
            let (m, n) ← matchProductsWithin limit (p * d) q rest t
            return (m + 1, n)
      else
        match t with
        | [] => .error (some .productsDiffer)
        | d :: rest => do
            let (m, n) ← matchProductsWithin limit p (q * d) s rest
            return (m, n + 1) := by
  rw [matchProductsWithin.eq_def, if_neg (by omega)]

/-- Products that divide sizes within the limit are within the limit. -/
theorem matchProductsWithin_eq
    (hp : p * source.size ≤ limit) (hq : q * target.size ≤ limit) (hsource : 0 < source.size)
    (htarget : 0 < target.size) : matchProductsWithin limit p q source target =
      (matchProducts p q source target).mapError some := by
  rw [matchProductsWithin_step ((Nat.le_mul_of_pos_right p hsource).trans hp)
    ((Nat.le_mul_of_pos_right q htarget).trans hq)]
  fun_induction matchProducts p q source target with
  | case1 => rw [if_pos rfl]; rfl
  | case2 p q target hne hlt => rw [if_neg hne, if_pos hlt]; rfl
  | case3 p q target hne hlt d rest ih =>
    rw [size_cons] at hp hsource
    have hrest : 0 < size rest := Nat.pos_of_mul_pos_left hsource
    rw [← Nat.mul_assoc] at hp
    rw [if_neg hne, if_pos hlt]
    simp only [matchProductsWithin_step ((Nat.le_mul_of_pos_right _ hrest).trans hp)
      ((Nat.le_mul_of_pos_right q htarget).trans hq)]
    rw [ih hp hq hrest htarget]
    cases matchProducts (p * d) q rest target <;> rfl
  | case4 p q source hne hlt => rw [if_neg hne, if_neg hlt]; rfl
  | case5 p q source hne hlt e rest ih =>
    rw [size_cons] at hq htarget
    have hrest : 0 < size rest := Nat.pos_of_mul_pos_left htarget
    rw [← Nat.mul_assoc] at hq
    rw [if_neg hne, if_neg hlt]
    simp only [matchProductsWithin_step ((Nat.le_mul_of_pos_right p hsource).trans hp)
      ((Nat.le_mul_of_pos_right _ hrest).trans hq)]
    rw [ih hp hq hsource hrest]
    cases matchProducts p (q * e) source rest <;> rfl

theorem betweenWithin_eq (i j : Nat)
    (hsize : source.size = target.size) (hpos : 0 < source.size) (hlimit : source.size ≤ limit) :
    betweenWithin limit i j source target = (between i j source target).mapError some := by
  have hcons (g : AxisGroup) (x : Except RegroupFault (List AxisGroup)) :
      (do return g :: (← x.mapError some)) = (do return g :: (← x)).mapError some := by
    cases x <;> rfl
  fun_induction between i j source target with
  | case1 => rw [betweenWithin]; rfl
  | case2 i j source ih =>
    rw [size_cons, Nat.one_mul] at hsize hpos hlimit
    rw [betweenWithin, if_pos rfl, ih hsize hpos hlimit, hcons]
  | case3 i j d source hd => rw [betweenWithin, if_neg hd]; rfl
  | case4 i j target ih =>
    rw [size_cons, Nat.one_mul] at hsize
    rw [betweenWithin, if_pos rfl, ih hsize hpos hlimit, hcons]
  | case5 i j e target he => rw [betweenWithin, if_neg he]; rfl
  | case6 i j source d target ih =>
    have hd : 0 < d := Nat.pos_of_mul_pos_right hpos
    have hle : size source ≤ limit := (Nat.le_mul_of_pos_left _ hd).trans hlimit
    rw [betweenWithin, if_pos rfl,
      ih (Nat.eq_of_mul_eq_mul_left hd hsize) (Nat.pos_of_mul_pos_left hpos) hle, hcons]
  | case7 i j source e target hne ih =>
    rw [size_cons, Nat.one_mul] at hsize hpos hlimit
    rw [betweenWithin, if_neg hne, if_pos rfl, ih hsize hpos hlimit, hcons]
  | case8 i j d source target hne hd ih =>
    rw [size_cons 1, Nat.one_mul] at hsize
    rw [betweenWithin, if_neg hne, if_neg hd, if_pos rfl, ih hsize hpos hlimit, hcons]
  | case9 i j d source e target hne hd he ih =>
    obtain ⟨m, n, hmatch⟩ := exists_matchProducts hsize hpos
    have hwithin := matchProductsWithin_eq hlimit (hsize ▸ hlimit) (Nat.pos_of_mul_pos_left hpos)
      (Nat.pos_of_mul_pos_left (hsize ▸ hpos))
    rw [betweenWithin, if_neg hne, if_neg hd, if_neg he, hwithin, hmatch]
    obtain ⟨hrest, hrestpos⟩ := size_drop_eq hmatch hsize hpos
    have hle : size (source.drop m) ≤ limit := by
      have hsplit := size_append (source.take m) (source.drop m)
      rw [take_append_drop] at hsplit
      rw [size_cons, hsplit, ← Nat.mul_assoc] at hlimit hpos
      exact (Nat.le_mul_of_pos_left _ (Nat.pos_of_mul_pos_right hpos)).trans hlimit
    simp only [Except.mapError, ok_bind]
    split
    · rfl
    · rw [ih m n hrest hrestpos hle]
      exact hcons _ _

end AxisGroup

/-! ## The correspondence -/

namespace Regrouping

variable {source target : Shape} {map : Regrouping}

theorem groups_eq_ok_iff {groups : List AxisGroup} :
    map.groups = .ok groups ↔ map.found = .ok groups := by
  unfold Regrouping.groups
  cases map.found <;> simp

/-- The axes of shapes without an empty axis are paired by the pass over both. -/
theorem found_of_pos (hmap : of source target = .ok map) (hpos : 0 < source.size) :
    map = ⟨source, target, AxisGroup.between 0 0 source target⟩ := by
  obtain ⟨n, hsource, htarget, -⟩ := sizeChecked_of_eq_ok hmap
  have hn : n ≠ 0 := by
    rw [← size_of_sizeChecked hsource]
    omega
  simp only [of, hsource, htarget, if_true, Except.ok.injEq] at hmap
  rw [← hmap, if_neg fun h => hn h.1]

/-- The axes of empty shapes are paired if only unit axes come and go. -/
theorem exists_groups_of_empty (hmap : of source target = .ok map) (hsize : source.size = 0) :
    (∃ groups, map.groups = .ok groups) ↔ source.squeeze = target.squeeze := by
  obtain ⟨n, hsource, -, hsqueeze⟩ := sizeChecked_of_eq_ok hmap
  have hn : n = 0 := (size_of_sizeChecked hsource).symm.trans hsize
  constructor
  · rintro ⟨groups, hgroups⟩
    exact hsqueeze hn groups (groups_eq_ok_iff.mp hgroups)
  · intro hones
    have honly : map.isOnesOnly := by
      rw [isOnesOnly_of hmap]
      exact differsByOnes_iff.mpr hones
    unfold isOnesOnly at honly
    split at honly
    · rename_i groups hfound
      exact ⟨groups, groups_eq_ok_iff.mpr hfound⟩
    · cases honly

/-- Two shapes correspond just if their sizes are the same word. Their axes can be grouped just if
the shapes can be cut into runs that merge, split or keep one axis each, and the groups are such a
cut in the order of the axes; otherwise axes are regrouped, which is the only reason, and no product
on the way is larger than the shapes. Empty shapes can be grouped just if they are the same apart
from unit axes, which is also when only unit axes come and go. -/
theorem groups_iff_cut (source target : Shape) :
    ((∃ map, of source target = .ok map) ↔ source.SameSize target) ∧
    ∀ map, of source target = .ok map →
      (0 < source.size →
        (∀ groups, map.groups = .ok groups →
          AxisGroup.Consecutive source.length target.length 0 0 groups ∧
          Shape.IsCut source target (groups.map fun g => (g.source source, g.target target))) ∧
        ((∃ groups, map.groups = .ok groups) ↔ ∃ runs, Shape.IsCut source target runs) ∧
        (∀ e, map.groups = .error e → e = .unsupportedReshape source target .regrouped) ∧
        AxisGroup.betweenWithin source.size 0 0 source target = map.found.mapError some) ∧
      (source.size = 0 →
        ((∃ groups, map.groups = .ok groups) ↔ source.squeeze = target.squeeze)) ∧
      (map.isOnesOnly = true ↔ source.squeeze = target.squeeze) := by
  refine ⟨exists_of_iff, fun map hmap => ⟨fun hpos => ?_, exists_groups_of_empty hmap, ?_⟩⟩
  · have hsize : source.size = target.size := (exists_of_iff.mp ⟨map, hmap⟩).size_eq
    obtain rfl := found_of_pos hmap hpos
    have hsound : ∀ groups, AxisGroup.between 0 0 source target = .ok groups →
        AxisGroup.Consecutive source.length target.length 0 0 groups ∧
        Shape.IsCut source target (groups.map fun g => (g.source source, g.target target)) := by
      intro groups hgroups
      have hgrouped := AxisGroup.grouped_of_between hgroups
      exact ⟨by simpa using hgrouped.consecutive,
        hgrouped.isCut (AxisGroup.passes_of_between hgroups).one_axis rfl rfl⟩
    simp only [groups_eq_ok_iff]
    refine ⟨hsound, ⟨?_, ?_⟩, ?_, AxisGroup.betweenWithin_eq 0 0 hsize hpos le_rfl⟩
    · rintro ⟨groups, hgroups⟩
      exact ⟨_, (hsound groups hgroups).2⟩
    · rintro ⟨runs, hcut⟩
      exact AxisGroup.exists_between 0 0 hcut.squeeze (Shape.allLong_squeeze hpos)
        (Shape.allLong_squeeze (hsize ▸ hpos))
    · intro e he
      unfold Regrouping.groups at he
      split at he
      · cases he
      · rename_i fault hfault
        cases he
        rw [AxisGroup.between_eq_error hsize hpos hfault]
  · rw [isOnesOnly_of hmap]
    exact Shape.differsByOnes_iff

/-- A unit axis goes, an axis stays, two axes are merged around a unit axis, and one is split. -/
theorem groups_merged_and_split : of [1, 4, 5, 1, 6, 8] [4, 30, 2, 4] =
      .ok ⟨[1, 4, 5, 1, 6, 8], [4, 30, 2, 4],
        AxisGroup.between 0 0 [1, 4, 5, 1, 6, 8] [4, 30, 2, 4]⟩ ∧
    Shape.IsCut [1, 4, 5, 1, 6, 8] [4, 30, 2, 4]
      [([1, 4], [4]), ([5, 1, 6], [30]), ([8], [2, 4])] ∧
    ∃ groups, AxisGroup.between 0 0 [1, 4, 5, 1, 6, 8] [4, 30, 2, 4] = .ok groups ∧
      AxisGroup.Consecutive 6 4 0 0 groups := by
  have hmap : of [1, 4, 5, 1, 6, 8] [4, 30, 2, 4] =
      .ok ⟨[1, 4, 5, 1, 6, 8], [4, 30, 2, 4],
        AxisGroup.between 0 0 [1, 4, 5, 1, 6, 8] [4, 30, 2, 4]⟩ := rfl
  have hcut : Shape.IsCut [1, 4, 5, 1, 6, 8] [4, 30, 2, 4]
      [([1, 4], [4]), ([5, 1, 6], [30]), ([8], [2, 4])] :=
    ⟨rfl, rfl, by decide, by decide⟩
  obtain ⟨hsound, hiff, -, -⟩ :=
    ((groups_iff_cut [1, 4, 5, 1, 6, 8] [4, 30, 2, 4]).2 _ hmap).1 (by decide)
  obtain ⟨groups, hgroups⟩ := hiff.mpr ⟨_, hcut⟩
  exact ⟨hmap, hcut, groups, groups_eq_ok_iff.mp hgroups, (hsound groups hgroups).1⟩

end Regrouping

end Hyperslab
