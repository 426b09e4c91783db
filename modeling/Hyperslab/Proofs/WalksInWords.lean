import Hyperslab.InWords
import Hyperslab.Proofs.Odometer

/-!
# Walks in words

A walk goes one stride beyond the end of an axis before it turns. What it meets there is no index of
an item, so it may leave the words although all items lie in a buffer. The numbers that a walk meets
are computed here from its positions, and compared with the few extreme ones of
`Geometry.walkNumbers`: a walk in words comes to its end just if these are words.
-/
namespace Hyperslab

open List Shape Word

/-! ## Lists of words -/

namespace Word

variable {z : Int} {zs : List Int}

theorem fits_iff : fits z ↔ -half ≤ z ∧ z < half := by
  simp [fits]

theorem fits_of_between {a b : Int} (ha : fits a) (hb : fits b) (haz : a ≤ z)
    (hzb : z ≤ b) : fits z := by
  rw [fits_iff] at *
  omega

theorem fits_signed (n : Nat) : fits (signed n) := by
  have hmodulus : modulus = 2 * half := by decide
  have hhalf : 0 < half := by decide
  rw [fits_iff]
  by_cases h : n < half
  · rw [signed_of_lt h]
    omega
  · rw [signed]
    have hlow := Int.le_bmod (x := n) (m := modulus) (by omega)
    have hhigh := Int.bmod_lt (x := n) (m := modulus) (by omega)
    omega

/-- All numbers of a list are signed words. -/
def AllFit (zs : List Int) : Prop := ∀ z ∈ zs, fits z = true

instance (zs : List Int) : Decidable (AllFit zs) := inferInstanceAs (Decidable (∀ z ∈ zs, _))

@[simp] theorem allFit_nil : AllFit [] := by simp [AllFit]

@[simp] theorem allFit_cons :
    AllFit (z :: zs) ↔ fits z ∧ AllFit zs := by simp [AllFit]

@[simp] theorem allFit_append {ys : List Int} : AllFit (ys ++ zs) ↔ AllFit ys ∧ AllFit zs := by
  simp [AllFit, or_imp, forall_and]

theorem allFit_flatMap {α : Type} {f : α → List Int} {l : List α} :
    AllFit (l.flatMap f) ↔ ∀ a ∈ l, AllFit (f a) := by
  simp only [AllFit, mem_flatMap]
  exact ⟨fun h a ha z hz => h z ⟨a, ha, hz⟩, fun h z ⟨a, ha, hz⟩ => h a ha z hz⟩

theorem check_eq (zs : List Int) :
    check zs = if AllFit zs then .ok () else .error (.fault .overflow) := by
  by_cases h : AllFit zs
  · rw [check, if_pos (all_eq_true.mpr h), if_pos h]
  · rw [check, if_neg fun hall => h (all_eq_true.mp hall), if_neg h]

@[simp] theorem check_eq_ok {u : Unit} : check zs = .ok u ↔ AllFit zs := by
  rw [check_eq]
  split <;> simp_all

end Word

/-! ## The numbers of a walk -/

namespace Odometer

variable {p : Position} {s : Shape}

/-- The numbers met in the next `n` visits. -/
def met : Nat → Odometer → List Int
  | 0, _ => []
  | n + 1, o => o.nextNumbers ++ o.next?.elim [] (met n)

theorem visitsInWords_eq (n : Nat) (o : Odometer) :
    o.visitsInWords n = do
      check (o.met n)
      return o.visits n := by
  induction n generalizing o with
  | zero => simp [visitsInWords, met, visits, check_eq, bind, Except.bind, pure, Except.pure]
  | succ n ih =>
    simp only [visitsInWords, met, visits, check_eq]
    cases o.next? with
    | none => by_cases h : AllFit o.nextNumbers <;> simp [bind]
    | some o' =>
      simp only [ih, check_eq]
      by_cases h : AllFit o.nextNumbers <;> by_cases h' : AllFit (o'.met n) <;>
        simp [h, h', bind, Except.bind, pure, Except.pure]

/-- From the position with number `i` on, each visit meets the numbers of a step from where it is. -/
theorem Exact.met_eq {o : Odometer} {starts : List Int} {i n : Nat} (h : o.Exact starts)
    (hn : i + n = o.shape.size) (hat : o.StandsAt i) :
    o.met n = (range' i n).flatMap fun k =>
      advanceNumbers o.shape o.strides o.shape.length (unravel k o.shape)
        (indicesAt starts o.strides (unravel k o.shape)) := by
  induction n generalizing o i with
  | zero => rfl
  | succ n ih =>
    have hi : i < o.shape.size := by omega
    have hupcoming : o.upcoming = some (unravel i o.shape) := by rw [hat, if_pos hi]
    obtain ⟨o', hnext⟩ : ∃ o', o.next? = some o' := by simp [next?, hupcoming]
    obtain ⟨hexact, hshape, hstrides, -, -⟩ := h.next hnext
    obtain ⟨-, hat'⟩ := h.standsAt_next hi hat hnext
    have hrest := ih hexact (by rw [hshape]; omega) hat'
    rw [hshape, hstrides] at hrest
    rw [met, hnext, Option.elim_some, hrest, range'_succ, flatMap_cons, nextNumbers,
      hupcoming, Option.elim_some, h.offsets_eq _ hupcoming]

theorem met_start (s : Shape) (operands : List Operand) :
    (start s operands).met s.size = s.positions.flatMap fun p =>
      advanceNumbers s (operands.map Operand.strides) s.length p
        (indicesAt (operands.map Operand.start) (operands.map Operand.strides) p) := by
  rw [positions_eq, flatMap_map, range_eq_range']
  exact (exact_start s operands).met_eq (Nat.zero_add _) (standsAt_start s operands)

/-! ## One operand -/

/-- The numbers met in a step from coordinate `k` along an axis of length `d`, at the index `o`. -/
def axisNumbers (d : Nat) (t : Int) (k : Nat) (o : Int) : List Int :=
  if k + 1 < d then [o + t] else [o + t, d * t, o + t - d * t]

/-- All of the first `axes` coordinates are at the end of their axes. -/
def AtEnd (s : Shape) (p : Position) (axes : Nat) : Prop :=
  ∀ i < axes, (s[i]?).getD 0 ≤ (p[i]?).getD 0 + 1

instance (s : Shape) (p : Position) (axes : Nat) : Decidable (AtEnd s p axes) :=
  inferInstanceAs (Decidable (∀ i < axes, _))

/-- The position with its first `axes` coordinates at 0. -/
def cleared (p : Position) (axes : Nat) : Position := List.replicate axes 0 ++ p.drop axes

theorem cleared_set {j : Nat} (hj : j < p.length) : cleared (p.set j 0) j = cleared p (j + 1) := by
  have hdrop : (p.set j 0).drop j = 0 :: p.drop (j + 1) := by
    rw [drop_eq_getElem_cons (by simpa using hj)]
    simp [drop_set]
  rw [cleared, hdrop, cleared, replicate_succ']
  simp

theorem atEnd_succ {j : Nat} :
    AtEnd s p (j + 1) ↔ (s[j]?).getD 0 ≤ (p[j]?).getD 0 + 1 ∧ AtEnd s (p.set j 0) j := by
  have hset : AtEnd s (p.set j 0) j ↔ AtEnd s p j := by
    refine forall₂_congr fun i hi => ?_
    rw [getElem?_set_ne hi.ne']
  rw [hset]
  simp only [AtEnd, Nat.forall_lt_succ_right, and_comm]

/-- A step from a position of a longer shape is a step from the rest of it, which goes on to the
first axis if all of the others turn. -/
theorem advanceNumbers_cons {d k : Nat} {t b : Int} {ts : Strides}
    {axes : Nat} (haxes : axes ≤ s.length) (hp : s.contains p) :
    advanceNumbers (d :: s) [t :: ts] (axes + 1) (k :: p) [b + ts.offset p] =
      advanceNumbers s [ts] axes p [b + ts.offset p] ++
        if AtEnd s p axes then axisNumbers d t k (b + ts.offset (cleared p axes)) else [] := by
  induction axes generalizing p with
  | zero =>
    have hend : AtEnd s p 0 := fun i hi => absurd hi (Nat.not_lt_zero i)
    rw [if_pos hend]
    simp [advanceNumbers, shift, cleared, axisNumbers, ← sub_eq_add_neg]
  | succ j ih =>
    have hlength := length_of_contains hp
    have hj : j < p.length := by omega
    have hd : s[j]? = some s[j] := getElem?_eq_getElem (by omega)
    have hlt : p[j] < s[j] := (contains_iff_forall₂.mp hp).get hj (by omega)
    rw [advanceNumbers, advanceNumbers]
    simp only [getElem?_cons_succ, set_cons_succ, hd, getElem?_eq_getElem hj,
      Option.getD_some, atEnd_succ, shift, zipWith_cons_cons, zipWith_nil_left]
    by_cases hnext : p[j] + 1 < s[j]
    · simp [if_pos hnext, Nat.not_le.mpr hnext]
    · have hback : b + ts.offset p + 1 * (ts[j]?).getD 0 + -(s[j] : Int) * (ts[j]?).getD 0 =
          b + ts.offset (p.set j 0) := by
        have hend : (s[j] : Int) = p[j] + 1 := by omega
        rw [Strides.offset_set ts p hj, hend]
        ring
      have hrest := ih (by omega) (contains_set hp hd (by omega : 0 < s[j]))
      rw [cleared_set hj] at hrest
      simp only [if_neg hnext, hback, hrest, Nat.not_lt.mp hnext, true_and, append_assoc,
        map_cons, map_nil, getElem?_cons_succ]

/-- The numbers met in a step from a position, where the first item is at `b`. -/
def stepNumbers (b : Int) (s : Shape) (ts : Strides) (p : Position) : List Int :=
  advanceNumbers s [ts] s.length p [b + ts.offset p]

theorem stepNumbers_cons {d k : Nat} {t b : Int} {ts : Strides} (hp : s.contains p) :
    stepNumbers b (d :: s) (t :: ts) (k :: p) = stepNumbers (b + k * t) s ts p ++
        if AtEnd s p s.length then axisNumbers d t k (b + k * t) else [] := by
  have horigin : cleared p s.length = s.origin := by
    rw [cleared, ← length_of_contains hp, drop_length, append_nil, origin,
      map_const', length_of_contains hp]
  rw [stepNumbers, length_cons, Strides.offset_cons, ← add_assoc,
    advanceNumbers_cons le_rfl hp, horigin, Strides.offset_origin, add_zero]
  rfl

theorem exists_atEnd (hs : 0 < s.size) : ∃ p, s.contains p ∧ AtEnd s p s.length := by
  refine ⟨s.map (· - 1), ?_, fun i hi => ?_⟩
  · induction s with
    | nil => rfl
    | cons d s ih =>
      have hd : 0 < d := Nat.pos_of_mul_pos_right hs
      exact contains_cons.mpr ⟨Nat.sub_lt hd Nat.one_pos, ih (Nat.pos_of_mul_pos_left hs)⟩
  · simp only [getElem?_map, getElem?_eq_getElem hi, Option.map_some, Option.getD_some]
    omega

end Odometer

namespace Geometry

variable {s : Shape} {ts : Strides} {low high : Int} {g : Geometry} {length : Nat}

theorem mul_between {m d : Nat} (h : m ≤ d) (t : Int) :
    min 0 ((d : Int) * t) ≤ m * t ∧ (m : Int) * t ≤ max 0 ((d : Int) * t) := by
  have hle : (m : Int) ≤ d := Int.ofNat_le.mpr h
  rcases le_total 0 t with ht | ht
  · have hnonneg : 0 ≤ (m : Int) * t := Int.mul_nonneg (Int.natCast_nonneg m) ht
    have hmono := Int.mul_le_mul_of_nonneg_right hle ht
    exact ⟨(min_le_left _ _).trans hnonneg, hmono.trans (le_max_right _ _)⟩
  · have hnonpos : (m : Int) * t ≤ 0 := mul_nonpos_of_nonneg_of_nonpos (Int.natCast_nonneg m) ht
    have hmono := Int.mul_le_mul_of_nonpos_right hle ht
    exact ⟨(min_le_right _ _).trans hmono, hnonpos.trans (le_max_left _ _)⟩

section Turns

variable {B : Int → Prop} {low high : Int} (hlow : B low) (hhigh : B high)
  (hB : ∀ b, B b → low ≤ b ∧ b ≤ high) (hfitlow : Word.fits low = true)
  (hfithigh : Word.fits high = true)
include hlow hhigh hB hfitlow hfithigh

/-- The steps along one axis meet words just if the turn does, from the least and from the greatest
index. -/
theorem allFit_axisNumbers_iff {d : Nat} (hd : 0 < d) (t : Int) :
    (∀ b, B b → ∀ k < d, Word.AllFit (Odometer.axisNumbers d t k (b + k * t))) ↔
      Word.AllFit [d * t, low + min 0 (d * t), high + max 0 (d * t)] := by
  constructor
  · intro h
    have hturn (b : Int) (hb : B b) : Word.fits (b + d * t) ∧ Word.fits (d * t) := by
      have hlast := h b hb (d - 1) (by omega)
      have hcast : ((d - 1 : Nat) : Int) = d - 1 := by omega
      rw [Odometer.axisNumbers, if_neg (by omega), hcast] at hlast
      simp only [allFit_cons] at hlast
      refine ⟨?_, hlast.2.1⟩
      have hsum : b + ((d : Int) - 1) * t + t = b + d * t := by ring
      exact hsum ▸ hlast.1
    simp only [allFit_cons, allFit_nil, and_true]
    refine ⟨(hturn low hlow).2, ?_, ?_⟩
    · rcases le_total 0 ((d : Int) * t) with ht | ht
      · rwa [min_eq_left ht, add_zero]
      · rw [min_eq_right ht]
        exact (hturn low hlow).1
    · rcases le_total 0 ((d : Int) * t) with ht | ht
      · rw [max_eq_right ht]
        exact (hturn high hhigh).1
      · rwa [max_eq_left ht, add_zero]
  · intro h b hb k hk
    simp only [allFit_cons, allFit_nil, and_true] at h
    obtain ⟨hturn, hleast, hgreatest⟩ := h
    obtain ⟨hle, hge⟩ := hB b hb
    obtain ⟨hmin, hmax⟩ := mul_between (show k + 1 ≤ d from hk) t
    have hahead : b + k * t + t = b + (k + 1 : Nat) * t := by push_cast; ring
    have hstep : Word.fits (b + k * t + t) := by
      refine fits_of_between hleast hgreatest ?_ ?_ <;> omega
    rw [Odometer.axisNumbers]
    split
    · simpa using hstep
    · have hback : b + k * t + t - d * t = b := by
        have hend : (d : Int) = k + 1 := by omega
        rw [hend]
        ring
      rw [hback]
      simp only [allFit_cons, allFit_nil, and_true]
      exact ⟨hstep, hturn, fits_of_between hfitlow hfithigh hle hge⟩

end Turns

/-- A shape is walked along its first axis, and along the others from each index that the first axis
leads to. -/
theorem allFit_stepNumbers_cons_iff {d : Nat} {t : Int} (hs : 0 < s.size) {B : Int → Prop} :
    (∀ b, B b → ∀ p, Shape.contains (d :: s) p →
        Word.AllFit (Odometer.stepNumbers b (d :: s) (t :: ts) p)) ↔
      (∀ b, B b → ∀ k < d, Word.AllFit (Odometer.axisNumbers d t k (b + k * t))) ∧
        ∀ c, (∃ b, B b ∧ ∃ k < d, b + (k : Nat) * t = c) → ∀ p, s.contains p →
          Word.AllFit (Odometer.stepNumbers c s ts p) := by
  constructor
  · intro h
    constructor
    · intro b hb k hk
      obtain ⟨p, hp, hend⟩ := Odometer.exists_atEnd hs
      have hstep := h b hb (k :: p) (contains_cons.mpr ⟨hk, hp⟩)
      rw [Odometer.stepNumbers_cons hp, if_pos hend, allFit_append] at hstep
      exact hstep.2
    · rintro _ ⟨b, hb, k, hk, rfl⟩ p hp
      have hstep := h b hb (k :: p) (contains_cons.mpr ⟨hk, hp⟩)
      rw [Odometer.stepNumbers_cons hp, allFit_append] at hstep
      exact hstep.1
  · rintro ⟨haxis, hrest⟩ b hb p hp
    obtain ⟨k, p, rfl, hk, hp⟩ := exists_of_contains_cons hp
    rw [Odometer.stepNumbers_cons hp, allFit_append]
    refine ⟨hrest _ ⟨b, hb, k, hk, rfl⟩ p hp, ?_⟩
    split
    · exact haxis b hb k hk
    · exact allFit_nil

/-- The steps from all positions meet words just if the turns do. -/
theorem allFit_stepNumbers_iff (hs : 0 < s.size) (hlength : ts.length = s.length) {B : Int → Prop}
    (hlow : B low) (hhigh : B high) (hB : ∀ b, B b → low ≤ b ∧ b ≤ high) (hfitlow : Word.fits low)
    (hfithigh : Word.fits high) :
    (∀ b, B b → ∀ p, s.contains p → Word.AllFit (Odometer.stepNumbers b s ts p)) ↔
      Word.AllFit (turns low high s ts) := by
  induction s generalizing ts B low high with
  | nil =>
    simp [Odometer.stepNumbers, Odometer.advanceNumbers, turns]
  | cons d s ih =>
    obtain ⟨t, ts, rfl⟩ := List.exists_cons_of_length_eq_add_one hlength
    have hd : 0 < d := Nat.pos_of_mul_pos_right hs
    have hs : 0 < Shape.size s := Nat.pos_of_mul_pos_left hs
    have hend : d - 1 < d := Nat.sub_lt hd Nat.one_pos
    have hlast : (d : Int) * t - t = (d - 1 : Nat) * t := by
      rw [Nat.cast_sub hd]
      ring
    rw [allFit_stepNumbers_cons_iff hs,
      allFit_axisNumbers_iff hlow hhigh hB hfitlow hfithigh hd, turns, allFit_append, hlast]
    refine and_congr_right fun hturn => ?_
    simp only [allFit_cons, allFit_nil, and_true] at hturn
    obtain ⟨hmin, hmax⟩ := mul_between (Nat.sub_le d 1) t
    -- The indices that this axis leads to have ends of their own, which are words.
    refine ih hs (by simpa using hlength) ?_ ?_ ?_ ?_ ?_
    · rcases le_total 0 (((d - 1 : Nat) : Int) * t) with ht | ht
      · exact ⟨low, hlow, 0, hd, by rw [min_eq_left ht]; simp⟩
      · exact ⟨low, hlow, d - 1, hend, by rw [min_eq_right ht]⟩
    · rcases le_total 0 (((d - 1 : Nat) : Int) * t) with ht | ht
      · exact ⟨high, hhigh, d - 1, hend, by rw [max_eq_right ht]⟩
      · exact ⟨high, hhigh, 0, hd, by rw [max_eq_left ht]; simp⟩
    · rintro _ ⟨b, hb, k, hk, rfl⟩
      obtain ⟨hle, hge⟩ := hB b hb
      obtain ⟨hleast, hgreatest⟩ := mul_between (Nat.le_sub_one_of_lt hk) t
      omega
    · exact fits_of_between hturn.2.1 hfitlow (by omega) (by omega)
    · exact fits_of_between hfithigh hturn.2.2 (by omega) (by omega)

theorem allFit_steps_iff_turns {first : Int} (hfit : Word.fits first)
    (hlength : ts.length = s.length) :
    (∀ p, s.contains p → AllFit (Odometer.stepNumbers first s ts p)) ↔
      (0 < s.size → AllFit (turns first first s ts)) := by
  rcases Nat.eq_zero_or_pos s.size with hs | hs
  · exact iff_of_true (fun p hp => absurd (size_pos_of_contains hp) hs.not_gt)
      fun h => absurd h hs.not_gt
  · rw [← allFit_stepNumbers_iff (B := (· = first)) hs hlength rfl rfl
      (fun b hb => ⟨hb.ge, hb.le⟩) hfit hfit]
    simp only [forall_eq, hs, true_implies]

/-- The steps from all positions of a view meet words just if its extreme numbers are words. -/
theorem allFit_steps_iff (hlength : g.strides.length = g.shape.length) :
    (∀ p, g.shape.contains p →
      AllFit (Odometer.stepNumbers (signed g.offset) g.shape g.strides p)) ↔
        AllFit g.walkNumbers := by
  rw [allFit_steps_iff_turns (fits_signed g.offset) hlength, walkNumbers]
  split
  · rename_i hs
    simp [hs]
  · rename_i hs
    simp only [Nat.pos_of_ne_zero hs, true_implies]

/-- **A walk in words comes to its end just if its extreme numbers are words**, and then makes the
visits of the walk over exact integers. -/
theorem toListInWords_walk (hlength : g.strides.length = g.shape.length) :
    g.walk.toListInWords = do
      check g.walkNumbers
      return g.walk.toList := by
  have hmet : AllFit (g.walk.met g.shape.size) ↔ AllFit g.walkNumbers := by
    rw [walk, Odometer.met_start, ← allFit_steps_iff hlength, allFit_flatMap]
    simp only [mem_positions]
    rfl
  change g.walk.visitsInWords g.shape.size = _
  rw [Odometer.visitsInWords_eq, check_eq, check_eq, if_congr hmet rfl rfl]
  rfl

/-- Where the turns of a walk are words, so are the strides. -/
theorem allFit_of_turns (hs : 0 < s.size) (hlength : ts.length = s.length)
    (h : AllFit (turns low high s ts)) : AllFit ts := by
  induction s generalizing ts low high with
  | nil =>
    rw [eq_nil_of_length_eq_zero hlength]
    exact allFit_nil
  | cons d s ih =>
    obtain ⟨t, ts, rfl⟩ := exists_cons_of_length_eq_add_one hlength
    have hd : 0 < d := Nat.pos_of_mul_pos_right hs
    rw [turns, allFit_append, allFit_cons, fits_iff] at h
    obtain ⟨⟨hturn, -⟩, hrest⟩ := h
    obtain ⟨hleast, hgreatest⟩ := mul_between (Nat.one_le_iff_ne_zero.mpr hd.ne') t
    rw [allFit_cons, fits_iff]
    exact ⟨by omega, ih (Nat.pos_of_mul_pos_left hs) (by simpa using hlength) hrest⟩

theorem allFit_strides_of_walkNumbers (hs : 0 < g.shape.size)
    (hlength : g.strides.length = g.shape.length) (h : AllFit g.walkNumbers) :
    AllFit g.strides := by
  rw [walkNumbers, if_neg hs.ne'] at h
  exact allFit_of_turns hs hlength h

/-! ## Inside a buffer -/

/-- From one item to another along an axis it is not further than the buffer is long. -/
theorem Inside.abs_move_lt {i n j k : Nat} {t : Int} (h : g.Inside length) (hpos : 0 < g.shape.size)
    (hn : (g.shape : List Nat)[i]? = some n) (ht : (g.strides : List Int)[i]? = some t) (hj : j < n)
    (hk : k < n) : |(k - j : Int) * t| < length := by
  have horigin : g.shape.contains g.shape.origin := contains_origin hpos
  have hi : i < g.shape.origin.length := by
    rw [length_of_contains horigin]
    exact (List.getElem?_eq_some_iff.mp hn).1
  have hfirst := h.place_inside _ (contains_set horigin hn hj)
  have hnext := h.place_inside _ (contains_set horigin hn hk)
  have hzero : g.shape.origin[i] = 0 := by simp [origin]
  have hitem := h.itemSize_pos
  simp only [place, Strides.offset_set _ _ hi, hzero, ht, Option.getD_some, Nat.cast_zero,
    Int.sub_zero] at hfirst hnext
  rw [abs_lt, Int.sub_mul]
  omega

theorem Inside.abs_stride_lt {i n : Nat} {t : Int}
    (h : g.Inside length) (hpos : 0 < g.shape.size) (hn : (g.shape : List Nat)[i]? = some n)
    (ht : (g.strides : List Int)[i]? = some t) (hmore : 1 < n) : |t| < length := by
  simpa using h.abs_move_lt hpos hn ht (j := 0) (by omega) hmore

/-- From where all items are inside a buffer that takes up no more than half of the words, turns
stay in the words, if the strides of unit axes do not lead out of them. -/
theorem allFit_turns (hs : 0 < s.size) (hlength : ts.length = s.length) (hle : low ≤ high)
    (hlow : ∀ p, s.contains p → 0 ≤ low + ts.offset p)
    (hhigh : ∀ p, s.contains p → high + ts.offset p < length) (hroom : 2 * length ≤ half)
    (hunit : ∀ x ∈ zip s ts, x.1 = 1 → |x.2| + length ≤ half) : AllFit (turns low high s ts) := by
  induction s generalizing ts low high with
  | nil => simp [turns]
  | cons d s ih =>
    obtain ⟨t, ts, rfl⟩ := exists_cons_of_length_eq_add_one hlength
    have hd : 0 < d := Nat.pos_of_mul_pos_right hs
    have hs : 0 < size s := Nat.pos_of_mul_pos_left hs
    have hend : d - 1 < d := Nat.sub_lt hd Nat.one_pos
    have hturn : (d : Int) * t = (d - 1 : Nat) * t + t := by
      rw [Nat.cast_sub hd]
      ring
    have hstart (k : Nat) (hk : k < d) (p : Position) (hp : Shape.contains s p) :
        0 ≤ low + k * t + Strides.offset ts p ∧ high + k * t + Strides.offset ts p < length := by
      have hcontains := contains_cons.mpr ⟨hk, hp⟩
      have hlow := hlow _ hcontains
      have hhigh := hhigh _ hcontains
      rw [Strides.offset_cons] at hlow hhigh
      omega
    have horigin (k : Nat) (hk : k < d) : 0 ≤ low + k * t ∧ high + k * t < length := by
      simpa using hstart k hk _ (contains_origin hs)
    -- The stride is no longer than the axis, or belongs to a unit axis.
    have hstride : min 0 (((d - 1 : Nat) : Int) * t) ≤ t ∧ t ≤ max 0 (((d - 1 : Nat) : Int) * t) ∨
        d = 1 ∧ -(half - length : Int) ≤ t ∧ t ≤ half - length := by
      rcases (show 1 ≤ d - 1 ∨ d = 1 by omega) with hlong | rfl
      · left
        simpa using mul_between hlong t
      · right
        have hunit : |t| + length ≤ half := hunit (1, t) (by simp) rfl
        exact ⟨rfl, abs_le.mp (by omega)⟩
    have hfirst := horigin 0 hd
    have hlast := horigin (d - 1) hend
    rw [turns, allFit_append, hturn]
    constructor
    · simp only [allFit_cons, allFit_nil, and_true, fits_iff]
      rcases hstride with hstride | ⟨rfl, hstride⟩
      · omega
      · omega
    · refine ih hs (by simpa using hlength) (by omega) (fun p hp => ?_) (fun p hp => ?_)
        fun x hx => hunit x (mem_cons_of_mem _ hx)
      · have hfirst := hstart 0 hd p hp
        have hlast := hstart (d - 1) hend p hp
        omega
      · have hfirst := hstart 0 hd p hp
        have hlast := hstart (d - 1) hend p hp
        omega

/-- A walk of items inside a buffer that takes up no more than half of the words stays in the words,
if the strides of unit axes do not lead out of them. -/
theorem Inside.allFit_walkNumbers (h : g.Inside length) (hroom : 2 * length ≤ half)
    (hunit : ∀ x ∈ zip g.shape g.strides, x.1 = 1 → |x.2| + length ≤ half) :
    AllFit g.walkNumbers := by
  rw [walkNumbers]
  split
  · exact allFit_nil
  · rename_i hs
    have hs : 0 < g.shape.size := Nat.pos_of_ne_zero hs
    rw [signed_of_lt (h.offset_lt hs)]
    refine allFit_turns hs h.length_strides le_rfl (fun p hp => (h.place_inside p hp).1)
      (fun p hp => ?_) hroom hunit
    have hplace := (h.place_inside p hp).2
    have := h.itemSize_pos
    rw [place] at hplace
    omega

theorem allFit_turns_strides {itemSize : Nat} (hk : 0 < itemSize) (hs : 0 < s.size) (hlow : 0 ≤ low)
    (hle : low ≤ high) (hhigh : high + (s.size * itemSize : Nat) < half) :
    AllFit (turns low high s (s.strides itemSize)) := by
  induction s generalizing low high with
  | nil => simp [turns]
  | cons d s ih =>
    have hd : 0 < d := Nat.pos_of_mul_pos_right hs
    have hs : 0 < size s := Nat.pos_of_mul_pos_left hs
    have hsize : (size (d :: s) * itemSize : Nat) = d * (size s * itemSize) := by
      rw [size_cons, Nat.mul_assoc]
    have hpart : size s * itemSize ≤ d * (size s * itemSize) := Nat.le_mul_of_pos_left _ hd
    have hextent : extent itemSize s = (size s * itemSize : Nat) := extent_eq hk hs (by omega)
    have hturn : (d : Int) * extent itemSize s = (d * (size s * itemSize) : Nat) := by
      rw [hextent, Nat.cast_mul d]
    rw [Shape.strides, turns, allFit_append, hturn]
    constructor
    · simp only [allFit_cons, allFit_nil, and_true, fits_iff]
      omega
    · exact ih hs (by omega) (by omega) (by omega)

end Geometry

theorem Shape.stridesFit_of_pos {s : Shape} {itemSize : Nat} (hk : 0 < itemSize) (hs : 0 < s.size)
    (h : s.size * itemSize < half) : s.stridesFit itemSize := by
  have hfits {s : Shape} (hs : 0 < s.size) (h : s.size * itemSize < half) :
      fits (s.extent itemSize) := by
    rw [extent_eq hk hs h, fits_iff]
    omega
  induction s with
  | nil => exact hfits hs h
  | cons d s ih =>
    have hpart : size s * itemSize ≤ size (d :: s) * itemSize :=
      Nat.mul_le_mul_right _ (Nat.le_mul_of_pos_left _ (Nat.pos_of_mul_pos_right hs))
    rw [stridesFit, Bool.and_eq_true]
    exact ⟨hfits hs h, ih (Nat.pos_of_mul_pos_left hs) (hpart.trans_lt h)⟩

end Hyperslab
