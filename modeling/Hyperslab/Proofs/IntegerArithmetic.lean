import Hyperslab.Proofs.BroadcastArithmetic
import Hyperslab.Proofs.Growth
import Mathlib.Data.Int.ModEq

/-!
# Integer arithmetic wraps around

Integers of any kind are read as signed 64-bit words, the operation runs on words, and its result is
reduced to the kind of the output. Each of these steps keeps an integer modulo the width of the
output, which is at most 64, so the whole of it does. A kind has one integer for each remainder:
what is known modulo the width is known.

Sums, differences and products are so the exact ones, reduced. Quotients and remainders are not, as
an operand of the largest kind may be read with the other sign; but quotient times divisor plus
remainder always is the dividend.
-/
namespace Hyperslab

open Dataset Shape Word

/-! ## Integers of a kind -/

theorem Width.two_pow_bits_dvd (w : Width) : (2 : Int) ^ w.bits ∣ modulus := by
  cases w <;> decide

namespace Kind

variable {isSigned : Bool} {w : Width} {x y : Int}

theorem wrap_modEq (isSigned : Bool) (w : Width) (z : Int) :
    wrap isSigned w z ≡ z [ZMOD 2 ^ w.bits] := by
  have hpow : ((Nat.pow 2 w.bits : Nat) : Int) = 2 ^ w.bits := by cases w <;> rfl
  unfold wrap
  split
  · rw [Int.ModEq, ← hpow, Int.bmod_emod]
  · exact Int.mod_modEq z _

theorem holds_wrap (isSigned : Bool) (w : Width) (z : Int) :
    (int isSigned w).Holds (.int (wrap isSigned w z)) := by
  cases isSigned <;> cases w <;> simp [Holds, lower, upper, wrap, Width.bits, Int.bmod] <;> omega

theorem eq_of_modEq (hx : (int isSigned w).Holds (.int x)) (hy : (int isSigned w).Holds (.int y))
    (h : x ≡ y [ZMOD 2 ^ w.bits]) : x = y := by
  cases isSigned <;> cases w <;>
    simp [Holds, lower, upper, Width.bits, Int.ModEq] at hx hy h <;> omega

theorem Holds.eq_int {v : Scalar} (h : (int isSigned w).Holds v) : ∃ z, v = .int z := by
  cases v with
  | int z => exact ⟨z, rfl⟩
  | bool | single | double => exact h.elim

end Kind

namespace Scalar

theorem toInt_modEq (z : Int) : (int z).toInt ≡ z [ZMOD modulus] := Int.bmod_emod

theorem toInt_ne_zero {isSigned : Bool} {w : Width} {z : Int}
    (h : (Kind.int isSigned w).Holds (.int z)) (hz : z ≠ 0) : (int z).toInt ≠ 0 := by
  cases isSigned <;> cases w <;>
    simp [Kind.Holds, Kind.lower, Kind.upper, Width.bits, toInt, Int.bmod, modulus] at h ⊢ <;>
    omega

end Scalar

/-! ## Operations on words -/

namespace BinaryOp

variable {op : BinaryOp} {f : Int → Int → Int} {isSigned : Bool} {w : Width} {m x x' y y' z : Int}

theorem word_modEq (z : Int) : word z ≡ z [ZMOD modulus] := Int.bmod_emod

/-- The operation on exact integers, for those that give an integer for any two of them. -/
def exactly : BinaryOp → Option (Int → Int → Int)
  | add => some fun x y => x + y
  | subtract => some fun x y => x - y
  | multiply => some fun x y => x * y
  | divide | remainder | power => none

theorem exactly_congr (h : op.exactly = some f) (hx : x ≡ x' [ZMOD m]) (hy : y ≡ y' [ZMOD m]) :
    f x y ≡ f x' y' [ZMOD m] := by
  cases op <;> cases h
  · exact hx.add hy
  · exact hx.sub hy
  · exact hx.mul hy

theorem onInts_modEq (h : op.exactly = some f) (hz : op.onInts x y = .ok z) :
    z ≡ f x y [ZMOD modulus] := by
  cases op <;> cases h <;> cases hz <;> exact word_modEq _

theorem apply_int {v : Scalar} : op.apply false (.int isSigned w) (.int x) (.int y) = .ok v ↔
    ∃ z, op.onInts (Scalar.int x).toInt (Scalar.int y).toInt = .ok z ∧
      v = .int (Kind.wrap isSigned w z) := by
  simp only [apply, Bool.false_eq_true, if_false, bind_eq_ok, pure_eq_ok]
  exact exists_congr fun z => and_congr_right fun _ => eq_comm

/-- **A sum, difference or product is the exact one modulo the width of the output**, whatever the
kinds of the operands are. -/
theorem modEq_of_apply (h : op.exactly = some f)
    (hz : op.apply false (.int isSigned w) (.int x) (.int y) = .ok (.int z)) :
    z ≡ f x y [ZMOD 2 ^ w.bits] := by
  obtain ⟨u, hu, hwrap⟩ := apply_int.mp hz
  obtain rfl := Scalar.int.inj hwrap
  calc
    Kind.wrap isSigned w u ≡ u [ZMOD 2 ^ w.bits] := Kind.wrap_modEq isSigned w u
    _ ≡ f (Scalar.int x).toInt (Scalar.int y).toInt [ZMOD 2 ^ w.bits] :=
      (onInts_modEq h hu).of_dvd w.two_pow_bits_dvd
    _ ≡ f x y [ZMOD 2 ^ w.bits] := (exactly_congr h (Scalar.toInt_modEq x)
      (Scalar.toInt_modEq y)).of_dvd w.two_pow_bits_dvd

theorem holds_of_apply {v : Scalar}
    (h : op.apply false (.int isSigned w) (.int x) (.int y) = .ok v) :
    (Kind.int isSigned w).Holds v := by
  obtain ⟨u, -, rfl⟩ := apply_int.mp h
  exact Kind.holds_wrap isSigned w u

/-- Quotient and remainder of words, where the quotient may have wrapped around. -/
theorem onInts_recombined {q r : Int} (hq : divide.onInts x y = .ok q)
    (hr : remainder.onInts x y = .ok r) : q * y + r ≡ x [ZMOD modulus] := by
  simp only [onInts] at hq hr
  split at hq
  · cases hq
  rename_i hzero
  rw [if_neg hzero] at hr
  cases hq
  cases hr
  calc
    word (x.tdiv y) * y + word (x.tmod y) ≡ x.tdiv y * y + x.tmod y [ZMOD modulus] :=
      ((word_modEq _).mul_right y).add (word_modEq _)
    _ = x := Int.tdiv_mul_add_tmod x y

/-- **Quotient times divisor plus remainder is the dividend**, if it is of the kind of the output.
-/
theorem eq_of_recombined {q r product total : Int} (hx : (Kind.int isSigned w).Holds (.int x))
    (hq : divide.apply false (.int isSigned w) (.int x) (.int y) = .ok (.int q))
    (hr : remainder.apply false (.int isSigned w) (.int x) (.int y) = .ok (.int r))
    (hproduct : multiply.apply false (.int isSigned w) (.int q) (.int y) = .ok (.int product))
    (htotal : add.apply false (.int isSigned w) (.int product) (.int r) = .ok (.int total)) :
    total = x := by
  refine Kind.eq_of_modEq (holds_of_apply htotal) hx ?_
  obtain ⟨u, hu, hwrap⟩ := apply_int.mp hq
  obtain ⟨v, hv, hwrap'⟩ := apply_int.mp hr
  obtain rfl := Scalar.int.inj hwrap
  obtain rfl := Scalar.int.inj hwrap'
  have hdvd := w.two_pow_bits_dvd
  have hdivisor : y ≡ (Scalar.int y).toInt [ZMOD 2 ^ w.bits] :=
    ((Scalar.toInt_modEq y).of_dvd hdvd).symm
  calc
    total ≡ product + Kind.wrap isSigned w v [ZMOD 2 ^ w.bits] := modEq_of_apply rfl htotal
    _ ≡ Kind.wrap isSigned w u * y + Kind.wrap isSigned w v [ZMOD 2 ^ w.bits] :=
      (modEq_of_apply rfl hproduct).add_right _
    _ ≡ u * (Scalar.int y).toInt + v [ZMOD 2 ^ w.bits] :=
      ((Kind.wrap_modEq isSigned w u).mul hdivisor).add (Kind.wrap_modEq isSigned w v)
    _ ≡ (Scalar.int x).toInt [ZMOD 2 ^ w.bits] := (onInts_recombined hu hv).of_dvd hdvd
    _ ≡ x [ZMOD 2 ^ w.bits] := (Scalar.toInt_modEq x).of_dvd hdvd

end BinaryOp

/-! ## Elements of operands and results -/

/-- The element that a dataset has as an operand, at the place `k` of the item at `p`. An axis of
length 1 and an item of one element stand for all. -/
def Store.element (s : Store) (h : Handle) (p : Position) (k : Nat) : Option Scalar :=
  ((s.read h).item (h.shape.project p))[if 1 < h.itemSize then k else 0]?

theorem Store.element_self {s : Store} {h : Handle} {p : Position} {k : Nat}
    (hp : h.shape.contains p) (hk : k < h.itemSize) :
    s.element h p k = ((s.read h).item p)[k]? := by
  have hplace : (if 1 < h.itemSize then k else 0) = k := by split <;> omega
  rw [element, project_self hp, hplace]

namespace Handle

variable {a b h q r : Handle} {s s' : Store} {op : BinaryOp} {out : Kind} {t : Shape} {n : Nat}
  {isSigned sa sb : Bool} {w wa wb : Width}

/-- A dataset of a store whose elements are integers of its kind. -/
structure Integers (h : Handle) (s : Store) (isSigned : Bool) (w : Width) : Prop where
  held : h.Held s
  kind_eq : h.kind = .int isSigned w
  holds : ∀ p, h.shape.contains p = true →
    ∀ v ∈ (s.read h).item p, (Kind.int isSigned w).Holds v

theorem integers_iff : h.Integers s isSigned w ↔ h.Held s ∧ h.kind = .int isSigned w ∧
    ∀ p ∈ h.shape.positions, ∀ v ∈ (s.read h).item p, (Kind.int isSigned w).Holds v :=
  ⟨fun hh => ⟨hh.held, hh.kind_eq, fun p hp => hh.holds p (mem_positions.mp hp)⟩,
    fun hh => ⟨hh.1, hh.2.1, fun p hp => hh.2.2 p (mem_positions.mpr hp)⟩⟩

instance (h : Handle) (s : Store) (isSigned : Bool) (w : Width) :
    Decidable (h.Integers s isSigned w) := decidable_of_iff _ integers_iff.symm

/-- At every place of a result, it and its operands have integers, which `R` relates. -/
def Relates (a b : Handle) (s : Store) (r : Handle) (s' : Store) (R : Int → Int → Int → Prop) :
    Prop :=
  ∀ p, r.shape.contains p = true → ∀ k < r.itemSize, ∃ x y z,
    s.element a p k = some (.int x) ∧ s.element b p k = some (.int y) ∧
      ((s'.read r).item p)[k]? = some (.int z) ∧ R x y z

theorem Relates.mono {R R' : Int → Int → Int → Prop} (h : a.Relates b s r s' R)
    (hR : ∀ x y z, R x y z → R' x y z) : a.Relates b s r s' R' := by
  intro p hp k hk
  obtain ⟨x, y, z, hx, hy, hz, hrel⟩ := h p hp k hk
  exact ⟨x, y, z, hx, hy, hz, hR x y z hrel⟩

theorem Integers.holds_element (hh : h.Integers s isSigned w) {p : Position} {k : Nat} {v : Scalar}
    (hp : h.shape.contains (h.shape.project p)) (hv : s.element h p k = some v) :
    (Kind.int isSigned w).Holds v := hh.holds _ hp _ (List.mem_of_getElem? hv)

theorem Integers.exists_element (hh : h.Integers s isSigned w) {p : Position} {k : Nat}
    (hp : h.shape.contains (h.shape.project p)) (hk : h.itemSize = 1 ∨ k < h.itemSize) :
    ∃ z, s.element h p k = some (.int z) ∧ (s.read h).operand p k = .int z ∧
      (Kind.int isSigned w).Holds (.int z) := by
  have hsound : (s.read h).Sound := hh.held.sound
  have helement : s.element h p k = some ((s.read h).operand p k) := hsound.getElem?_item p hk
  have hholds := hh.holds_element hp helement
  obtain ⟨z, hz⟩ := hholds.eq_int
  exact ⟨z, hz ▸ helement, hz, hz ▸ hholds⟩

theorem Integers.defined (hb : b.Integers s sb wb) (hpairs : (s.read a).Pairs (s.read b) t n)
    (hop : op = .divide ∨ op = .remainder →
      ∀ p, b.shape.contains p → ∀ v ∈ (s.read b).item p, v ≠ .int 0) :
    Defined op out (s.read a) (s.read b) t := by
  intro p hp k hk _ hdivides
  have hsound : (s.read b).Sound := hb.held.sound
  have hproject : b.shape.contains (b.shape.project p) :=
    (hpairs.stretches.2.shows hsound.inside.length_strides).contains p hp
  have hpos : 0 < b.itemSize := hb.held.sound.inside.itemSize_pos
  have hitem : a.itemSize = b.itemSize ∨ a.itemSize = 1 ∨ b.itemSize = 1 := hpairs.itemSize
  have hplace : k < max a.itemSize b.itemSize := hk
  obtain ⟨z, helement, hoperand, hholds⟩ := hb.exists_element (k := k) hproject (by omega)
  rw [hoperand]
  refine Scalar.toInt_ne_zero hholds fun hzero => ?_
  exact hop hdivides _ hproject _ (List.mem_of_getElem? helement) (hzero ▸ rfl)

section Pairs

variable (ha : a.Integers s sa wa) (hb : b.Integers s sb wb)
include ha hb

theorem Integers.inDoubles_eq (op : BinaryOp) (isSigned : Bool) (w : Width) :
    op.inDoubles (.int isSigned w) (s.read a).kind (s.read b).kind = false := by
  have hka : (s.read a).kind = .int sa wa := ha.kind_eq
  have hkb : (s.read b).kind = .int sb wb := hb.kind_eq
  simp [BinaryOp.inDoubles, hka, hkb, Kind.isFloat]

/-- **The result of an operation on integers** holds integers of the kind that is asked for, each of
them that of the operation on the elements of the operands. -/
theorem Integers.of_run_binary (hrun : (binary op (.int isSigned w) a b).run s = (.ok r, s')) :
    r.Integers s' isSigned w ∧ (s.read a).Pairs (s.read b) r.shape r.itemSize ∧
      a.Relates b s r s' fun x y z => a.kind.Holds (.int x) ∧ b.kind.Holds (.int y) ∧
        op.apply false (.int isSigned w) (.int x) (.int y) = .ok (.int z) := by
  have hown : (s.read a).Sound := ha.held.sound
  have hother : (s.read b).Sound := hb.held.sound
  obtain ⟨t, n, hpairs, ⟨m, hm⟩, hdefined, hadopt⟩ := (ha.held.run_binary_iff hb.held).mp hrun
  obtain ⟨hsound, hitems⟩ := hown.ofItems_pairItem op hpairs hm
  obtain ⟨d, hd⟩ : ∃ d, d = ofItems (.int isSigned w) "" t n
      (pairItem op (.int isSigned w) (s.read a) (s.read b)) := ⟨_, rfl⟩
  rw [← hd] at hadopt hsound hitems
  obtain rfl : r = (s.adopt d).1 := congrArg Prod.fst hadopt
  obtain rfl : s' = (s.adopt d).2 := congrArg Prod.snd hadopt
  have hshape : d.shape = t := hd ▸ rfl
  have hsize : d.itemSize = n := hd ▸ rfl
  have hkind : d.kind = .int isSigned w := hd ▸ rfl
  subst hshape hsize
  have hrelates : a.Relates b s (s.adopt d).1 (s.adopt d).2 fun x y z =>
      a.kind.Holds (.int x) ∧ b.kind.Holds (.int y) ∧
        op.apply false (.int isSigned w) (.int x) (.int y) = .ok (.int z) := by
    intro p hp k hk
    obtain ⟨u, v, c, hu, hv, happly, hc⟩ := hown.exists_apply hother hpairs hdefined hp hk
    have hprojectA := (hpairs.stretches.1.shows hown.inside.length_strides).contains p hp
    have hprojectB := (hpairs.stretches.2.shows hother.inside.length_strides).contains p hp
    have hholdsA := ha.holds_element hprojectA hu
    have hholdsB := hb.holds_element hprojectB hv
    obtain ⟨x, rfl⟩ := hholdsA.eq_int
    obtain ⟨y, rfl⟩ := hholdsB.eq_int
    rw [ha.inDoubles_eq hb] at happly
    obtain ⟨z, rfl⟩ := (BinaryOp.holds_of_apply happly).eq_int
    rw [ha.kind_eq, hb.kind_eq]
    refine ⟨x, y, z, hu, hv, ?_, hholdsA, hholdsB, happly⟩
    rw [Store.read_adopt, hitems p hp]
    exact hc
  refine ⟨⟨held_adopt hsound s, hkind, fun p hp v hv => ?_⟩, hpairs, hrelates⟩
  obtain ⟨k, hk⟩ := List.mem_iff_getElem?.mp hv
  have hlt : k < d.itemSize := by
    obtain ⟨hlt, -⟩ := List.getElem?_eq_some_iff.mp hk
    rwa [length_item] at hlt
  obtain ⟨x, y, z, -, -, hz, -, -, happly⟩ := hrelates p hp k hlt
  obtain rfl : v = .int z := Option.some.inj (hk.symm.trans hz)
  exact BinaryOp.holds_of_apply happly

end Pairs

/-! ## When there are results -/

section Exists

variable (ha : a.Held s) (hb : b.Held s)
include ha hb

theorem Held.exists_binary_iff : (∃ r s', (binary op out a b).run s = (.ok r, s')) ↔
    ∃ t n, (s.read a).Pairs (s.read b) t n ∧ (∃ m, reserve out t n = .ok m) ∧
      Defined op out (s.read a) (s.read b) t := by
  simp only [ha.run_binary_iff hb]
  constructor
  · rintro ⟨_, _, t, n, hpairs, hm, hdefined, -⟩
    exact ⟨t, n, hpairs, hm, hdefined⟩
  · rintro ⟨t, n, hpairs, hm, hdefined⟩
    exact ⟨_, _, t, n, hpairs, hm, hdefined, rfl⟩

theorem Held.exists_binaryInWords_iff :
    (∃ r s', (binaryInWords op out a b).run s = (.ok r, s')) ↔
      ∃ t n, (s.read a).Pairs (s.read b) t n ∧ (∃ m, reserve out t n = .ok m) ∧
        Defined op out (s.read a) (s.read b) t ∧ a.PairsInWords b s t ∧ t.stridesFit n := by
  simp only [ha.run_binaryInWords_iff hb, ha.run_binary_iff hb]
  constructor
  · rintro ⟨_, _, ⟨t, n, hpairs, hm, hdefined, hadopt⟩, hwords, hfit⟩
    obtain ⟨rfl, -⟩ := Prod.mk.inj hadopt
    exact ⟨t, n, hpairs, hm, hdefined, hwords, hfit⟩
  · rintro ⟨t, n, hpairs, hm, hdefined, hwords, hfit⟩
    exact ⟨_, _, ⟨t, n, hpairs, hm, hdefined, rfl⟩, hwords, hfit⟩

end Exists

/-- Integers that pair have all results but quotients and remainders, if there is room for them. -/
theorem Integers.exists_binary_iff (ha : a.Integers s sa wa) (hb : b.Integers s sb wb)
    (hop : ¬ (op = .divide ∨ op = .remainder)) :
    (∃ r s', (binary op out a b).run s = (.ok r, s')) ↔
      ∃ t n, (s.read a).Pairs (s.read b) t n ∧ ∃ m, reserve out t n = .ok m := by
  rw [ha.held.exists_binary_iff hb.held]
  constructor
  · rintro ⟨t, n, hpairs, hm, -⟩
    exact ⟨t, n, hpairs, hm⟩
  · rintro ⟨t, n, hpairs, hm⟩
    exact ⟨t, n, hpairs, hm, hb.defined hpairs fun h => absurd h hop⟩

/-! ## One result after another -/

theorem Held.adopt (hh : h.Held s) (d : Block) :
    h.Held (s.adopt d).2 ∧ (s.adopt d).2.read h = s.read h := by
  have hbuffer : (s.adopt d).2.buffer h.buffer = s.buffer h.buffer :=
    Store.buffer_push hh.buffer_lt d.buffer
  refine ⟨hh.push d.buffer, ?_⟩
  rw [Store.read, hbuffer]
  rfl

/-- The dataset `r` is the result of an operation on integers: it is packed into a buffer of its
own, and leaves all that there was. -/
structure Result (op : BinaryOp) (a b : Handle) (s : Store) (isSigned : Bool) (w : Width)
    (r : Handle) (s' : Store) : Prop where
  integers : r.Integers s' isSigned w
  pairs : (s.read a).Pairs (s.read b) r.shape r.itemSize
  relates : a.Relates b s r s' fun x y z => a.kind.Holds (.int x) ∧ b.kind.Holds (.int y) ∧
    op.apply false (.int isSigned w) (.int x) (.int y) = .ok (.int z)
  layout_eq : r.layout = .dense
  held : ∀ h : Handle, h.Held s → h.Held s' ∧ s'.read h = s.read h ∧ h.sharesBuffer r = false

theorem Integers.result (ha : a.Integers s sa wa) (hb : b.Integers s sb wb)
    (hrun : (binaryInWords op (.int isSigned w) a b).run s = (.ok r, s')) :
    Result op a b s isSigned w r s' := by
  have hexact := ((ha.held.run_binaryInWords_iff hb.held).mp hrun).1
  obtain ⟨hints, hpairs, hrelates⟩ := ha.of_run_binary hb hexact
  obtain ⟨t, n, -, -, -, hadopt⟩ := (ha.held.run_binary_iff hb.held).mp hexact
  obtain ⟨rfl, rfl⟩ := Prod.mk.inj hadopt
  refine ⟨hints, hpairs, hrelates, rfl, fun h hh => ⟨(hh.adopt _).1, (hh.adopt _).2, ?_⟩⟩
  exact beq_eq_false_iff_ne.mpr hh.buffer_lt.ne

section Result

variable (hr : Result op a b s isSigned w r s')
include hr

theorem Result.keeps {signed : Bool} {width : Width} (hh : h.Integers s signed width) :
    h.Integers s' signed width := by
  obtain ⟨hheld, hread, -⟩ := hr.held h hh.held
  exact ⟨hheld, hh.kind_eq, hread ▸ hh.holds⟩

theorem Result.element_eq (hh : h.Held s) (p : Position) (k : Nat) :
    s'.element h p k = s.element h p k := by
  rw [Store.element, (hr.held h hh).2.1]
  rfl

end Result

end Handle

namespace Dataset

variable {a b d e : Block} {t u : Shape} {m n : Nat}

theorem Pairs.unique (h : a.Pairs b t n) (h' : a.Pairs b u m) : t = u ∧ n = m :=
  ⟨Except.ok.inj (h.shape_eq.symm.trans h'.shape_eq), h.itemSize_eq.trans h'.itemSize_eq.symm⟩

/-- A result pairs with the right operand that it was made of. -/
theorem Pairs.again (h : a.Pairs b t n) (hshape : d.shape = t) (hsize : d.itemSize = n) :
    d.Pairs b t n := by
  have hle : ¬ t.length < b.shape.length := Nat.not_lt.mpr h.stretches.2.1
  have hfits : (b.shape.pad t.length).Fits t := h.stretches.2.2
  have hitem := h.itemSize
  have hmax := h.itemSize_eq
  refine ⟨?_, by omega, by omega⟩
  rw [hshape, broadcast, if_neg hle]
  simp only [joinAxes_comm t, hfits.joinAxes_eq]

theorem pairs_of_same (hd : d.shape = t ∧ d.itemSize = n) (he : e.shape = t ∧ e.itemSize = n) :
    d.Pairs e t n := by
  refine ⟨?_, .inl (hd.2.trans he.2.symm), by rw [hd.2, he.2, max_self]⟩
  rw [hd.1, he.1]
  exact (fits_refl t).broadcast_eq

end Dataset

namespace Handle

variable {a b h q r : Handle} {s s' : Store} {op : BinaryOp} {t : Shape} {n : Nat}
  {isSigned sa sb : Bool} {w wa wb : Width}

/-- A right operand that was walked, or copied to be walked, can be walked again. -/
theorem PairsInWords.right_walked (hwords : a.PairsInWords b s t) (hb : b.Held s)
    (hpairs : (s.read a).Pairs (s.read b) t n) :
    b.HasStrides ∧ AllFit (b.geometry.stretch t).walkNumbers := by
  by_cases hshares : b.sharesBuffer a
  · obtain ⟨hstrides, hwalk, -⟩ := hwords.copy hshares
    exact ⟨hstrides, hpairs.stretches.2.allFit_walkNumbers hb.sound.inside.length_strides hwalk⟩
  · have hbeside : s.beside b a = s.read b := if_neg hshares
    have hright := hwords.pairs.right
    have hwalk := hwords.pairs.rightWalk
    rw [hbeside] at hright hwalk
    exact ⟨hright, hwalk⟩

theorem Held.walked_of_dense (hq : q.Held s) (hdense : q.layout = .dense)
    (hfit : q.shape.stridesFit q.itemSize) :
    q.HasStrides ∧ AllFit (q.geometry.stretch q.shape).walkNumbers := by
  have hself : q.geometry.stretch q.shape = q.geometry :=
    Geometry.stretch_self hq.sound.inside.length_strides
  exact ⟨fun _ => hfit, hself.symm ▸ hq.sound.allFit_walkNumbers_of_dense hdense⟩

/-- Operands that do not share their buffer are walked together if each of them can be. -/
theorem pairsInWords_of_walked (hshares : b.sharesBuffer q = false)
    (hleft : q.HasStrides ∧ AllFit (q.geometry.stretch t).walkNumbers)
    (hright : b.HasStrides ∧ AllFit (b.geometry.stretch t).walkNumbers) : q.PairsInWords b s t := by
  have hbeside : s.beside b q = s.read b := if_neg (Bool.eq_false_iff.mp hshares)
  refine ⟨fun h => absurd h (Bool.eq_false_iff.mp hshares), ?_⟩
  rw [hbeside]
  exact ⟨hleft.1, hright.1, hleft.2, hright.2⟩

/-- Integers that pair have a result in words, if the numbers met are words. -/
theorem Integers.exists_result (ha : a.Integers s sa wa) (op : BinaryOp) (hb : b.Integers s sb wb)
    (hpairs : (s.read a).Pairs (s.read b) t n) (hm : ∃ m, reserve (.int isSigned w) t n = .ok m)
    (hop : op = .divide ∨ op = .remainder →
      ∀ p, b.shape.contains p → ∀ v ∈ (s.read b).item p, v ≠ .int 0)
    (hwords : a.PairsInWords b s t) (hfit : t.stridesFit n) :
    ∃ r s', (binaryInWords op (.int isSigned w) a b).run s = (.ok r, s') ∧
      Result op a b s isSigned w r s' ∧ r.shape = t ∧ r.itemSize = n := by
  obtain ⟨r, s', hrun⟩ := (ha.held.exists_binaryInWords_iff hb.held).mpr
    ⟨t, n, hpairs, hm, hb.defined hpairs hop, hwords, hfit⟩
  have hresult := ha.result hb hrun
  obtain ⟨rfl, rfl⟩ := hpairs.unique hresult.pairs
  exact ⟨r, s', hrun, hresult, rfl, rfl⟩

/-! ## Quotient times divisor plus remainder -/

/-- Quotient times divisor plus remainder, all of the kind of the dividend. -/
def recombined (a b : Handle) : StoreM Handle := do
  let q ← binaryInWords .divide a.kind a b
  let r ← binaryInWords .remainder a.kind a b
  let product ← binaryInWords .multiply a.kind q b
  binaryInWords .add a.kind product r

/-- The results of a recombination, one after another. -/
structure Recombines (a b : Handle) (s : Store) (isSigned : Bool) (w : Width) (q : Handle)
    (s₁ : Store) (m : Handle) (s₂ : Store) (u : Handle) (s₃ : Store) (r : Handle) (s' : Store) :
    Prop where
  quotient : Result .divide a b s isSigned w q s₁
  rest : Result .remainder a b s₁ isSigned w m s₂
  product : Result .multiply q b s₂ isSigned w u s₃
  total : Result .add u m s₃ isSigned w r s'

section Recombined

variable (ha : a.Integers s sa wa) (hb : b.Integers s sb wb)
include ha hb

theorem Integers.recombines (hrun : (recombined a b).run s = (.ok r, s')) :
    ∃ q s₁ m s₂ u s₃, Recombines a b s sa wa q s₁ m s₂ u s₃ r s' := by
  simp only [recombined, run_bind_eq_ok, ha.kind_eq] at hrun
  obtain ⟨q, s₁, hq, m, s₂, hm, u, s₃, hu, hr⟩ := hrun
  have h₁ := ha.result hb hq
  have h₂ := (h₁.keeps ha).result (h₁.keeps hb) hm
  have h₃ := (h₂.keeps h₁.integers).result (h₂.keeps (h₁.keeps hb)) hu
  have h₄ := h₃.integers.result (h₃.keeps h₂.integers) hr
  exact ⟨q, s₁, m, s₂, u, s₃, h₁, h₂, h₃, h₄⟩

variable {m u : Handle} {s₁ s₂ s₃ : Store} (hall : Recombines a b s sa wa q s₁ m s₂ u s₃ r s')
include hall

theorem Recombines.same_shape : (q.shape = m.shape ∧ q.itemSize = m.itemSize) ∧
    (q.shape = u.shape ∧ q.itemSize = u.itemSize) ∧
    (q.shape = r.shape ∧ q.itemSize = r.itemSize) := by
  obtain ⟨hb₁, hread₁, -⟩ := hall.quotient.held b hb.held
  have hrest := hall.rest.pairs
  have hproduct := hall.product.pairs
  rw [(hall.quotient.held a ha.held).2.1, hread₁] at hrest
  rw [(hall.rest.held b hb₁).2.1, hread₁] at hproduct
  have hm := hall.quotient.pairs.unique hrest
  have hu := (hall.quotient.pairs.again rfl rfl).unique hproduct
  refine ⟨hm, hu, ?_⟩
  exact (pairs_of_same ⟨hu.1.symm, hu.2.symm⟩
    ⟨hm.1.symm, hm.2.symm⟩).unique hall.total.pairs

/-- **Quotient times divisor plus remainder gives back the dividend**, at every element. -/
theorem Recombines.element_eq {p : Position} {k : Nat} (hp : r.shape.contains p)
    (hk : k < r.itemSize) : ((s'.read r).item p)[k]? = s.element a p k := by
  obtain ⟨⟨hshapeM, hsizeM⟩, ⟨hshapeU, hsizeU⟩, hshape, hsize⟩ := hall.same_shape ha hb
  have hb₁ := hall.quotient.keeps hb
  obtain ⟨vu', vm', total, hu', hm', htotal, -, -, hadd⟩ := hall.total.relates p hp k hk
  rw [← hshape] at hp
  rw [← hsize] at hk
  obtain ⟨x, y, vq, hx, hy, hq, hholds, -, hdivide⟩ := hall.quotient.relates p hp k hk
  obtain ⟨x', y', vm, hx', hy', hm, -, -, hremainder⟩ :=
    hall.rest.relates p (hshapeM ▸ hp) k (hsizeM ▸ hk)
  obtain ⟨vq', y'', vu, hq', hy'', hu, -, -, hmultiply⟩ :=
    hall.product.relates p (hshapeU ▸ hp) k (hsizeU ▸ hk)
  -- What one step has made is what the next ones find.
  rw [hall.quotient.element_eq ha.held, hx] at hx'
  rw [hall.quotient.element_eq hb.held, hy] at hy'
  rw [hall.rest.element_eq hall.quotient.integers.held, Store.element_self hp hk, hq] at hq'
  rw [hall.rest.element_eq hb₁.held, hall.quotient.element_eq hb.held, hy] at hy''
  rw [Store.element_self (hshapeU ▸ hp) (hsizeU ▸ hk), hu] at hu'
  rw [hall.product.element_eq hall.rest.integers.held,
    Store.element_self (hshapeM ▸ hp) (hsizeM ▸ hk), hm] at hm'
  cases hx'
  cases hy'
  cases hq'
  cases hy''
  cases hu'
  cases hm'
  rw [ha.kind_eq] at hholds
  rw [htotal, hx, BinaryOp.eq_of_recombined hholds hdivide hremainder hmultiply hadd]

end Recombined

/-- Quotient times divisor plus remainder can be found just if the quotient can. -/
theorem Integers.exists_recombined_iff (ha : a.Integers s sa wa) (hb : b.Integers s sb wb)
    (hzero : ∀ p, b.shape.contains p → ∀ v ∈ (s.read b).item p, v ≠ .int 0) :
    (∃ r s', (recombined a b).run s = (.ok r, s')) ↔
      ∃ t n, (s.read a).Pairs (s.read b) t n ∧ (∃ m, reserve a.kind t n = .ok m) ∧
        a.PairsInWords b s t ∧ t.stridesFit n := by
  simp only [recombined, run_bind_eq_ok, ha.kind_eq]
  constructor
  · rintro ⟨-, -, q, s₁, hq, -⟩
    obtain ⟨t, n, hpairs, hm, -, hwords⟩ :=
      (ha.held.exists_binaryInWords_iff hb.held).mp ⟨q, s₁, hq⟩
    exact ⟨t, n, hpairs, hm, hwords⟩
  · rintro ⟨t, n, hpairs, hroom, hwords, hfit⟩
    have hwalked := hwords.right_walked hb.held hpairs
    obtain ⟨q, s₁, hq, h₁, rfl, rfl⟩ :=
      ha.exists_result .divide hb hpairs hroom (fun _ => hzero) hwords hfit
    obtain ⟨-, hread, -⟩ := h₁.held a ha.held
    obtain ⟨-, hread', hshares⟩ := h₁.held b hb.held
    -- Nothing has changed for the operands.
    have hbeside : s₁.beside b a = s.beside b a := by simp only [Store.beside, hread']
    have hwords₁ : a.PairsInWords b s₁ q.shape :=
      ⟨hwords.copy, by rw [hread, hbeside]; exact hwords.pairs⟩
    obtain ⟨m, s₂, hm, h₂, hshapeM, hsizeM⟩ := (h₁.keeps ha).exists_result .remainder
      (h₁.keeps hb) (by rw [hread, hread']; exact hpairs) hroom
      (fun _ => by rw [hread']; exact hzero) hwords₁ hfit
    have hq₂ := h₂.keeps h₁.integers
    have hb₂ := h₂.keeps (h₁.keeps hb)
    have hreadb : s₂.read b = s.read b := (h₂.held b (h₁.keeps hb).held).2.1.trans hread'
    -- From here on, all left operands are packed.
    have hwordsQ : q.PairsInWords b s₂ q.shape :=
      pairsInWords_of_walked hshares (hq₂.held.walked_of_dense h₁.layout_eq hfit) hwalked
    obtain ⟨u, s₃, hu, h₃, hshapeU, hsizeU⟩ := hq₂.exists_result .multiply
      hb₂ (by rw [hreadb]; exact hpairs.again rfl rfl) hroom nofun hwordsQ hfit
    have hwalkedM := h₂.integers.held.walked_of_dense h₂.layout_eq (hshapeM ▸ hsizeM ▸ hfit)
    have hwalkedU := h₃.integers.held.walked_of_dense h₃.layout_eq (hshapeU ▸ hsizeU ▸ hfit)
    have hwordsU : u.PairsInWords m s₃ q.shape := pairsInWords_of_walked
      (h₃.held m h₂.integers.held).2.2 (hshapeU ▸ hwalkedU) (hshapeM ▸ hwalkedM)
    obtain ⟨r, s', hr, -⟩ := h₃.integers.exists_result .add (h₃.keeps h₂.integers)
      (pairs_of_same ⟨hshapeU, hsizeU⟩ ⟨hshapeM, hsizeM⟩) hroom nofun hwordsU hfit
    exact ⟨r, s', q, s₁, hq, m, s₂, hm, u, s₃, hu, hr⟩

/-- **Integer arithmetic is exact modulo the width of the output**, for operands of any sign and
width. Sums, differences and products are those of exact integers, reduced to the integers of the
output; quotient times divisor plus remainder is the dividend again. In words the numbers met have
to be words besides, as they are if there are items and all that is read or copied can be. -/
theorem integers_wrap_around (ha : a.Integers s sa wa) (hb : b.Integers s sb wb) (isSigned : Bool)
    (w : Width) :
    (∀ op f, BinaryOp.exactly op = some f →
      ((∃ r s', (binary op (.int isSigned w) a b).run s = (.ok r, s')) ↔
        ∃ t n, (s.read a).Pairs (s.read b) t n ∧ ∃ m, reserve (.int isSigned w) t n = .ok m) ∧
      (∀ r s', (binaryInWords op (.int isSigned w) a b).run s = (.ok r, s') ↔
        (binary op (.int isSigned w) a b).run s = (.ok r, s') ∧ a.PairsInWords b s r.shape ∧
          r.shape.stridesFit r.itemSize = true) ∧
      ∀ r s', (binary op (.int isSigned w) a b).run s = (.ok r, s') →
        r.Integers s' isSigned w ∧ (s.read a).Pairs (s.read b) r.shape r.itemSize ∧
        a.Relates b s r s' fun x y z => z ≡ f x y [ZMOD 2 ^ w.bits]) ∧
    ((∀ p, b.shape.contains p = true → ∀ v ∈ (s.read b).item p, v ≠ .int 0) →
      ((∃ r s', (recombined a b).run s = (.ok r, s')) ↔
        ∃ t n, (s.read a).Pairs (s.read b) t n ∧ (∃ m, reserve a.kind t n = .ok m) ∧
          a.PairsInWords b s t ∧ t.stridesFit n = true) ∧
      ∀ r s', (recombined a b).run s = (.ok r, s') →
        (s.read a).Pairs (s.read b) r.shape r.itemSize ∧
        ∀ p, r.shape.contains p = true → ∀ k < r.itemSize,
          ((s'.read r).item p)[k]? = s.element a p k) ∧
    (∀ out t n m, (s.read a).Pairs (s.read b) t n → reserve out t n = .ok m → 0 < t.size →
      Word.AllFit a.geometry.walkNumbers → Word.AllFit b.geometry.walkNumbers →
      (b.sharesBuffer a = true → b.metadata.CopiesInWords) →
      a.PairsInWords b s t ∧ t.stridesFit n = true) := by
  refine ⟨fun op f hf => ⟨?_, fun r s' => ha.held.run_binaryInWords_iff hb.held,
      fun r s' hrun => ?_⟩,
    fun hzero => ⟨ha.exists_recombined_iff hb hzero, fun r s' hrun => ?_⟩,
    fun out t n m hpairs hm => ha.held.pairsInWords_of_pos hb.held hpairs hm⟩
  · refine ha.exists_binary_iff hb ?_
    rintro (rfl | rfl) <;> cases hf
  · obtain ⟨hints, hpairs, hrelates⟩ := ha.of_run_binary hb hrun
    exact ⟨hints, hpairs, hrelates.mono fun x y z h => BinaryOp.modEq_of_apply hf h.2.2⟩
  · obtain ⟨q, s₁, m, s₂, u, s₃, hall⟩ := ha.recombines hb hrun
    obtain ⟨-, -, hshape, hsize⟩ := hall.same_shape ha hb
    exact ⟨hshape ▸ hsize ▸ hall.quotient.pairs, fun p hp k hk => hall.element_eq ha hb hp hk⟩

def signedBytes : Block := Dataset.ofList (.int true .w8) [3] 1 ([-128, 100, 7].map Scalar.int)

/-- The greatest word, which is read as -1. -/
def greatestWord : Block := Dataset.ofList (.int false .w64) [1] 1 [.int 18446744073709551615]

/-- Two datasets in one store. -/
def inOneStore (d e : Block) : Handle × Handle × Store :=
  ((Store.empty.adopt d).1, (Store.empty.adopt d).2.adopt e)

def bytesAndWord : Handle × Handle × Store := inOneStore signedBytes greatestWord

/-- The least signed byte has no quotient by -1, and is given back all the same. -/
theorem integers_wrap_around_bytes : ∃ (s s₁ s₂ : Store) (a b r r' : Handle),
    a.Integers s true .w8 ∧ b.Integers s false .w64 ∧
    s.element a [0] 0 = some (.int (-128)) ∧ s.element b [0] 0 = some (.int 18446744073709551615) ∧
    (binaryInWords .multiply (.int false .w16) a b).run s = (.ok r, s₁) ∧
    ((s₁.read r).item [0])[0]? = some (.int 128) ∧
    (recombined a b).run s = (.ok r', s₂) ∧
    ((s₂.read r').item [0])[0]? = some (.int (-128)) := by
  have ha : bytesAndWord.1.Integers bytesAndWord.2.2 true .w8 := by decide +kernel
  have hb : bytesAndWord.2.1.Integers bytesAndWord.2.2 false .w64 := by decide +kernel
  have hzero : ∀ p ∈ Shape.positions [1],
      ∀ v ∈ (bytesAndWord.2.2.read bytesAndWord.2.1).item p, v.toInt ≠ 0 := by decide
  obtain ⟨-, hgiven, hread⟩ := integers_wrap_around ha hb false .w16
  obtain ⟨hfits, hfit⟩ := hread (.int true .w8) [3] 1 3 ⟨rfl, .inl rfl, rfl⟩ rfl (by decide)
    (by decide) (by decide) fun _ => Metadata.copiesInWords_empty
  obtain ⟨hagain, hback⟩ := hgiven fun p hp v hv hv0 =>
    hzero p (Shape.mem_positions.mpr hp) v hv (hv0 ▸ rfl)
  obtain ⟨r', s₂, hrun⟩ := hagain.mpr ⟨[3], 1, ⟨rfl, .inl rfl, rfl⟩, ⟨3, rfl⟩, hfits, hfit⟩
  obtain ⟨hpairs, helement⟩ := hback r' s₂ hrun
  have hshape : [3] = r'.shape := Except.ok.inj hpairs.shape_eq
  exact ⟨_, _, s₂, _, _, _, r', ha, hb, rfl, rfl, rfl, rfl, hrun,
    helement [0] (hshape ▸ rfl) 0 (hpairs.itemSize_eq ▸ Nat.one_pos)⟩

end Handle

end Hyperslab
