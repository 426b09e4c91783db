import Hyperslab.Proofs.IntegerArithmetic
import Mathlib.Algebra.Ring.Int.Parity
import Mathlib.RingTheory.Coprime.Lemmas

/-!
# Powers of integers

A power of integers is found by repeated squaring of words, so it is the exact one modulo the width
of the output. But an exponent past a limit of 32 bits counts as that limit, and an exponent past
the signed words is read as a negative one. What is found then is another power: it is the one that
was asked for if the base is even, where both have gone to zero, or if the factors left out have the
product 1.
-/
namespace Hyperslab

open Dataset Word

namespace Scalar

variable {z : Int}

theorem toInt_of_lt (hz : 0 ≤ z) (hlt : z < half) : (int z).toInt = z := by
  have hhalf : (half : Int) = 9223372036854775808 := rfl
  have hmodulus : modulus = 18446744073709551616 := rfl
  rw [toInt, hmodulus, Int.bmod]
  omega

/-- An integer past the signed words is read as a negative one. -/
theorem toInt_of_le (hz : half ≤ z) (hlt : z < modulus) : (int z).toInt = z - modulus := by
  have hhalf : (half : Int) = 9223372036854775808 := rfl
  have hmodulus : modulus = 18446744073709551616 := rfl
  rw [hmodulus] at hlt ⊢
  rw [toInt, hmodulus, Int.bmod]
  omega

end Scalar

theorem Width.bits_le_exponentLimit (w : Width) : w.bits ≤ BinaryOp.exponentLimit := by
  cases w <;> decide

theorem Kind.Holds.lt_modulus {isSigned : Bool} {w : Width} {z : Int}
    (h : (Kind.int isSigned w).Holds (.int z)) : z < modulus := by
  cases isSigned <;> cases w <;>
    simp [Kind.Holds, Kind.lower, Kind.upper, Width.bits, modulus] at h ⊢ <;> omega

namespace BinaryOp

variable {isSigned sy : Bool} {w wy : Width} {x y z : Int} {n : Nat}

/-- **Repeated squaring finds the power**, modulo the words. -/
theorem wordPower_modEq (x : Int) (n : Nat) : wordPower x n ≡ x ^ n [ZMOD modulus] := by
  fun_induction wordPower x n with
  | case1 => rw [pow_zero]
  | case2 n hn root square heven ih =>
    have hexponent : n = n / 2 + n / 2 := by omega
    calc
      square ≡ root * root [ZMOD modulus] := word_modEq _
      _ ≡ x ^ (n / 2) * x ^ (n / 2) [ZMOD modulus] := ih.mul ih
      _ = x ^ n := by rw [← pow_add, ← hexponent]
  | case3 n hn root square hodd ih =>
    have hexponent : n = n / 2 + n / 2 + 1 := by omega
    calc
      word (square * x) ≡ square * x [ZMOD modulus] := word_modEq _
      _ ≡ root * root * x [ZMOD modulus] := (word_modEq _).mul_right x
      _ ≡ x ^ (n / 2) * x ^ (n / 2) * x [ZMOD modulus] := (ih.mul ih).mul_right x
      _ = x ^ n := by rw [← pow_add, ← pow_succ, ← hexponent]

/-- **The power at the limit is the one that was asked for** if the exponent is not past the limit,
the base is even, or the factors left out have the product 1. -/
theorem pow_min_modEq_iff (w : Width) (x : Int) (n : Nat) :
    x ^ min n exponentLimit ≡ x ^ n [ZMOD 2 ^ w.bits] ↔
      n ≤ exponentLimit ∨ Even x ∨ x ^ (n - exponentLimit) ≡ 1 [ZMOD 2 ^ w.bits] := by
  by_cases hn : n ≤ exponentLimit
  · rw [min_eq_left hn]
    exact iff_of_true rfl (.inl hn)
  have hle : exponentLimit ≤ n := (Nat.not_le.mp hn).le
  have hsplit : x ^ n = x ^ exponentLimit * x ^ (n - exponentLimit) := by
    rw [← pow_add, Nat.add_sub_cancel' hle]
  rw [min_eq_right hle, hsplit, or_iff_right hn]
  rcases Int.even_or_odd x with heven | hodd
  · -- Both powers are zero.
    have hdvd : (2 : Int) ^ w.bits ∣ x ^ exponentLimit :=
      (pow_dvd_pow_of_dvd heven.two_dvd w.bits).trans (pow_dvd_pow x w.bits_le_exponentLimit)
    have hzero : x ^ exponentLimit ≡ 0 [ZMOD 2 ^ w.bits] := Int.modEq_zero_iff_dvd.mpr hdvd
    refine iff_of_true (hzero.trans ?_) (.inl heven)
    exact (Int.modEq_zero_iff_dvd.mpr (hdvd.mul_right _)).symm
  · -- An odd base can be cancelled.
    have hcoprime : IsCoprime ((2 : Int) ^ w.bits) (x ^ exponentLimit) := by
      obtain ⟨k, rfl⟩ := hodd
      exact IsCoprime.pow ⟨-k, 1, by ring⟩
    rw [or_iff_right (Int.not_even_iff_odd.mpr hodd)]
    constructor
    · intro h
      have hdvd := h.symm.dvd
      rw [← mul_one_sub] at hdvd
      exact Int.modEq_iff_dvd.mpr (hcoprime.dvd_of_dvd_mul_left hdvd)
    · intro h
      calc
        x ^ exponentLimit = x ^ exponentLimit * 1 := (mul_one _).symm
        _ ≡ x ^ exponentLimit * x ^ (n - exponentLimit) [ZMOD 2 ^ w.bits] := h.symm.mul_left _

section

variable (hy : 0 ≤ y) (hlt : y < half)
  (hz : power.apply false (.int isSigned w) (.int x) (.int y) = .ok (.int z))
include hy hlt hz

/-- The result of a power is that of the power at the limit. -/
theorem modEq_of_apply_power : z ≡ x ^ min y.toNat exponentLimit [ZMOD 2 ^ w.bits] := by
  obtain ⟨u, hu, hwrap⟩ := apply_int.mp hz
  obtain rfl := Scalar.int.inj hwrap
  rw [Scalar.toInt_of_lt hy hlt, onInts, if_pos hy] at hu
  cases hu
  have hdvd := w.two_pow_bits_dvd
  calc
    Kind.wrap isSigned w (wordPower (Scalar.int x).toInt (min y.toNat exponentLimit))
      ≡ wordPower (Scalar.int x).toInt (min y.toNat exponentLimit) [ZMOD 2 ^ w.bits] :=
        Kind.wrap_modEq ..
    _ ≡ (Scalar.int x).toInt ^ min y.toNat exponentLimit [ZMOD 2 ^ w.bits] :=
      (wordPower_modEq ..).of_dvd hdvd
    _ ≡ x ^ min y.toNat exponentLimit [ZMOD 2 ^ w.bits] :=
      ((Scalar.toInt_modEq x).of_dvd hdvd).pow _

/-- **When a power is the one that was asked for**, for an exponent that is a signed word. -/
theorem modEq_pow_iff_of_apply :
    z ≡ x ^ y.toNat [ZMOD 2 ^ w.bits] ↔
      y ≤ exponentLimit ∨ Even x ∨ x ^ (y.toNat - exponentLimit) ≡ 1 [ZMOD 2 ^ w.bits] := by
  have hmin := modEq_of_apply_power hy hlt hz
  have hlimit : y.toNat ≤ exponentLimit ↔ y ≤ exponentLimit := Int.toNat_le
  rw [← hlimit, ← pow_min_modEq_iff]
  exact ⟨hmin.symm.trans, hmin.trans⟩

end

/-- An exponent past the signed words is a negative one, and goes through doubles. -/
theorem eq_of_apply_power (hy : half ≤ y) (hlt : y < modulus)
    (hz : power.apply false (.int isSigned w) (.int x) (.int y) = .ok (.int z)) :
    z = Kind.wrap isSigned w (Scalar.double (Float.pow (Scalar.floatOfInt (Scalar.int x).toInt)
      (Scalar.floatOfInt (y - modulus)))).toInt := by
  obtain ⟨u, hu, hwrap⟩ := apply_int.mp hz
  obtain rfl := Scalar.int.inj hwrap
  have hnegative : ¬ 0 ≤ y - modulus := by omega
  rw [Scalar.toInt_of_le hy hlt, onInts, if_neg hnegative] at hu
  cases hu
  rfl

end BinaryOp

namespace Handle

variable {a b r : Handle} {s s' : Store} {isSigned sa sb : Bool} {w wa wb : Width}

/-- **A power of integers is the exact one modulo the width of the output, for an exponent up to the
limit.** A larger one counts as the limit; the result is then the power asked for just if the base
is even or the factors left out have the product 1. One past the signed words goes through doubles,
as a negative one. In words the numbers met have to be words besides. -/
theorem power_up_to_limit (ha : a.Integers s sa wa) (hb : b.Integers s sb wb) (isSigned : Bool)
    (w : Width) :
    ((∃ r s', (binary .power (.int isSigned w) a b).run s = (.ok r, s')) ↔
      ∃ t n, (s.read a).Pairs (s.read b) t n ∧ ∃ m, reserve (.int isSigned w) t n = .ok m) ∧
    (∀ r s', (binaryInWords .power (.int isSigned w) a b).run s = (.ok r, s') ↔
      (binary .power (.int isSigned w) a b).run s = (.ok r, s') ∧ a.PairsInWords b s r.shape ∧
        r.shape.stridesFit r.itemSize = true) ∧
    ∀ r s', (binary .power (.int isSigned w) a b).run s = (.ok r, s') →
      r.Integers s' isSigned w ∧ (s.read a).Pairs (s.read b) r.shape r.itemSize ∧
      a.Relates b s r s' fun x y z =>
        (0 ≤ y → y < Word.half →
          z ≡ x ^ min y.toNat BinaryOp.exponentLimit [ZMOD 2 ^ w.bits] ∧
          (z ≡ x ^ y.toNat [ZMOD 2 ^ w.bits] ↔ y ≤ BinaryOp.exponentLimit ∨ Even x ∨
            x ^ (y.toNat - BinaryOp.exponentLimit) ≡ 1 [ZMOD 2 ^ w.bits])) ∧
        (Word.half ≤ y → z = Kind.wrap isSigned w (Scalar.double (Float.pow
          (Scalar.floatOfInt (Scalar.int x).toInt)
          (Scalar.floatOfInt (y - Word.modulus)))).toInt) := by
  refine ⟨ha.exists_binary_iff hb (by simp), fun r s' => ha.held.run_binaryInWords_iff hb.held,
    fun r s' hrun => ?_⟩
  obtain ⟨hints, hpairs, hrelates⟩ := ha.of_run_binary hb hrun
  refine ⟨hints, hpairs, hrelates.mono ?_⟩
  rintro x y z ⟨-, hy, hz⟩
  refine ⟨fun hnonneg hlt => ?_, fun hle => ?_⟩
  · exact ⟨BinaryOp.modEq_of_apply_power hnonneg hlt hz,
      BinaryOp.modEq_pow_iff_of_apply hnonneg hlt hz⟩
  · rw [hb.kind_eq] at hy
    exact BinaryOp.eq_of_apply_power hle hy.lt_modulus hz

/-- The exponent of a cube. -/
def cube : Block := Dataset.ofList (.int false .w64) [1] 1 [.int 3]

def bytesAndCube : Handle × Handle × Store := inOneStore signedBytes cube

theorem power_up_to_limit_cube : ∃ (s s' : Store) (a b r : Handle), a.Integers s true .w8 ∧
    b.Integers s false .w64 ∧ s.element a [2] 0 = some (.int 7) ∧
    s.element b [2] 0 = some (.int 3) ∧
    (binary .power (.int false .w8) a b).run s = (.ok r, s') ∧
    ((s'.read r).item [2])[0]? = some (.int 87) := by
  have ha : bytesAndCube.1.Integers bytesAndCube.2.2 true .w8 := by decide +kernel
  have hb : bytesAndCube.2.1.Integers bytesAndCube.2.2 false .w64 := by decide +kernel
  obtain ⟨hsome, -, hresult⟩ := power_up_to_limit ha hb false .w8
  obtain ⟨r, s', hrun⟩ := hsome.mpr ⟨[3], 1, ⟨rfl, .inl rfl, rfl⟩, 3, rfl⟩
  obtain ⟨hints, hpairs, hrelates⟩ := hresult r s' hrun
  have hshape : [3] = r.shape := Except.ok.inj hpairs.shape_eq
  have hp : r.shape.contains [2] = true := hshape ▸ rfl
  obtain ⟨x, y, z, hx, hy, hz, hpower, -⟩ :=
    hrelates [2] hp 0 (hpairs.itemSize_eq ▸ Nat.one_pos)
  obtain rfl : 7 = x := Scalar.int.inj (Option.some.inj hx)
  obtain rfl : 3 = y := Scalar.int.inj (Option.some.inj hy)
  obtain ⟨hmod, -⟩ := hpower (by decide) (by decide)
  obtain rfl : z = 87 := Kind.eq_of_modEq (hints.holds [2] hp _ (List.mem_of_getElem? hz))
    (by decide) (hmod.trans (by decide))
  exact ⟨_, s', _, _, r, ha, hb, hx, hy, hrun, hz⟩

/-- An odd number. -/
def three : Block := Dataset.ofList (.int true .w64) [1] 1 [.int 3]

def pastLimit : Block := Dataset.ofList (.int true .w64) [1] 1 [.int 4294967296]

def threeAndLimit : Handle × Handle × Store := inOneStore three pastLimit

/-- The power of 3 to an exponent past the limit is another one: a factor is left out. -/
theorem exponent_past_limit_is_cut : ∃ (s s' : Store) (a b r : Handle) (x y z : Int),
    a.Integers s true .w64 ∧ b.Integers s true .w64 ∧
    (binaryInWords .power (.int true .w64) a b).run s = (.ok r, s') ∧
    s.element a [0] 0 = some (.int x) ∧ s.element b [0] 0 = some (.int y) ∧
    ((s'.read r).item [0])[0]? = some (.int z) ∧
    (x = 3 ∧ y = 4294967296) ∧ ¬ z ≡ x ^ y.toNat [ZMOD 2 ^ Width.w64.bits] := by
  have ha : threeAndLimit.1.Integers threeAndLimit.2.2 true .w64 := by decide +kernel
  have hb : threeAndLimit.2.1.Integers threeAndLimit.2.2 true .w64 := by decide +kernel
  have hwords : threeAndLimit.1.PairsInWords threeAndLimit.2.1 threeAndLimit.2.2 [1] :=
    ⟨nofun, by decide, by decide, by decide, by decide⟩
  have hroom : ∃ m, reserve (.int true .w64) [1] 1 = .ok m := ⟨1, rfl⟩
  obtain ⟨r, s', hrun, hresult, hshape, hsize⟩ :=
    ha.exists_result .power hb ⟨rfl, .inl rfl, rfl⟩ hroom (by simp) hwords rfl
  obtain ⟨x, y, z, hx, hy, hz, -, -, hpower⟩ :=
    hresult.relates [0] (hshape ▸ rfl) 0 (hsize ▸ Nat.one_pos)
  obtain rfl : 3 = x := Scalar.int.inj (Option.some.inj hx)
  obtain rfl : 4294967296 = y := Scalar.int.inj (Option.some.inj hy)
  refine ⟨_, s', _, _, r, 3, 4294967296, z, ha, hb, hrun, hx, hy, hz, ⟨rfl, rfl⟩, ?_⟩
  rw [BinaryOp.modEq_pow_iff_of_apply (by decide) (by decide) hpower]
  decide

end Handle

end Hyperslab
