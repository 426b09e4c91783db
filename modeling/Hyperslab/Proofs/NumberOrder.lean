import Hyperslab.Scalar
import Mathlib

/-!
# The order of doubles

The bits of a double, read as a sign and a magnitude, count the doubles between it and zero. So the
order of doubles that are numbers is an order of integers, and the only two numbers that it does
not tell apart are the zeros. The doubles of integers are numbers and never the negative zero.
-/
namespace Hyperslab

namespace Number

variable {n : Nat} {u : UnpackedFloat} {x : Float}

open Float.Model (Format UnpackedFloat)
open Float.Model.UnpackedFloat

/-! ## Encodings -/

def signWeight : Sign → Nat
  | .positive => 0
  | .negative => 2 ^ 63

theorem toNat_packComponents (s : Sign) (e : BitVec 11) (m : BitVec 52) :
    (packComponents Format.binary64 s e m).toNat = signWeight s + (e.toNat * 2 ^ 52 + m.toNat) := by
  simp only [packComponents, BitVec.toNat_append]
  rw [← Nat.shiftLeft_add_eq_or_of_lt e.isLt, ← Nat.shiftLeft_add_eq_or_of_lt m.isLt]
  cases s <;> simp [Sign.toBitVec, signWeight, Nat.shiftLeft_eq]
  omega

/-- A word is the sum of its sign, exponent and mantissa fields. -/
theorem toNat_eq_fields (b : BitVec Format.binary64.numBits) :
    b.toNat = signWeight (Sign.ofBitVec (unpackSign b)) +
      ((unpackExponent b).toNat * 2 ^ 52 + (unpackMantissa b).toNat) := by
  have h := toNat_packComponents (Sign.ofBitVec (unpackSign b)) (unpackExponent b)
    (unpackMantissa b)
  rwa [packComponents_unpackSign_unpackExponent_unpackMantissa] at h

theorem toNat_one_append (m : BitVec 52) : (1#1 ++ m).toNat = 2 ^ 52 + m.toNat := by
  rw [BitVec.toNat_append, ← Nat.shiftLeft_add_eq_or_of_lt m.isLt]
  simp [Nat.shiftLeft_eq]

/-- The word `n` encodes `u`. With the exponent counted from that of the subnormals, normal and
subnormal numbers have the same encoding: the implicit bit of a normal mantissa adds one to the
exponent field. -/
inductive Encodes : Nat → UnpackedFloat → Prop where
  | notANumber {n : Nat} (h : 2047 * 2 ^ 52 < n % 2 ^ 63) : Encodes n .notANumber
  | infinity (s : Sign) : Encodes (signWeight s + 2047 * 2 ^ 52) (.infinity s)
  | zero (s : Sign) : Encodes (signWeight s) (.zero s)
  | finite (s : Sign) {m : Nat} {x : Int} (h : 0 < m) (e : Nat) (hx : x = e - 1074)
      (he : e < 2046) (hm : m < 2 ^ 53) (hnormal : 2 ^ 52 ≤ m ∨ e = 0) :
      Encodes (signWeight s + (e * 2 ^ 52 + m)) (.finite s m x h)

theorem encodes_unpack (b : BitVec Format.binary64.numBits) :
    Encodes b.toNat (UnpackedFloat.unpack Format.binary64 b) := by
  have he : (unpackExponent b).toNat < 2 ^ 11 := (unpackExponent b).isLt
  have hm : (unpackMantissa b).toNat < 2 ^ 52 := (unpackMantissa b).isLt
  have hbias : ((Format.binary64.exponentBias : Nat) : Int) = 1023 := rfl
  have hwidth : ((Format.binary64.mantissaBitsWithoutImplicit : Nat) : Int) = 52 := rfl
  have hb := toNat_eq_fields b
  unfold UnpackedFloat.unpack
  dsimp only
  split
  · -- An exponent field of ones is that of infinity and of not-a-number.
    rename_i hones
    split
    · rename_i hzero
      rw [hb, hones, hzero]
      exact .infinity _
    · rename_i hzero
      have hpos : 0 < (unpackMantissa b).toNat := by
        simpa [BitVec.toNat_pos, BitVec.pos_iff_ne_zero]
      have hones' : (unpackExponent b).toNat = 2047 := congrArg BitVec.toNat hones
      refine .notANumber ?_
      rw [hb, hones']
      cases Sign.ofBitVec (unpackSign b) <;> simp only [signWeight] <;> omega
  · rename_i hones
    split
    · -- An exponent field of zeros stands for the same exponent as a field of one.
      rename_i hsub
      split
      · rename_i hzero
        rw [hb, hsub, hzero]
        exact .zero _
      · rw [hb, hsub]
        refine .finite _ _ 0 ?_ (by decide) (by omega) (.inr rfl)
        rw [hbias, hwidth]
        rfl
    · rename_i hsub
      have hsub' : (unpackExponent b).toNat ≠ 0 := fun h =>
        hsub (BitVec.toNat_inj.mp (by simpa using h))
      have hones' : (unpackExponent b).toNat ≠ 2047 := fun h =>
        hones (BitVec.toNat_inj.mp (by simpa using h))
      have happ := toNat_one_append (unpackMantissa b)
      have hn : b.toNat = signWeight (Sign.ofBitVec (unpackSign b)) +
          (((unpackExponent b).toNat - 1) * 2 ^ 52 + (1#1 ++ unpackMantissa b).toNat) := by
        rw [hb, happ]
        omega
      rw [hn]
      refine .finite _ _ _ ?_ (by omega) (by omega) (.inl (by omega))
      rw [hbias, hwidth]
      omega

theorem Encodes.toNat_pack (h : Encodes n u)
    (hu : u.isNaN = false) : (UnpackedFloat.pack Format.binary64 u).toNat = n := by
  cases h with
  | notANumber => cases hu
  | infinity s => cases s <;> rfl
  | zero s => cases s <;> rfl
  | @finite s m x h e hx he hm hnormal =>
    have hbias : (x + (Format.binary64.exponentBias : Int)
        + (Format.binary64.mantissaBitsWithoutImplicit : Int)).toNat = e + 1 := by
      have hbias : ((Format.binary64.exponentBias : Nat) : Int) = 1023 := rfl
      have hwidth : ((Format.binary64.mantissaBitsWithoutImplicit : Nat) : Int) = 52 := rfl
      omega
    have hbits : Format.binary64.mantissaBits = 53 := rfl
    unfold UnpackedFloat.pack
    simp only [hbias, hbits]
    rw [if_neg (by simp; omega)]
    split
    · rename_i hlog
      have hlow : 2 ^ 52 ≤ m := (Nat.le_log2 (by omega)).mp (by omega)
      rw [toNat_packComponents, BitVec.toNat_ofNat, BitVec.toNat_ofNat]
      omega
    · rename_i hlog
      have hlog' : m.log2 < 53 := (Nat.log2_lt (by omega)).mpr hm
      have hlow : m < 2 ^ 52 := (Nat.log2_lt (by omega)).mp (by omega)
      rw [toNat_packComponents, BitVec.toNat_ofNat, BitVec.toNat_ofNat]
      omega

/-! ## Ranks -/

/-- The magnitude of a word with the sign of its sign bit. -/
def signedMagnitude (n : Nat) : Int := if n < 2 ^ 63 then n else 2 ^ 63 - n

/-- The order of numbers is that of the signed magnitudes of their encodings. -/
theorem Encodes.lt_iff {m : Nat} {v : UnpackedFloat} (hu : Encodes n u) (hv : Encodes m v)
    (hun : u.isNaN = false) (hvn : v.isNaN = false) :
    u.lt v ↔ signedMagnitude n < signedMagnitude m := by
  unfold UnpackedFloat.lt signedMagnitude
  -- One case for each case of the comparison; of two finite numbers, the exponents decide first.
  cases hu with
  | notANumber => cases hun
  | infinity s =>
    cases hv with
    | notANumber => cases hvn
    | infinity t => cases s <;> cases t <;> simp [UnpackedFloat.compare, compare, signWeight]
    | zero t => cases s <;> cases t <;> simp [UnpackedFloat.compare, signWeight]
    | finite t => cases s <;> cases t <;> simp [UnpackedFloat.compare, signWeight] <;> omega
  | zero s =>
    cases hv with
    | notANumber => cases hvn
    | infinity t => cases s <;> cases t <;> simp [UnpackedFloat.compare, signWeight]
    | zero t => cases s <;> cases t <;> simp [UnpackedFloat.compare, signWeight]
    | finite t => cases s <;> cases t <;> simp [UnpackedFloat.compare, signWeight] <;> omega
  | finite s =>
    cases hv with
    | notANumber => cases hvn
    | infinity t => cases s <;> cases t <;> simp [UnpackedFloat.compare, signWeight] <;> omega
    | zero t => cases s <;> cases t <;> simp [UnpackedFloat.compare, signWeight] <;> omega
    | finite t =>
      cases s <;> cases t <;>
        simp [UnpackedFloat.compare, signWeight, Ordering.then_eq_lt, Ordering.then_eq_gt,
          Nat.compare_eq_lt, Nat.compare_eq_gt, Int.compare_eq_lt, Int.compare_eq_gt] <;> omega

/-- The place of a double among the doubles, counted from zero. -/
def rank (x : Float) : Int := signedMagnitude x.toBits.toNat

/-- Neither not-a-number, whose magnitude is beyond that of infinity, nor the negative zero. -/
def Proper (x : Float) : Prop :=
  x.toBits.toNat % 2 ^ 63 ≤ 2047 * 2 ^ 52 ∧ x.toBits.toNat ≠ 2 ^ 63

theorem encodes_toBits (x : Float) : Encodes x.toBits.toNat x.toModel.unpack := encodes_unpack _

theorem Encodes.isNaN_eq_false (h : Encodes n u)
    (hn : n % 2 ^ 63 ≤ 2047 * 2 ^ 52) : u.isNaN = false := by
  cases h with
  | notANumber h => omega
  | infinity | zero | finite => rfl

theorem Proper.isNaN_eq_false (h : Proper x) : x.isNaN = false :=
  (encodes_toBits x).isNaN_eq_false h.1

theorem Proper.lt_iff {y : Float} (hx : Proper x) (hy : Proper y) : x < y ↔ rank x < rank y := by
  have h := (encodes_toBits x).lt_iff (encodes_toBits y) hx.isNaN_eq_false hy.isNaN_eq_false
  exact decide_eq_true_iff.trans h

theorem Proper.eq_of_rank_eq {y : Float} (hx : Proper x) (hy : Proper y)
    (h : rank x = rank y) : x = y := by
  have hbits : x.toBits.toNat = y.toBits.toNat := by
    have hx0 := hx.2
    have hy0 := hy.2
    unfold rank signedMagnitude at h
    split at h <;> split at h <;> omega
  exact Float.toBits_inj.mp (UInt64.toNat_inj.mp hbits)

/-! ## The doubles of integers -/

inductive IsPositive : UnpackedFloat → Prop where
  | infinity : IsPositive (.infinity .positive)
  | zero : IsPositive (.zero .positive)
  | finite (m : Nat) (e : Int) (h : 0 < m) : IsPositive (.finite .positive m e h)

theorem IsPositive.toNat_pack_le (h : IsPositive u) :
    (UnpackedFloat.pack Format.binary64 u).toNat ≤ 2047 * 2 ^ 52 := by
  cases h with
  | infinity => decide
  | zero => decide
  | finite m e h =>
    unfold UnpackedFloat.pack
    dsimp only
    split
    · decide
    · rename_i he
      split
      · rw [toNat_packComponents, BitVec.toNat_ofNat, BitVec.toNat_ofNat]
        simp only [signWeight] at he ⊢
        omega
      · rw [toNat_packComponents, BitVec.toNat_ofNat, BitVec.toNat_ofNat]
        simp only [signWeight]
        omega

theorem isPositive_round (m : Nat) (e : Int) :
    IsPositive (UnpackedFloat.round Format.binary64 .positive m e) := by
  unfold UnpackedFloat.round roundWithAccuracy
  dsimp only
  split
  · exact .zero
  · exact .finite _ _ _

theorem isPositive_ofNat (n : Nat) : IsPositive (UnpackedFloat.ofNat Format.binary64 n) := by
  unfold UnpackedFloat.ofNat UnpackedFloat.ofInt UnpackedFloat.normalize
  split
  · rename_i h
    rw [Int.compare_eq_lt] at h
    omega
  · exact .zero
  · exact isPositive_round _ _

theorem toNat_toBits_ofNat_le (n : Nat) : (ofNat n).toBits.toNat ≤ 2047 * 2 ^ 52 :=
  (isPositive_ofNat n.toUInt64.toNat).toNat_pack_le

theorem proper_of_toBits_le (h : x.toBits.toNat ≤ 2047 * 2 ^ 52) : Proper x := ⟨by omega, by omega⟩

/-- A number of positive sign subtracted from zero: the negative zero does not come out, for the
difference of the zeros is the positive zero. -/
theorem Encodes.zero_sub (h : Encodes n u) (hn : n ≤ 2047 * 2 ^ 52) :
    Proper (.ofModel (.pack (UnpackedFloat.sub Format.binary64 (.zero .positive) u))) := by
  cases h with
  | notANumber h => omega
  | infinity s => cases s <;> exact ⟨by decide, by decide⟩
  | zero s =>
    cases s with
    | negative => simp [signWeight] at hn
    | positive => exact ⟨by decide, by decide⟩
  | @finite s m x h e hx he hm hnormal =>
    cases s with
    | negative =>
      simp only [signWeight] at hn
      omega
    | positive =>
      have hbits := (Encodes.finite .negative h e hx he hm hnormal).toNat_pack rfl
      have hbits' : (Float.ofModel (.pack (.finite .negative m x h))).toBits.toNat =
          2 ^ 63 + (e * 2 ^ 52 + m) := hbits
      change Proper (.ofModel (.pack (.finite .negative m x h)))
      refine ⟨?_, ?_⟩ <;> rw [hbits'] <;> omega

end Number

open Number

/-- The doubles of integers and booleans are told apart by the order. -/
theorem Scalar.proper_toFloat {v : Scalar} (h : v.isFloat = false) : Proper v.toFloat := by
  cases v with
  | bool b => cases b <;> exact ⟨by decide, by decide⟩
  | int z =>
    by_cases hz : 0 ≤ z
    · simp only [toFloat, floatOfInt, if_pos hz]
      exact proper_of_toBits_le (toNat_toBits_ofNat_le _)
    · simp only [toFloat, floatOfInt, if_neg hz]
      exact (encodes_toBits _).zero_sub (toNat_toBits_ofNat_le z.natAbs)
  | single x => cases h
  | double x => cases h

end Hyperslab
