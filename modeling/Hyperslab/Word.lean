/-!
# Machine words

Lengths and buffer indices are 64-bit words. Arithmetic on them is carried out over exact
integers; `signed` and `unsigned` read a word in the other sign, and `fits` says that an exact
value still is a signed word.
-/
namespace Hyperslab.Word

/-- The number of 64-bit words. -/
def modulus : Nat := Nat.pow 2 64

/-- One past the largest signed word. -/
def half : Nat := Nat.pow 2 63

/-- A length read as a signed word: exact below `half`, wrapped to the negative side above. -/
def signed (n : Nat) : Int := if n < half then n else Int.bmod n modulus

/-- An index read as an unsigned word: exact when it is one, wrapped otherwise. -/
def unsigned (z : Int) : Nat := if 0 ≤ z ∧ z < modulus then z.toNat else (z % modulus).toNat

/-- The value is a signed 64-bit word. -/
def fits (z : Int) : Bool := -(half : Int) ≤ z && z < half

@[simp] theorem signed_of_lt {n : Nat} (h : n < half) : signed n = n := by simp [signed, h]

@[simp] theorem unsigned_natCast {n : Nat} (h : n < modulus) : unsigned n = n := by
  have : (n : Int) < (modulus : Nat) := by exact_mod_cast h
  simp [unsigned, this]

theorem unsigned_of_nonneg {z : Int} (h₀ : 0 ≤ z) (h : z < modulus) : unsigned z = z.toNat := by
  simp [unsigned, h₀, h]

end Hyperslab.Word
