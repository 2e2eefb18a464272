/-
Residency/Memory/PowerOfTwo.lean

Powers of two and masks.  A positive number is a power of two if it has no bit in common with
its predecessor; its binary logarithm is then one less than its length in bits.  A mask of all
bits but the low ones takes an address down to a multiple of a power of two (`alignDown`); it
acts on integers in two's complement, whose leading bits go on without end.

`eq_shiftLeft_of_isPowerOfTwo` links the test with the exponent.
-/
namespace Residency

/-- Has `n` exactly one bit, and is it positive? -/
def isPowerOfTwo (n : Int) : Bool :=
  0 < n && (n.toNat &&& (n.toNat - 1)) == 0

/-- The number of bits of the magnitude of `n`. -/
def bitLength (n : Int) : Nat :=
  if n = 0 then 0 else n.natAbs.log2 + 1

/-- The binary logarithm, rounded down; the sign is ignored, and 0 gives -1. -/
def binaryLog (n : Int) : Int :=
  bitLength n - 1

/-- The bits that two numbers have in common, in two's complement. -/
def commonBits : Int → Int → Int
  | .ofNat m, .ofNat n => (m &&& n : Nat)
  | .ofNat m, .negSucc n => (m - (m &&& n) : Nat)
  | .negSucc m, .ofNat n => (n - (n &&& m) : Nat)
  | .negSucc m, .negSucc n => .negSucc (m ||| n)

/-- An address without the bits that numbers below `size` have, for a power of two. -/
def alignDown (address size : Int) : Int :=
  commonBits address (~~~(size - 1))

theorem pos_of_isPowerOfTwo {n : Int} (h : isPowerOfTwo n = true) : 0 < n := by
  simp only [isPowerOfTwo, Bool.and_eq_true, decide_eq_true_eq] at h
  exact h.1

/-- A power of two is a 1 that was shifted by its binary logarithm. -/
theorem eq_shiftLeft_of_isPowerOfTwo {n : Int} (h : isPowerOfTwo n = true) :
    n = (1 <<< n.toNat.log2 : Nat) := by
  simp only [isPowerOfTwo, Bool.and_eq_true, decide_eq_true_eq, beq_iff_eq] at h
  have hn : n.toNat ≠ 0 := by omega
  obtain ⟨k, hk⟩ := (Nat.and_sub_one_eq_zero_iff_isPowerOfTwo hn).1 h.2
  have hlog : n.toNat.log2 = k := by rw [hk, Nat.log2_two_pow]
  have hcast : (n.toNat : Int) = n := Int.toNat_of_nonneg (Int.le_of_lt h.1)
  rw [hlog, Nat.one_shiftLeft, ← hk, hcast]

end Residency
