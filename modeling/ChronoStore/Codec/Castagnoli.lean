import ChronoStore.Codec.Crc32c
import ChronoStore.Foundation.PolynomialDivision
import Mathlib.Data.Nat.Digits.Lemmas

/-!
# The checksum is CRC-32C

`crc32c.cpp` says what the checksum is by a loop over bytes and bits. What it is meant to be is a
remainder: of the message, read as a polynomial over the field of two elements, by the polynomial of
Castagnoli (`crc32cReference`). The two agree for every byte string, the empty one included.
-/

namespace ChronoStore

open Polynomial ShiftRegister

/-- The coefficients of the polynomial of Castagnoli below the leading one. -/
def normalPolynomial : ℕ := 0x1EDC6F41

/-- The polynomial of Castagnoli. -/
noncomputable def castagnoli : (ZMod 2)[X] :=
  X ^ 32 + ∑ i ∈ Finset.range 32, C (bit (normalPolynomial.testBit i)) * X ^ i

/-- The remainder of a message: 32 zero bits are appended, and the first 32 bits of the whole
inverted. -/
noncomputable def crc32cRemainder (bytes : Bytes) : (ZMod 2)[X] :=
  message (invertFirst 32 (messageBits bytes ++ List.replicate 32 false)) %ₘ castagnoli

/-- The remainder, its leading coefficient read as the lowest bit, and complemented. -/
noncomputable def crc32cReference (bytes : Bytes) : ℕ :=
  Nat.ofDigits 2 ((List.range 32).map fun i ↦
    (!decide ((crc32cRemainder bytes).coeff (31 - i) = 1)).toNat)

/-- The feedback word of the code is the polynomial of Castagnoli, reflected. -/
theorem generator_reflectedPolynomial : generator reflectedPolynomial = castagnoli := by
  have hbits : ∀ i < 32, reflectedPolynomial.getLsbD (32 - 1 - i) = normalPolynomial.testBit i := by
    decide +kernel
  have hsum : reflected reflectedPolynomial =
      ∑ i ∈ Finset.range 32, C (bit (normalPolynomial.testBit i)) * X ^ i :=
    Finset.sum_congr rfl fun i hi ↦ by rw [hbits i (Finset.mem_range.1 hi)]
  rw [generator, hsum, castagnoli]

/-- The initial value of the source sets every bit. -/
theorem allOnes_eq : allOnes = BitVec.allOnes 32 := by decide

/-- A number is spelled by its bits. -/
theorem ofDigits_testBit (w n : ℕ) :
    Nat.ofDigits 2 ((List.range w).map fun i ↦ (n.testBit i).toNat) = n % 2 ^ w := by
  induction w generalizing n with
  | zero => simp [Nat.mod_one]
  | succ w ih =>
    have hrest : ((fun i ↦ (n.testBit i).toNat) ∘ Nat.succ) = fun i ↦
        ((n / 2).testBit i).toNat := by
      funext i
      rw [Function.comp_apply, Nat.testBit_succ]
    have hlow : (n.testBit 0).toNat = n % 2 := by
      rw [Nat.testBit_zero]
      rcases Nat.mod_two_eq_zero_or_one n with h | h <;> simp [h]
    rw [List.range_succ_eq_map, List.map_cons, List.map_map, hrest, Nat.ofDigits_cons, ih, hlow,
      Nat.pow_succ', Nat.mod_mul]

/-- **`crc32c` computes CRC-32C.** -/
theorem crc32c_eq_reference (bytes : Bytes) : crc32c bytes = crc32cReference bytes := by
  have hremainder : reflected (absorb reflectedPolynomial allOnes bytes) =
      crc32cRemainder bytes := by
    rw [crc32cRemainder, ← generator_reflectedPolynomial, allOnes_eq,
      reflected_absorb_allOnes reflectedPolynomial (by decide)]
  have hbits : ∀ i < 32, (crc32c bytes).testBit i =
      !decide ((crc32cRemainder bytes).coeff (31 - i) = 1) := by
    intro i hi
    rw [← hremainder, coeff_reflected, if_pos (by omega), decide_bit_eq_one,
      show 32 - 1 - (31 - i) = i by omega, crc32c, BitVec.testBit_toNat]
    generalize absorb reflectedPolynomial allOnes bytes = register
    rw [allOnes_eq, BitVec.xor_allOnes, BitVec.getLsbD_not, decide_eq_true hi, Bool.true_and]
  have hdigits : ((List.range 32).map fun i ↦ ((crc32c bytes).testBit i).toNat) =
      (List.range 32).map fun i ↦ (!decide ((crc32cRemainder bytes).coeff (31 - i) = 1)).toNat :=
    List.map_congr_left fun i hi ↦ by rw [hbits i (List.mem_range.1 hi)]
  rw [crc32cReference, ← hdigits, ofDigits_testBit, Nat.mod_eq_of_lt (crc32c_lt bytes)]

end ChronoStore
