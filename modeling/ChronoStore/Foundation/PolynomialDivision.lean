import ChronoStore.Foundation.ShiftRegister
import Mathlib.Algebra.Field.ZMod
import Mathlib.Algebra.Polynomial.Div

/-!
# A reflected shift register divides polynomials

A bit string is a polynomial over the field of two elements, the first bit being the leading
coefficient (`message`), and a register is one too, its lowest bit being the leading coefficient
(`reflected`). One shift of a register multiplies by `X` and subtracts the **generator** if a
leading bit fell out (`reflected_shift`), so the register is at every moment the remainder of what
it has absorbed so far.

The register is preset with ones. In terms of division this inverts the first `w` bits of the
message, after `w` zero bits have been appended to it — which is how a message of fewer than `w`
bits is to be understood (`reflected_absorb_allOnes`).
-/

namespace ShiftRegister

open Polynomial

/-! ### Bits as coefficients -/

/-- A bit as a coefficient. -/
def bit (b : Bool) : ZMod 2 := if b then 1 else 0

@[simp] theorem bit_false : bit false = 0 := rfl

@[simp] theorem bit_true : bit true = 1 := rfl

/-- Exclusive or is addition of coefficients. -/
theorem bit_xor (a b : Bool) : bit (a ^^ b) = bit a + bit b := by
  cases a <;> cases b <;> decide

/-- And is multiplication. -/
theorem bit_and (a b : Bool) : bit (a && b) = bit a * bit b := by
  cases a <;> cases b <;> decide

/-- The characteristic is two. -/
theorem bit_add_self (b : Bool) : bit b + bit b = 0 := by
  cases b <;> decide

theorem decide_bit_eq_one (b : Bool) : decide (bit b = 1) = b := by
  cases b <;> decide

/-! ### Messages -/

/-- The polynomial of a bit string; the first bit is the leading coefficient. -/
noncomputable def message : List Bool → (ZMod 2)[X]
  | [] => 0
  | b :: bits => C (bit b) * X ^ bits.length + message bits

/-- A message that is continued is multiplied by a power of the variable. -/
theorem message_append (u v : List Bool) :
    message (u ++ v) = message u * X ^ v.length + message v := by
  induction u with
  | nil => simp [message]
  | cons b u ih =>
    rw [List.cons_append, message, ih, message, List.length_append, pow_add]
    ring

theorem message_replicate_false (n : ℕ) : message (List.replicate n false) = 0 := by
  induction n with
  | zero => rfl
  | succ n ih => rw [List.replicate_succ, message, ih, bit_false, C_0, zero_mul, zero_add]

/-- Inverting all bits adds a string of ones. -/
theorem message_map_not (bits : List Bool) :
    message (bits.map not) = message bits + message (List.replicate bits.length true) := by
  induction bits with
  | nil => simp [message]
  | cons b bits ih =>
    have hb : bit (!b) = bit b + bit true := by cases b <;> decide
    rw [List.map_cons, message, ih, List.length_cons, List.replicate_succ, message, message, hb,
      C_add, List.length_map, List.length_replicate]
    ring

/-- The first `n` bits inverted. -/
def invertFirst (n : ℕ) (bits : List Bool) : List Bool := (bits.take n).map not ++ bits.drop n

/-- Inverting the first bits of a message adds a run of ones in their place. -/
theorem message_invertFirst {n : ℕ} {bits : List Bool} (h : n ≤ bits.length) :
    message (invertFirst n bits) =
      message bits + message (List.replicate n true) * X ^ (bits.length - n) := by
  have hsplit : message bits = message (bits.take n) * X ^ (bits.length - n) +
      message (bits.drop n) := by
    conv_lhs => rw [← List.take_append_drop n bits]
    rw [message_append, List.length_drop]
  rw [invertFirst, message_append, message_map_not, List.length_take_of_le h, List.length_drop,
    hsplit]
  ring

/-- The bits of a byte, the least significant first. -/
def byteBits (b : UInt8) : List Bool := (List.range 8).map b.toNat.testBit

/-- The bits of a byte string, the least significant bit of each byte first. -/
def messageBits (bytes : List UInt8) : List Bool := bytes.flatMap byteBits

/-- A byte has eight bits. -/
theorem length_messageBits (bytes : List UInt8) :
    (messageBits bytes).length = 8 * bytes.length := by
  induction bytes with
  | nil => rfl
  | cons b bytes ih =>
    rw [messageBits, List.flatMap_cons, List.length_append, ← messageBits, ih, byteBits,
      List.length_map, List.length_range, List.length_cons]
    ring

/-- The coefficients of a message, from its last bit on. -/
theorem coeff_message (bits : List Bool) (k : ℕ) :
    (message bits).coeff k = if k < bits.length then bit (bits.getD (bits.length - 1 - k) false)
    else 0 := by
  induction bits with
  | nil => simp [message]
  | cons b bits ih =>
    rw [message, coeff_add, coeff_C_mul_X_pow, ih, List.length_cons]
    rcases Nat.lt_trichotomy k bits.length with hlt | rfl | hgt
    · obtain ⟨i, hi⟩ : ∃ i, bits.length - k = i + 1 := ⟨bits.length - k - 1, by omega⟩
      have hi' : bits.length - 1 - k = i := by omega
      simp [hlt.ne, hlt, Nat.lt_succ_of_lt hlt, hi, hi']
    · simp
    · simp [hgt.ne', Nat.lt_asymm hgt, Nat.not_lt.2 hgt]

/-! ### Registers -/

variable {w : ℕ} (p : BitVec w)

/-- The polynomial of a register; the lowest bit is the leading coefficient. -/
noncomputable def reflected (s : BitVec w) : (ZMod 2)[X] :=
  ∑ i ∈ Finset.range w, C (bit (s.getLsbD (w - 1 - i))) * X ^ i

/-- The polynomial by which a register divides. -/
noncomputable def generator : (ZMod 2)[X] := X ^ w + reflected p

/-- The coefficients of a register, whose lowest bit stands for the highest power. -/
theorem coeff_reflected (s : BitVec w) (k : ℕ) :
    (reflected s).coeff k = if k < w then bit (s.getLsbD (w - 1 - k)) else 0 := by
  rw [reflected, finsetSum_coeff]
  simp only [coeff_C_mul_X_pow, Finset.sum_ite_eq, Finset.mem_range]

/-- A register stands for a remainder. -/
theorem degree_reflected_lt (s : BitVec w) : (reflected s).degree < w := by
  rw [degree_lt_iff_coeff_zero]
  intro k hk
  rw [coeff_reflected, if_neg (not_lt.2 hk)]

/-- The generator has a leading one, which the register leaves out. -/
theorem monic_generator : (generator p).Monic := monic_X_pow_add (degree_reflected_lt p)

theorem degree_generator : (generator p).degree = w := by
  rw [generator, degree_add_eq_left_of_degree_lt]
  · exact degree_X_pow w
  · rw [degree_X_pow]
    exact degree_reflected_lt p

/-- Exclusive or of registers is addition of polynomials. -/
theorem reflected_xor (s t : BitVec w) : reflected (s ^^^ t) = reflected s + reflected t := by
  ext k
  rw [coeff_add, coeff_reflected, coeff_reflected, coeff_reflected, BitVec.getLsbD_xor, bit_xor]
  split
  · rfl
  · rw [add_zero]

/-- A register full of ones. -/
theorem reflected_allOnes : reflected (BitVec.allOnes w) = message (List.replicate w true) := by
  ext k
  rw [coeff_reflected, coeff_message, List.length_replicate]
  split
  · rename_i hk
    have hlast : w - 1 - k < w := by omega
    simp [hlast, List.getD_eq_getElem?_getD]
  · rfl

/-- **One shift** multiplies by `X`, and subtracts the generator if the leading bit was set. -/
theorem reflected_shift (hw : 0 < w) (s : BitVec w) :
    reflected (shift p s) = X * reflected s + C (bit (s.getLsbD 0)) * generator p := by
  have hbit : ∀ i, (shift p s).getLsbD i = (s.getLsbD (1 + i) ^^ (s.getLsbD 0 && p.getLsbD i)) := by
    intro i
    unfold shift
    cases s.getLsbD 0 <;> simp [BitVec.getLsbD_ushiftRight]
  ext k
  rw [coeff_add, coeff_C_mul, generator, coeff_add, coeff_X_pow, coeff_reflected, coeff_reflected,
    hbit, bit_xor, bit_and]
  cases k with
  | zero =>
    have hout : s.getLsbD (1 + (w - 1 - 0)) = false := BitVec.getLsbD_of_ge _ _ (by omega)
    rw [coeff_X_mul_zero, if_pos hw, if_pos hw, hout, if_neg (by omega), bit_false, zero_add,
      zero_add, zero_add]
  | succ k =>
    rw [coeff_X_mul, coeff_reflected]
    rcases Nat.lt_trichotomy (k + 1) w with hlt | heq | hgt
    · rw [if_pos hlt, if_pos hlt, if_pos (by omega), if_neg hlt.ne, zero_add,
        show 1 + (w - 1 - (k + 1)) = w - 1 - k by omega]
    · rw [if_neg (show ¬k + 1 < w by omega), if_pos (show k < w by omega), if_pos heq,
        if_neg (show ¬k + 1 < w by omega), add_zero, mul_one, show w - 1 - k = 0 by omega,
        bit_add_self]
    · rw [if_neg (show ¬k + 1 < w by omega), if_neg (show ¬k < w by omega), if_neg hgt.ne',
        if_neg (show ¬k + 1 < w by omega), add_zero, mul_zero, add_zero]

/-- Shifts multiply by a power of the variable, up to a multiple of the generator. -/
theorem reflected_shifts (hw : 0 < w) (n : ℕ) (s : BitVec w) :
    ∃ q, reflected (shifts p n s) = X ^ n * reflected s + q * generator p := by
  induction n generalizing s with
  | zero => exact ⟨0, by simp [shifts]⟩
  | succ n ih =>
    obtain ⟨q, hq⟩ := ih (shift p s)
    refine ⟨X ^ n * C (bit (s.getLsbD 0)) + q, ?_⟩
    rw [shifts, hq, reflected_shift p hw, pow_succ]
    ring

/-- A byte at the low end of a register stands in front of everything the register still has to do.
-/
theorem reflected_byte (hw : 8 ≤ w) (b : UInt8) :
    X ^ 8 * reflected (BitVec.ofNat w b.toNat) = X ^ w * message (byteBits b) := by
  ext k
  have hbyte : (byteBits b).length = 8 := rfl
  have hhigh : ∀ i, 8 ≤ i → b.toNat.testBit i = false := fun i hi ↦
    Nat.testBit_lt_two_pow (b.toNat_lt.trans_le (Nat.pow_le_pow_right (by decide) hi))
  have hget : ∀ i < 8, (byteBits b).getD i false = b.toNat.testBit i := by
    intro i hi
    simp [byteBits, List.getD_eq_getElem?_getD, hi]
  rw [coeff_X_pow_mul', coeff_X_pow_mul', coeff_reflected, coeff_message, hbyte,
    BitVec.getLsbD_ofNat]
  rcases Nat.lt_or_ge k w with hlt | hge
  · rw [if_neg (not_le.2 hlt)]
    split
    · rw [hhigh _ (by omega), Bool.and_false, bit_false, if_pos (by omega)]
    · rfl
  · rw [if_pos hge, if_pos (hw.trans hge)]
    by_cases hin : k - w < 8
    · rw [if_pos hin, if_pos (by omega), hget _ (by omega),
        show w - 1 - (k - 8) = 8 - 1 - (k - w) by omega,
        decide_eq_true (show 8 - 1 - (k - w) < w by omega), Bool.true_and]
    · rw [if_neg hin, if_neg (by omega)]

/-- **What a register has absorbed**, up to a multiple of the generator. -/
theorem reflected_absorb (hw : 8 ≤ w) (s : BitVec w) (bytes : List UInt8) :
    ∃ q, reflected (absorb p s bytes) =
      X ^ (8 * bytes.length) * reflected s + X ^ w * message (messageBits bytes) + q *
        generator p := by
  induction bytes generalizing s with
  | nil => exact ⟨0, by simp [absorb, messageBits, message]⟩
  | cons b bytes ih =>
    obtain ⟨q₁, h₁⟩ := reflected_shifts p (by omega) 8 (s ^^^ BitVec.ofNat w b.toNat)
    obtain ⟨q₂, h₂⟩ := ih (absorbByte p s b)
    have hbyte : reflected (absorbByte p s b) =
        X ^ 8 * reflected s + X ^ w * message (byteBits b) + q₁ * generator p := by
      rw [absorbByte, h₁, reflected_xor, mul_add, reflected_byte hw]
    have hbits : message (messageBits (b :: bytes)) =
        message (byteBits b) * X ^ (8 * bytes.length) + message (messageBits bytes) := by
      rw [messageBits, List.flatMap_cons, message_append, ← messageBits, length_messageBits]
    refine ⟨X ^ (8 * bytes.length) * q₁ + q₂, ?_⟩
    rw [absorb, List.foldl_cons, ← absorb, h₂, hbyte, hbits, List.length_cons,
      show 8 * (bytes.length + 1) = 8 * bytes.length + 8 by ring, pow_add]
    ring

/-- **A preset register is a remainder**: of the message, with `w` zero bits appended and the first
`w` bits of the whole inverted, by the generator. -/
theorem reflected_absorb_allOnes (hw : 8 ≤ w) (bytes : List UInt8) :
    reflected (absorb p (BitVec.allOnes w) bytes) =
      message (invertFirst w (messageBits bytes ++ List.replicate w false)) %ₘ generator p := by
  obtain ⟨q, hq⟩ := reflected_absorb p hw (BitVec.allOnes w) bytes
  have hmessage : message (invertFirst w (messageBits bytes ++ List.replicate w false)) =
      X ^ (8 * bytes.length) * reflected (BitVec.allOnes w) + X ^ w *
        message (messageBits bytes) := by
    rw [message_invertFirst (by simp), message_append, message_replicate_false, List.length_append,
      List.length_replicate, Nat.add_sub_cancel, length_messageBits, reflected_allOnes]
    ring
  refine (div_modByMonic_unique (-q) _ (monic_generator p) ⟨?_, ?_⟩).2.symm
  · rw [hq, hmessage]
    ring
  · rw [degree_generator]
    exact degree_reflected_lt _

end ShiftRegister
