import Mathlib.Data.List.Basic
import Mathlib.Tactic.Ring
import Mathlib.Tactic.Basic

/-!
# Reflected linear feedback shift registers

The register loop behind a cyclic redundancy check, least significant bit first: a byte is xored
into the low end of the register, then eight single-bit shifts feed the polynomial back whenever a
set bit falls out. The width `w` and the feedback word `p` are arbitrary; the only law asked of `p`
is that its top bit is set, which is what makes one shift **injective** (`shift_injective`) — a
register never forgets.

## Bursts

The shifts are linear over xor, so absorbing a window of at most `w` bits is one long shift of the
register xored with the window read as a word (`absorb_eq_shifts`). Two different windows therefore
leave different registers, and whatever follows keeps them apart:

* `absorb_injective_window` — a register tells windows of the same length apart;
* `absorb_injective_state` — and no common continuation makes two registers meet.
-/

namespace ShiftRegister

variable {w : ℕ} (p : BitVec w)

/-- One shift: move down, and feed `p` back if a set bit fell out. -/
def shift (s : BitVec w) : BitVec w :=
  if s.getLsbD 0 then (s >>> 1) ^^^ p else s >>> 1

/-- `n` shifts in a row. -/
def shifts : ℕ → BitVec w → BitVec w
  | 0, s => s
  | n + 1, s => shifts n (shift p s)

/-- Xor a byte into the low end and shift it through. -/
def absorbByte (s : BitVec w) (b : UInt8) : BitVec w :=
  shifts p 8 (s ^^^ BitVec.ofNat w b.toNat)

/-- Absorb a byte string, first byte first. -/
def absorb (s : BitVec w) (bytes : List UInt8) : BitVec w :=
  bytes.foldl (absorbByte p) s

/-- A byte string read as one word, first byte at the low end. -/
def word : List UInt8 → BitVec w
  | [] => 0
  | b :: bytes => BitVec.ofNat w b.toNat ^^^ (word bytes <<< 8)

/-! ### Linearity -/

/-- A shift is linear. -/
theorem shift_xor (a b : BitVec w) : shift p (a ^^^ b) = shift p a ^^^ shift p b := by
  apply BitVec.eq_of_getLsbD_eq
  intro i _
  -- bit by bit, a shift is the next bit xored with the fed back one
  have hbit : ∀ s : BitVec w,
      (shift p s).getLsbD i = (s.getLsbD (1 + i) ^^ (s.getLsbD 0 && p.getLsbD i)) := by
    intro s
    unfold shift
    cases s.getLsbD 0 <;> simp [BitVec.getLsbD_ushiftRight]
  rw [BitVec.getLsbD_xor, hbit, hbit, hbit, BitVec.getLsbD_xor, BitVec.getLsbD_xor]
  cases a.getLsbD 0 <;> cases b.getLsbD 0 <;> cases p.getLsbD i <;> simp

/-- Shifts are linear. -/
theorem shifts_xor (n : ℕ) (a b : BitVec w) :
    shifts p n (a ^^^ b) = shifts p n a ^^^ shifts p n b := by
  induction n generalizing a b with
  | zero => rfl
  | succ n ih => rw [shifts, shift_xor, ih, shifts, shifts]

/-- Shifts add up. -/
theorem shifts_add (m n : ℕ) (s : BitVec w) : shifts p (m + n) s = shifts p n (shifts p m s) := by
  induction m generalizing s with
  | zero => simp [shifts]
  | succ m ih => rw [Nat.succ_add, shifts, ih, shifts]

/-! ### A register never forgets -/

section Injective

variable {p} (hp : p.msb = true)

include hp

/-- **One shift is injective**: the fed back top bit records that a set bit fell out. -/
theorem shift_injective : Function.Injective (shift p) := by
  have hw : 0 < w := by
    rcases Nat.eq_zero_or_pos w with rfl | h
    · simp [BitVec.msb, BitVec.getMsbD] at hp
    · exact h
  have htop : p.getLsbD (w - 1) = true := by
    rwa [BitVec.msb_eq_getLsbD_last] at hp
  -- the top bit of a shifted register tells which branch was taken
  have hbit : ∀ s : BitVec w, (shift p s).getLsbD (w - 1) = s.getLsbD 0 := by
    intro s
    have hout : s.getLsbD (1 + (w - 1)) = false := BitVec.getLsbD_of_ge _ _ (by omega)
    unfold shift
    cases hs : s.getLsbD 0 <;> simp [BitVec.getLsbD_ushiftRight, hout, htop]
  intro a b hab
  have h0 : a.getLsbD 0 = b.getLsbD 0 := by rw [← hbit a, ← hbit b, hab]
  have hshift : a >>> 1 = b >>> 1 := by
    unfold shift at hab
    rw [h0] at hab
    split at hab
    · exact BitVec.xor_left_inj _ |>.1 hab
    · exact hab
  apply BitVec.eq_of_getLsbD_eq
  intro i _
  cases i with
  | zero => exact h0
  | succ i =>
    have := congrArg (fun s : BitVec w ↦ s.getLsbD i) hshift
    simpa [BitVec.getLsbD_ushiftRight, Nat.add_comm] using this

/-- Different registers stay different. -/
theorem shifts_injective (n : ℕ) : Function.Injective (shifts p n) := by
  induction n with
  | zero => exact fun _ _ h ↦ h
  | succ n ih => exact fun a b h ↦ shift_injective hp (ih h)

/-- **No common continuation makes two registers meet.** -/
theorem absorb_injective_state (bytes : List UInt8) :
    Function.Injective fun s ↦ absorb p s bytes := by
  induction bytes with
  | nil => exact fun _ _ h ↦ h
  | cons b bytes ih =>
    intro s t hst
    have hbyte : absorbByte p s b = absorbByte p t b := ih hst
    exact (BitVec.xor_left_inj _).1 (shifts_injective hp 8 hbyte)

end Injective

/-! ### A window is one word -/

/-- A register with its low bits clear only moves down. -/
theorem shifts_of_low_clear {s : BitVec w} {n : ℕ} (h : ∀ i < n, s.getLsbD i = false) :
    shifts p n s = s >>> n := by
  induction n generalizing s with
  | zero => simp [shifts]
  | succ n ih =>
    have hs : shift p s = s >>> 1 := by rw [shift, h 0 (by omega)]; rfl
    have hclear : ∀ i < n, (s >>> 1).getLsbD i = false := by
      intro i hi
      rw [BitVec.getLsbD_ushiftRight]
      exact h (1 + i) (by omega)
    rw [shifts, hs, ih hclear, ← BitVec.shiftRight_add, Nat.add_comm]

/-- A word has no bits above its last byte. -/
theorem getLsbD_word_of_ge (bytes : List UInt8) {i : ℕ} (hi : 8 * bytes.length ≤ i) :
    (word bytes : BitVec w).getLsbD i = false := by
  induction bytes generalizing i with
  | nil => simp [word]
  | cons b bytes ih =>
    rw [List.length_cons] at hi
    have hb : b.toNat.testBit i = false :=
      Nat.testBit_lt_two_pow (b.toNat_lt.trans_le (Nat.pow_le_pow_right (by decide) (by omega)))
    rw [word, BitVec.getLsbD_xor, BitVec.getLsbD_ofNat, hb, BitVec.getLsbD_shiftLeft,
      ih (i := i - 8) (by omega)]
    simp

/-- The low byte of a word is its first byte. -/
theorem getLsbD_word_cons_low (b : UInt8) (bytes : List UInt8) {i : ℕ} (hi : i < 8) (hw : i < w) :
    (word (b :: bytes) : BitVec w).getLsbD i = b.toNat.testBit i := by
  rw [word, BitVec.getLsbD_xor, BitVec.getLsbD_ofNat, BitVec.getLsbD_shiftLeft]
  simp [hi, hw]

/-- Above the low byte a word is the word of the remaining bytes. -/
theorem getLsbD_word_cons_high (b : UInt8) (bytes : List UInt8) {i : ℕ} (hw : i + 8 < w) :
    (word (b :: bytes) : BitVec w).getLsbD (i + 8) = (word bytes : BitVec w).getLsbD i := by
  have hb : b.toNat.testBit (i + 8) = false :=
    Nat.testBit_lt_two_pow (b.toNat_lt.trans_le (Nat.pow_le_pow_right (by decide) (by omega)))
  rw [word, BitVec.getLsbD_xor, BitVec.getLsbD_ofNat, hb, BitVec.getLsbD_shiftLeft]
  simp [hw]

/-- Reading a byte string as a word loses nothing while it fits. -/
theorem word_injective {x y : List UInt8} (hlen : x.length = y.length) (hx : 8 * x.length ≤ w)
    (h : (word x : BitVec w) = word y) : x = y := by
  induction x generalizing y with
  | nil => exact (List.length_eq_zero_iff.1 hlen.symm).symm
  | cons a x ih =>
    obtain ⟨b, y, rfl⟩ := List.exists_cons_of_length_eq_add_one hlen.symm
    rw [List.length_cons] at hx
    have hab : a = b := by
      refine UInt8.toNat_inj.1 (Nat.eq_of_testBit_eq fun i ↦ ?_)
      by_cases hi : i < 8
      · rw [← getLsbD_word_cons_low (w := w) a x hi (by omega), h,
          getLsbD_word_cons_low b y hi (by omega)]
      · have hpow : (2 : ℕ) ^ 8 ≤ 2 ^ i := Nat.pow_le_pow_right (by decide) (by omega)
        rw [Nat.testBit_lt_two_pow (a.toNat_lt.trans_le hpow),
          Nat.testBit_lt_two_pow (b.toNat_lt.trans_le hpow)]
    have hlen' : x.length = y.length := by simpa using hlen
    have htail : (word x : BitVec w) = word y := by
      apply BitVec.eq_of_getLsbD_eq
      intro i _
      by_cases hi : i + 8 < w
      · rw [← getLsbD_word_cons_high a x hi, h, getLsbD_word_cons_high b y hi]
      · rw [getLsbD_word_of_ge x (by omega), getLsbD_word_of_ge y (by omega)]
    rw [hab, ih hlen' (by omega) htail]

/-- Eight shifts bring a word back down past its low byte. -/
theorem shifts_word_shiftLeft {bytes : List UInt8} (h : 8 * bytes.length + 8 ≤ w) :
    shifts p 8 (word bytes <<< 8) = word bytes := by
  rw [shifts_of_low_clear p (fun i hi ↦ by simp [BitVec.getLsbD_shiftLeft, hi])]
  apply BitVec.eq_of_getLsbD_eq
  intro i _
  rw [BitVec.getLsbD_ushiftRight, BitVec.getLsbD_shiftLeft]
  by_cases hi : 8 + i < w
  · simp [hi]
  · have hout : (word bytes : BitVec w).getLsbD i = false := getLsbD_word_of_ge bytes (by omega)
    simp [hi, hout]

/-- **Absorbing a window is one long shift** of the register xored with the window's word. -/
theorem absorb_eq_shifts {bytes : List UInt8} (h : 8 * bytes.length ≤ w) (s : BitVec w) :
    absorb p s bytes = shifts p (8 * bytes.length) (s ^^^ word bytes) := by
  induction bytes generalizing s with
  | nil => simp [absorb, shifts, word]
  | cons b bytes ih =>
    rw [List.length_cons] at h
    have hword : shifts p 8 (s ^^^ word (b :: bytes)) = absorbByte p s b ^^^ word bytes := by
      rw [word, ← BitVec.xor_assoc, shifts_xor, shifts_word_shiftLeft p (by omega), absorbByte]
    rw [absorb, List.foldl_cons, ← absorb, ih (by omega), List.length_cons,
      show 8 * (bytes.length + 1) = 8 + 8 * bytes.length by ring, shifts_add, hword]

/-- A text that is continued is absorbed from where its first part has led to. -/
theorem absorb_append (s : BitVec w) (x y : List UInt8) :
    absorb p s (x ++ y) = absorb p (absorb p s x) y :=
  List.foldl_append

/-- **A register tells windows apart** that are not wider than itself. -/
theorem absorb_injective_window {p : BitVec w} (hp : p.msb = true) {s : BitVec w} {x y : List UInt8}
    (hlen : x.length = y.length) (hx : 8 * x.length ≤ w) (h : absorb p s x = absorb p s y) :
    x = y := by
  rw [absorb_eq_shifts p hx, absorb_eq_shifts p (hlen ▸ hx), hlen] at h
  have hword : s ^^^ word x = s ^^^ word y := shifts_injective hp _ h
  exact word_injective hlen hx ((BitVec.xor_right_inj _).1 hword)

end ShiftRegister
