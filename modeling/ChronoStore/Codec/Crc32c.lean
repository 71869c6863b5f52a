import ChronoStore.Codec.ByteCodec
import ChronoStore.Foundation.ShiftRegister

/-!
# Checksums, and damage they cannot miss

`crc32c.cpp` is a shift register of 32 bits, so it inherits the two injectivity laws of
`ShiftRegister`. Every checksummed frame of the store stores the little-endian checksum of a body
behind the body (`Sealed`), and the register run over a whole sealed frame always ends in the same
state (`absorb_of_sealed`). Two sealed frames of one length therefore cannot differ inside one
window of four bytes only — wherever the window lies, across the border of body and checksum
included (`Burst.eq_of_sealed`).

`Burst x y` says that `y` is `x` damaged inside one window of at most four bytes. It is stated by
positions, so that the damage to a part of a file is again a burst (`Burst.left`, `Burst.right`).

The formats also store some lengths next to their bitwise inverse. Corresponding bytes of the pair
are four bytes apart, just too far for one window to change both (`Burst.length_field_eq`).
-/

namespace ChronoStore

open ShiftRegister

/-- The reflected Castagnoli polynomial. -/
def reflectedPolynomial : BitVec 32 := 0x82F63B78#32

/-- The initial value of the register, and what it is xored with at the end. -/
def allOnes : BitVec 32 := 0xFFFFFFFF#32

/-- `crc32c`: byte by byte, bit by bit. -/
def crc32c (bytes : Bytes) : ℕ := (absorb reflectedPolynomial allOnes bytes ^^^ allOnes).toNat

/-- The test vector of `crc32c_test.cpp`. -/
example : crc32c (ascii "123456789") = 0xE3069283 := by decide +kernel

/-- A checksum fits into four bytes. -/
theorem crc32c_lt (bytes : Bytes) : crc32c bytes < 2 ^ 32 := BitVec.isLt _

/-- A frame that ends in the checksum of what stands before it. -/
def Sealed (frame : Bytes) : Prop := ∃ body, frame = body ++ writeU32 (crc32c body)

/-- The word of a byte string is the number it spells in little-endian order. -/
theorem word_eq_ofNat {w : ℕ} (bytes : Bytes) :
    (word bytes : BitVec w) = BitVec.ofNat w (littleEndian bytes) := by
  induction bytes with
  | nil => rfl
  | cons b bytes ih =>
    apply BitVec.eq_of_getLsbD_eq
    intro i hi
    have hbit : (b.toNat + 256 * littleEndian bytes).testBit i =
        if i < 8 then b.toNat.testBit i else (littleEndian bytes).testBit (i - 8) := by
      rw [Nat.add_comm]
      exact Nat.testBit_two_pow_mul_add (i := 8) _ b.toNat_lt i
    rw [BitVec.getLsbD_ofNat, littleEndian, hbit]
    by_cases h8 : i < 8
    · rw [getLsbD_word_cons_low b bytes h8 hi]
      simp [h8, hi]
    · obtain ⟨j, rfl⟩ : ∃ j, i = j + 8 := ⟨i - 8, by omega⟩
      rw [getLsbD_word_cons_high b bytes hi, ih, BitVec.getLsbD_ofNat]
      simp [hi, show j < w by omega]

/-- **The register forgets the body of a sealed frame**: it always ends in one state. -/
theorem absorb_of_sealed {frame : Bytes} (h : Sealed frame) :
    absorb reflectedPolynomial allOnes frame = shifts reflectedPolynomial 32 allOnes := by
  obtain ⟨body, rfl⟩ := h
  have hword : (word (writeU32 (crc32c body)) : BitVec 32) =
      absorb reflectedPolynomial allOnes body ^^^ allOnes := by
    rw [word_eq_ofNat, writeU32, littleEndian_writeUnsigned (crc32c_lt body), crc32c,
      BitVec.ofNat_toNat, BitVec.setWidth_eq]
  rw [absorb_append, absorb_eq_shifts _ (by simp), hword, length_writeU32, ← BitVec.xor_assoc,
    BitVec.xor_self, BitVec.zero_xor]

/-- `y` is `x` damaged somewhere, but only inside one window of at most four consecutive bytes. -/
def Burst (x y : Bytes) : Prop :=
  x.length = y.length ∧ x ≠ y ∧ ∃ start, ∀ i, x[i]? ≠ y[i]? → start ≤ i ∧ i < start + 4

namespace Burst

/-- The undamaged ends of a burst, and the window between them. -/
theorem window {x y : Bytes} (h : Burst x y) : ∃ before a b after, x = before ++ a ++ after ∧
    y = before ++ b ++ after ∧ a.length = b.length ∧ a.length ≤ 4 := by
  obtain ⟨hlen, -, start, hwin⟩ := h
  have hsplit : ∀ z : Bytes,
      z = z.take start ++ (z.drop start).take 4 ++ z.drop (start + 4) := by
    intro z
    rw [List.append_assoc, ← List.drop_drop, List.take_append_drop, List.take_append_drop]
  have hbefore : x.take start = y.take start := by
    refine List.ext_getElem? fun i ↦ ?_
    rw [List.getElem?_take, List.getElem?_take]
    by_contra hne
    split at hne
    · exact absurd (hwin i hne).1 (by omega)
    · exact hne rfl
  have hafter : x.drop (start + 4) = y.drop (start + 4) := by
    refine List.ext_getElem? fun i ↦ ?_
    rw [List.getElem?_drop, List.getElem?_drop]
    by_contra hne
    exact absurd (hwin _ hne).2 (by omega)
  refine ⟨y.take start, (x.drop start).take 4, (y.drop start).take 4, y.drop (start + 4), ?_,
    hsplit y, by simp [hlen], by simp⟩
  rw [← hbefore, ← hafter]
  exact hsplit x

/-- **A burst never turns a sealed frame into a sealed frame.** -/
theorem not_sealed {x y : Bytes} (h : Burst x y) (hx : Sealed x) : ¬Sealed y := by
  intro hy
  obtain ⟨before, a, b, after, rfl, rfl, hlen, ha⟩ := h.window
  have hmsb : reflectedPolynomial.msb = true := by decide
  have hreg : absorb reflectedPolynomial allOnes (before ++ a ++ after) =
      absorb reflectedPolynomial allOnes (before ++ b ++ after) := by
    rw [absorb_of_sealed hx, absorb_of_sealed hy]
  rw [absorb_append, absorb_append, absorb_append _ _ _ after, absorb_append] at hreg
  have hab : a = b :=
    absorb_injective_window hmsb hlen (by omega) (absorb_injective_state hmsb after hreg)
  exact h.2.1 (by rw [hab])

/-- Damage seen from the front part of a file. -/
theorem left {p p' q q' : Bytes} (h : Burst (p ++ q) (p' ++ q')) (hp : p.length = p'.length)
    (hne : p ≠ p') : Burst p p' := by
  obtain ⟨-, -, start, hwin⟩ := h
  refine ⟨hp, hne, start, fun i hi ↦ hwin i ?_⟩
  have hlt : i < p.length := by
    by_contra hge
    rw [List.getElem?_eq_none (by omega), List.getElem?_eq_none (by omega)] at hi
    exact hi rfl
  rwa [List.getElem?_append_left hlt, List.getElem?_append_left (hp ▸ hlt)]

/-- Damage seen from the rear part of a file. -/
theorem right {p p' q q' : Bytes} (h : Burst (p ++ q) (p' ++ q')) (hp : p.length = p'.length)
    (hne : q ≠ q') : Burst q q' := by
  obtain ⟨hlen, -, start, hwin⟩ := h
  rw [List.length_append, List.length_append] at hlen
  refine ⟨by omega, hne, start - p.length, fun i hi ↦ ?_⟩
  have := hwin (p.length + i) (by
    rwa [List.getElem?_append_right (by omega), List.getElem?_append_right (by omega),
      Nat.add_sub_cancel_left, hp, Nat.add_sub_cancel_left])
  omega

/-- Every damaged file splits where the original does. -/
theorem exists_append {p q y : Bytes} (h : Burst (p ++ q) y) :
    ∃ p' q', y = p' ++ q' ∧ p.length = p'.length ∧ q.length = q'.length := by
  have hlen := h.1
  rw [List.length_append] at hlen
  exact ⟨y.take p.length, y.drop p.length, (List.take_append_drop _ _).symm, by simp; omega,
    by simp; omega⟩

/-- Overwriting one byte with another is a burst. -/
theorem set {x : Bytes} {i : ℕ} {b : UInt8} (hne : x ≠ x.set i b) : Burst x (x.set i b) := by
  refine ⟨by simp, hne, i, fun j hj ↦ ?_⟩
  rw [List.getElem?_set] at hj
  split at hj
  · omega
  · exact absurd rfl hj

/-- One byte that is replaced by another is a burst. -/
theorem set_of_ne {x : Bytes} {i : ℕ} {b c : UInt8} (hc : x[i]? = some c) (hne : c ≠ b) :
    Burst x (x.set i b) := by
  refine set fun heq ↦ hne ?_
  obtain ⟨hlt, -⟩ := List.getElem?_eq_some_iff.1 hc
  rw [heq, List.getElem?_set_self hlt] at hc
  exact (Option.some.inj hc).symm

end Burst

/-! ### Lengths stored with their inverse -/

/-- The bitwise inverse of a 32-bit length. -/
def invert32 (length : ℕ) : ℕ := length ^^^ (2 ^ 32 - 1)

/-- Inverting the bits of a 32-bit number is a subtraction. -/
theorem invert32_eq {n : ℕ} (h : n < 2 ^ 32) : invert32 n = 2 ^ 32 - 1 - n := by
  have hbv : (BitVec.ofNat 32 n ^^^ BitVec.allOnes 32).toNat = (~~~BitVec.ofNat 32 n).toNat := by
    rw [BitVec.xor_allOnes]
  rw [BitVec.toNat_xor, BitVec.toNat_not, BitVec.toNat_ofNat, BitVec.toNat_allOnes,
    Nat.mod_eq_of_lt h] at hbv
  exact hbv

theorem invert32_lt {n : ℕ} (h : n < 2 ^ 32) : invert32 n < 2 ^ 32 := by
  rw [invert32_eq h]
  omega

/-- Bytes of complementary numbers are complementary. -/
theorem toNat_add_toNat_of_littleEndian_add {a b : Bytes} (hlen : a.length = b.length)
    (h : littleEndian a + littleEndian b + 1 = 256 ^ a.length) (i : ℕ) (hi : i < a.length)
    (hi' : i < b.length) : a[i].toNat + b[i].toNat = 255 := by
  induction a generalizing b i with
  | nil => simp at hi
  | cons x a ih =>
    obtain ⟨y, b, rfl⟩ := List.exists_cons_of_length_eq_add_one hlen.symm
    have hx := x.toNat_lt
    have hy := y.toNat_lt
    rw [littleEndian, littleEndian, List.length_cons, Nat.pow_succ] at h
    have hlow : x.toNat + y.toNat = 255 := by omega
    cases i with
    | zero => exact hlow
    | succ i =>
      have hlen' : a.length = b.length := by simpa using hlen
      exact ih hlen' (by omega) i (by simpa using hi) (by simpa using hi')

/-- **One window cannot change a length and its inverse together.** If both files store a number
next to its inverse at the same place, it is the same number. -/
theorem Burst.length_field_eq {x y : Bytes} (h : Burst x y) {p a b q p' a' b' q' : Bytes}
    (hx : x = p ++ (a ++ (b ++ q))) (hy : y = p' ++ (a' ++ (b' ++ q'))) (hp : p.length = p'.length)
    (ha : a.length = 4) (hb : b.length = 4) (ha' : a'.length = 4) (hb' : b'.length = 4)
    (hinv : littleEndian b = invert32 (littleEndian a))
    (hinv' : littleEndian b' = invert32 (littleEndian a')) : a = a' := by
  have hcompl : ∀ {u v : Bytes}, u.length = 4 → v.length = 4 →
      littleEndian v = invert32 (littleEndian u) →
      ∀ i (hu : i < u.length) (hv : i < v.length), u[i].toNat + v[i].toNat = 255 := by
    intro u v hu hv huv i hiu hiv
    have hlt := littleEndian_lt u
    rw [hu] at hlt
    have hlt' : littleEndian u < 2 ^ 32 := hlt
    rw [invert32_eq hlt'] at huv
    refine toNat_add_toNat_of_littleEndian_add (hu.trans hv.symm) ?_ i hiu hiv
    rw [hu, huv]
    omega
  by_contra hne
  obtain ⟨i, hi, hdiff⟩ : ∃ i, ∃ hi : i < 4, a[i] ≠ a'[i] := by
    by_contra hall
    exact hne (List.ext_getElem (ha.trans ha'.symm) fun i h₁ _ ↦
      not_not.1 fun hi ↦ hall ⟨i, by omega, hi⟩)
  have hdiff' : b[i] ≠ b'[i] := by
    intro hbb
    have h₁ := hcompl ha hb hinv i (by omega) (by omega)
    have h₂ := hcompl ha' hb' hinv' i (by omega) (by omega)
    rw [hbb] at h₁
    exact hdiff (UInt8.toNat_inj.1 (by omega))
  -- both bytes lie behind a common front part, four positions apart
  have hat : ∀ (front field rest : Bytes) (hf : i < field.length),
      (front ++ (field ++ rest))[front.length + i]? = some field[i] := by
    intro front field rest hf
    rw [List.getElem?_append_right (by omega), Nat.add_sub_cancel_left,
      List.getElem?_append_left hf, List.getElem?_eq_getElem hf]
  obtain ⟨-, -, start, hwin⟩ := h
  have hlow := hwin (p.length + i) (by
    rw [hx, hy, hat p a _ (by omega), hp, hat p' a' _ (by omega)]
    simpa using hdiff)
  have hhigh := hwin (p.length + 4 + i) (by
    have hfront : p.length + 4 = (p ++ a).length := by rw [List.length_append, ha]
    have hfront' : p.length + 4 = (p' ++ a').length := by rw [List.length_append, ha', hp]
    rw [hx, hy, ← List.append_assoc, ← List.append_assoc p', hfront, hat (p ++ a) b q (by omega),
      ← hfront, hfront', hat (p' ++ a') b' q' (by omega)]
    simpa using hdiff')
  omega

end ChronoStore
