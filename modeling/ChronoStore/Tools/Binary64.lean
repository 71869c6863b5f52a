import ChronoStore.Foundation.RadixRounding
import ChronoStore.Model

/-!
# The numbers of the bit patterns

The store keeps the 64 bits of a `double` and never looks at them; the tools do, when they read and
print numbers. The lower 63 bits, taken as an integer, count the magnitudes that there are in order,
from zero on (`magnitude`), and the number with a coefficient and an exponent has its place in this
order by adding the two (`encode`): where the coefficient runs over, the exponent grows.

What is rounded to 17 decimal digits and back is the same magnitude (`encode_round_round`).
-/

namespace ChronoStore.Binary64

open RadixRounding

/-- 53 binary digits and the least exponent. -/
def format : Format := ⟨2, 53, some (-1074), by decide, by decide⟩

/-- So many decimal digits, of any exponent. -/
def decimalFormat : Format := ⟨10, 17, none, by decide, by decide⟩

/-- The bits of a magnitude that are not the sign. -/
def encode (s : Scaled) : ℕ := (s.exponent + 1074).toNat * 2 ^ 52 + s.coefficient

/-- Coefficient and exponent of a bit pattern; the first ones have no leading bit of their own. -/
def magnitude (k : ℕ) : Scaled :=
  if k / 2 ^ 52 = 0 then ⟨k, -1074⟩ else ⟨2 ^ 52 + k % 2 ^ 52, (k / 2 ^ 52 : ℕ) - 1075⟩

/-- The bit pattern of infinity, above all finite ones. -/
def infinity : ℕ := 0x7FF * 2 ^ 52

/-- The magnitude of a double has its bits as its code. -/
theorem encode_magnitude (k : ℕ) : encode (magnitude k) = k := by
  unfold encode magnitude
  split <;> dsimp only <;> omega

/-- The magnitude of a double is in canonical form. -/
theorem canonical_magnitude (k : ℕ) : format.Canonical (magnitude k) where
  coefficient_le := by
    show (magnitude k).coefficient ≤ 2 ^ 53
    unfold magnitude
    split <;> dsimp only <;> omega
  least_le := by
    rintro m hm
    obtain rfl : -1074 = m := Option.some.inj hm
    unfold magnitude
    split <;> dsimp only <;> omega
  full := by
    show some (-1074) = _ ∨ 2 ^ 52 ≤ _
    unfold magnitude
    split
    · exact Or.inl rfl
    · exact Or.inr (Nat.le_add_right _ _)

theorem coefficient_magnitude_lt (k : ℕ) : (magnitude k).coefficient < 2 ^ 53 := by
  unfold magnitude
  split <;> dsimp only <;> omega

/-- **The order of the bits is that of the numbers**: a number has the value of its bit pattern. -/
theorem value_magnitude_encode {s : Scaled} (hs : format.Canonical s) :
    (magnitude (encode s)).value 2 = s.value 2 := by
  obtain ⟨c, e⟩ := s
  obtain ⟨⟨hle, hleast⟩, hfull⟩ := hs
  have hc : c ≤ 2 ^ 53 := hle
  have he : -1074 ≤ e := hleast _ rfl
  obtain ⟨a, rfl⟩ : ∃ a : ℕ, e = a - 1074 := ⟨(e + 1074).toNat, by omega⟩
  have hencode : encode ⟨c, a - 1074⟩ = a * 2 ^ 52 + c := by
    unfold encode
    dsimp only
    omega
  have hfull : a = 0 ∨ 2 ^ 52 ≤ c :=
    hfull.imp (fun h ↦ by have : (-1074 : ℤ) = a - 1074 := Option.some.inj h; omega) id
  rw [hencode]
  by_cases hsmall : a * 2 ^ 52 + c < 2 ^ 52
  · obtain rfl : a = 0 := by omega
    rw [magnitude, if_pos (by omega)]
    simp
  by_cases htop : c = 2 ^ 53
  · -- the coefficient runs over into the exponent
    have hquot : (a * 2 ^ 52 + c) / 2 ^ 52 = a + 2 := by omega
    have hrest : (a * 2 ^ 52 + c) % 2 ^ 52 = 0 := by omega
    rw [magnitude, if_neg (by omega), hquot, hrest, htop, Scaled.value, Scaled.value]
    rw [show ((a + 2 : ℕ) : ℤ) - 1075 = (a - 1074) + 1 by push_cast; ring,
      zpow_add_one₀ (by norm_num)]
    push_cast
    ring
  · have hquot : (a * 2 ^ 52 + c) / 2 ^ 52 = a + 1 := by omega
    have hrest : 2 ^ 52 + (a * 2 ^ 52 + c) % 2 ^ 52 = c := by omega
    rw [magnitude, if_neg (by omega), hquot, hrest]
    rw [show ((a + 1 : ℕ) : ℤ) - 1075 = a - 1074 by push_cast; ring]

/-- A canonical number with the value of a double has its bits as its code. -/
theorem encode_eq_of_value_eq {s : Scaled} (hs : format.Canonical s) {k : ℕ}
    (h : s.value 2 = (magnitude k).value 2) : encode s = k := by
  have hsame : magnitude (encode s) = magnitude k :=
    (canonical_magnitude _).eq_of_value_eq (canonical_magnitude k) (coefficient_magnitude_lt _)
      (coefficient_magnitude_lt k) ((value_magnitude_encode hs).trans h)
  rw [← encode_magnitude (encode s), hsame, encode_magnitude]

theorem value_magnitude_pos {k : ℕ} (hk : k ≠ 0) : 0 < (magnitude k).value 2 := by
  refine mul_pos ?_ (format.unit_pos _)
  have hpos : 0 < (magnitude k).coefficient := by
    unfold magnitude
    split <;> dsimp only <;> omega
  exact_mod_cast hpos

/-- **Seventeen digits are enough**: rounded to them and back, a magnitude is the same. -/
theorem encode_round_round {k : ℕ} (hk : k ≠ 0) :
    0 < (decimalFormat.round ((magnitude k).value 2)).value 10 ∧
      encode (format.round ((decimalFormat.round ((magnitude k).value 2)).value 10)) = k := by
  obtain ⟨hpos, hsame⟩ := (canonical_magnitude k).value_round_round decimalFormat
    (value_magnitude_pos hk) rfl (by decide +kernel)
  exact ⟨hpos, encode_eq_of_value_eq (format.canonical_round hpos) hsame⟩

end ChronoStore.Binary64
