import Mathlib.Algebra.Order.Floor.Semiring
import Mathlib.Data.Int.Log
import Mathlib.Data.Rat.Floor
import Mathlib.Tactic.FieldSimp
import Mathlib.Tactic.Linarith
import Mathlib.Tactic.Positivity

/-!
# Rounding to a number of digits

To write a positive number with so many digits of some radix is to choose the exponent at which it
has that many digits before the point, and to round what it is there to an integer, halfway cases to
the even one (`Format.round`). A format may have a least exponent; numbers that are too small for it
lose digits. Printing a number with a precision is this in a decimal format, and reading the nearest
floating-point number is this in a binary one.

* `Format.abs_sub_round_le`: no number of the format is nearer than the one that is rounded to.
* `Format.value_round_round`: a number of a format, rounded to digits of any other radix and back,
  is the number again, as soon as the powers that bound the digits are apart. For 53 binary and 17
  decimal digits this is `2 ^ 53 < 10 ^ 16`.
-/

namespace RadixRounding

variable {x : ℚ}

/-! ### Rounding to an integer -/

/-- The nearest integer, and of two the even one. -/
def roundHalfEven (x : ℚ) : ℕ :=
  let k := ⌊x⌋₊
  if x - k < 1 / 2 then k
  else if 1 / 2 < x - k then k + 1
  else if k % 2 = 0 then k
  else k + 1

/-- Rounding goes down to the floor and not below it. -/
theorem floor_le_roundHalfEven (x : ℚ) : ⌊x⌋₊ ≤ roundHalfEven x := by
  unfold roundHalfEven
  dsimp only
  split_ifs <;> omega

/-- Rounding moves a number by a half at most. -/
theorem abs_sub_roundHalfEven_le_half (hx : 0 ≤ x) : |x - roundHalfEven x| ≤ 1 / 2 := by
  have hlow := Nat.floor_le hx
  have hhigh := Nat.lt_floor_add_one x
  unfold roundHalfEven
  dsimp only
  split_ifs <;> push_cast <;> rw [abs_le] <;> constructor <;> linarith

/-- **No integer is nearer.** -/
theorem abs_sub_roundHalfEven_le (hx : 0 ≤ x) (k : ℤ) : |x - roundHalfEven x| ≤ |x - k| := by
  have hhalf := abs_sub_roundHalfEven_le_half hx
  by_cases hk : k = roundHalfEven x
  · rw [hk, Int.cast_natCast]
  · have hapart : (1 : ℚ) ≤ |((roundHalfEven x : ℤ) : ℚ) - k| := by
      have hint : 1 ≤ |(roundHalfEven x : ℤ) - k| := Int.one_le_abs (sub_ne_zero.2 (Ne.symm hk))
      exact_mod_cast hint
    have htriangle := abs_sub_le ((roundHalfEven x : ℤ) : ℚ) x k
    rw [Int.cast_natCast, abs_sub_comm (roundHalfEven x : ℚ) x] at htriangle
    rw [Int.cast_natCast] at hapart
    linarith

/-- Rounding does not pass a natural number above. -/
theorem roundHalfEven_le {k : ℕ} (hx : 0 ≤ x) (h : x ≤ k) : roundHalfEven x ≤ k := by
  by_contra hlt
  have hnear := abs_sub_roundHalfEven_le hx k
  have hstep : (k : ℚ) + 1 ≤ roundHalfEven x := by exact_mod_cast not_le.1 hlt
  have hhalf := abs_sub_roundHalfEven_le_half hx
  rw [Int.cast_natCast, abs_of_nonpos (by linarith), abs_of_nonpos (by linarith)] at hnear
  linarith

/-- Rounding does not pass a natural number below. -/
theorem le_roundHalfEven {k : ℕ} (h : (k : ℚ) ≤ x) : k ≤ roundHalfEven x :=
  (Nat.le_floor h).trans (floor_le_roundHalfEven x)

/-! ### Numbers with a coefficient and an exponent -/

/-- An integer, shifted by so many digits. -/
structure Scaled where
  coefficient : ℕ
  exponent : ℤ
deriving DecidableEq, Repr

/-- The number, in a radix. -/
def Scaled.value (radix : ℕ) (s : Scaled) : ℚ := s.coefficient * (radix : ℚ) ^ s.exponent

/-- A number of digits in a radix, and the least exponent if there is one. -/
structure Format where
  radix : ℕ
  digits : ℕ
  least : Option ℤ
  one_lt_radix : 1 < radix
  digits_pos : 0 < digits

namespace Format

variable (F : Format)

/-- What can be written in the format. The coefficient may be the power of the radix that has one
digit more, since this is the next exponent's smallest. -/
structure Has (s : Scaled) : Prop where
  coefficient_le : s.coefficient ≤ F.radix ^ F.digits
  least_le : ∀ m ∈ F.least, m ≤ s.exponent

/-- All digits are used, unless the exponent is the least. -/
structure Canonical (s : Scaled) : Prop extends F.Has s where
  full : F.least = some s.exponent ∨ F.radix ^ (F.digits - 1) ≤ s.coefficient

/-- The exponent at which a number has its digits before the point. -/
def exponent (x : ℚ) : ℤ :=
  match F.least with
  | none => Int.log F.radix x + 1 - F.digits
  | some m => max m (Int.log F.radix x + 1 - F.digits)

/-- Round a positive number to the format. -/
def round (x : ℚ) : Scaled :=
  ⟨roundHalfEven (x / (F.radix : ℚ) ^ F.exponent x), F.exponent x⟩

theorem radix_pos : (0 : ℚ) < F.radix := by exact_mod_cast F.one_lt_radix.le

theorem unit_pos (e : ℤ) : (0 : ℚ) < (F.radix : ℚ) ^ e := zpow_pos F.radix_pos e

/-- The units grow with their exponents. -/
theorem unit_mono {a b : ℤ} (h : a ≤ b) : (F.radix : ℚ) ^ a ≤ (F.radix : ℚ) ^ b :=
  zpow_le_zpow_right₀ (by exact_mod_cast F.one_lt_radix.le) h

/-- A unit of a larger exponent is a whole number of smaller ones. -/
theorem exists_unit_eq {a b : ℤ} (h : a ≤ b) :
    ∃ k : ℕ, (F.radix : ℚ) ^ b = (k : ℤ) * (F.radix : ℚ) ^ a := by
  obtain ⟨k, rfl⟩ := Int.le.dest h
  refine ⟨F.radix ^ k, ?_⟩
  rw [add_comm, zpow_add₀ F.radix_pos.ne', zpow_natCast]
  push_cast
  rfl

/-- The largest coefficient, at one exponent less. -/
theorem pow_mul_unit_pred (e : ℤ) : (F.radix : ℚ) ^ F.digits * (F.radix : ℚ) ^ (e - 1) =
    (F.radix : ℚ) ^ (F.digits - 1) * (F.radix : ℚ) ^ e := by
  have hdigits := F.digits_pos
  rw [← zpow_natCast, ← zpow_natCast, ← zpow_add₀ F.radix_pos.ne', ← zpow_add₀ F.radix_pos.ne']
  congr 1
  push_cast [Nat.cast_sub hdigits]
  ring

/-- A number of the format is bounded by its exponent. -/
theorem Has.value_le {F : Format} {s : Scaled} (h : F.Has s) :
    s.value F.radix ≤ (F.radix : ℚ) ^ F.digits * (F.radix : ℚ) ^ s.exponent :=
  mul_le_mul_of_nonneg_right (by exact_mod_cast h.coefficient_le) (F.unit_pos _).le

/-! ### The exponent -/

theorem least_le_exponent (x : ℚ) : ∀ m ∈ F.least, m ≤ F.exponent x := by
  rintro m hm
  rw [Option.mem_def] at hm
  unfold exponent
  rw [hm]
  exact le_max_left _ _

/-- The exponent of a format leaves room for its digits. -/
theorem log_le_exponent (x : ℚ) : Int.log F.radix x + 1 - F.digits ≤ F.exponent x := by
  unfold exponent
  split
  · exact le_rfl
  · exact le_max_right _ _

/-- The exponent is the least one or the one at which all digits are used. -/
theorem exponent_eq (x : ℚ) :
    F.least = some (F.exponent x) ∨ F.exponent x = Int.log F.radix x + 1 - F.digits := by
  unfold exponent
  split
  · exact Or.inr rfl
  · rename_i m hm
    rcases le_total (Int.log F.radix x + 1 - F.digits) m with hle | hle
    · rw [max_eq_left hle]
      exact Or.inl hm
    · exact Or.inr (max_eq_right hle)

/-- No more digits than there are. -/
theorem lt_pow_mul_unit (x : ℚ) :
    x < (F.radix : ℚ) ^ F.digits * (F.radix : ℚ) ^ F.exponent x := by
  rw [← zpow_natCast, ← zpow_add₀ F.radix_pos.ne']
  exact (Int.lt_zpow_succ_log_self F.one_lt_radix x).trans_le
    (F.unit_mono (by have := F.log_le_exponent x; omega))

/-- All digits are used. -/
theorem pow_mul_unit_le (hx : 0 < x) :
    F.least = some (F.exponent x) ∨
      (F.radix : ℚ) ^ (F.digits - 1) * (F.radix : ℚ) ^ F.exponent x ≤ x := by
  refine (F.exponent_eq x).imp_right fun h ↦ ?_
  have hdigits := F.digits_pos
  rw [← zpow_natCast, ← zpow_add₀ F.radix_pos.ne']
  refine le_trans (F.unit_mono ?_) (Int.zpow_log_le_self F.one_lt_radix hx)
  push_cast [Nat.cast_sub hdigits]
  omega

/-! ### The nearest number of the format -/

/-- The value of what a format rounds to. -/
theorem value_round_eq (x : ℚ) : (F.round x).value F.radix =
    roundHalfEven (x / (F.radix : ℚ) ^ F.exponent x) * (F.radix : ℚ) ^ F.exponent x := rfl

/-- No multiple of the unit is nearer. -/
theorem abs_sub_round_le_multiple (hx : 0 < x) (k : ℤ) :
    |x - (F.round x).value F.radix| ≤ |x - k * (F.radix : ℚ) ^ F.exponent x| := by
  have hunit := F.unit_pos (F.exponent x)
  have hscale : ∀ y : ℚ, |x - y * (F.radix : ℚ) ^ F.exponent x| =
      |x / (F.radix : ℚ) ^ F.exponent x - y| * (F.radix : ℚ) ^ F.exponent x := fun y ↦ by
    rw [← abs_of_pos hunit, ← abs_mul, abs_of_pos hunit, sub_mul, div_mul_cancel₀ _ hunit.ne']
  rw [value_round_eq, hscale, hscale]
  exact mul_le_mul_of_nonneg_right (abs_sub_roundHalfEven_le (div_pos hx hunit).le k) hunit.le

theorem canonical_round (hx : 0 < x) : F.Canonical (F.round x) where
  coefficient_le := by
    have hunit := F.unit_pos (F.exponent x)
    refine roundHalfEven_le (div_pos hx hunit).le ?_
    rw [div_le_iff₀ hunit]
    push_cast
    exact (F.lt_pow_mul_unit x).le
  least_le := F.least_le_exponent x
  full := by
    refine (F.pow_mul_unit_le hx).imp_right fun h ↦ le_roundHalfEven ?_
    rw [le_div_iff₀ (F.unit_pos _)]
    push_cast
    exact h

/-- **No number of the format is nearer** than the one that is rounded to. -/
theorem abs_sub_round_le (hx : 0 < x) {t : Scaled} (ht : F.Has t) :
    |x - (F.round x).value F.radix| ≤ |x - t.value F.radix| := by
  rcases le_or_gt (F.exponent x) t.exponent with hle | hlt
  · obtain ⟨k, hk⟩ := F.exists_unit_eq hle
    have hmultiple : t.value F.radix =
        ((t.coefficient * k : ℕ) : ℤ) * (F.radix : ℚ) ^ F.exponent x := by
      rw [Scaled.value, hk]
      push_cast
      ring
    rw [hmultiple]
    exact F.abs_sub_round_le_multiple hx _
  · -- what has a smaller exponent is below a multiple of the unit that is below the number
    have hlow := (F.pow_mul_unit_le hx).resolve_left fun hleast ↦
      not_lt.2 (ht.least_le _ hleast) hlt
    have hbelow : t.value F.radix ≤
        (F.radix : ℚ) ^ (F.digits - 1) * (F.radix : ℚ) ^ F.exponent x := by
      rw [← pow_mul_unit_pred]
      refine ht.value_le.trans (mul_le_mul_of_nonneg_left (F.unit_mono (by omega)) ?_)
      exact (pow_pos F.radix_pos _).le
    have hnear := F.abs_sub_round_le_multiple hx ((F.radix ^ (F.digits - 1) : ℕ) : ℤ)
    push_cast at hnear
    rw [abs_of_nonneg (by linarith : 0 ≤ x - (F.radix : ℚ) ^ (F.digits - 1) *
      (F.radix : ℚ) ^ F.exponent x)] at hnear
    rw [abs_of_nonneg (by linarith : 0 ≤ x - t.value F.radix)]
    linarith

/-- The error of rounding to digits without a least exponent. -/
theorem abs_sub_round_mul_le (hleast : F.least = none) (hx : 0 < x) :
    |x - (F.round x).value F.radix| * 2 * (F.radix : ℚ) ^ (F.digits - 1) ≤ x := by
  have hunit := F.unit_pos (F.exponent x)
  have hlow := (F.pow_mul_unit_le hx).resolve_left (by simp [hleast])
  have hhalf := abs_sub_roundHalfEven_le_half (div_pos hx hunit).le
  have herr : |x - (F.round x).value F.radix| ≤ 1 / 2 * (F.radix : ℚ) ^ F.exponent x := by
    rw [value_round_eq]
    calc |x - roundHalfEven (x / (F.radix : ℚ) ^ F.exponent x) * (F.radix : ℚ) ^ F.exponent x|
        = |x / (F.radix : ℚ) ^ F.exponent x - roundHalfEven (x / (F.radix : ℚ) ^ F.exponent x)| *
            (F.radix : ℚ) ^ F.exponent x := by
          rw [← abs_of_pos hunit, ← abs_mul, abs_of_pos hunit, sub_mul, div_mul_cancel₀ _ hunit.ne']
      _ ≤ 1 / 2 * (F.radix : ℚ) ^ F.exponent x := mul_le_mul_of_nonneg_right hhalf hunit.le
  calc |x - (F.round x).value F.radix| * 2 * (F.radix : ℚ) ^ (F.digits - 1)
      ≤ (F.radix : ℚ) ^ F.exponent x * (F.radix : ℚ) ^ (F.digits - 1) :=
        mul_le_mul_of_nonneg_right (by linarith) (pow_pos F.radix_pos _).le
    _ ≤ x := by rwa [mul_comm]

/-! ### Numbers of a format are apart -/

/-- Where the other number has no smaller exponent, the units tell. -/
theorem value_le_of_aligned {s t : Scaled} (hs : F.Has s) (hle : s.exponent ≤ t.exponent)
    (hne : s.value F.radix ≠ t.value F.radix) :
    s.value F.radix ≤ |s.value F.radix - t.value F.radix| * (F.radix : ℚ) ^ F.digits := by
  have hunit := F.unit_pos s.exponent
  obtain ⟨k, hk⟩ := F.exists_unit_eq hle
  have hdiff : s.value F.radix - t.value F.radix =
      ((s.coefficient - t.coefficient * k : ℤ) : ℚ) * (F.radix : ℚ) ^ s.exponent := by
    rw [Scaled.value, Scaled.value, hk]
    push_cast
    ring
  have hone : (1 : ℚ) ≤ |((s.coefficient - t.coefficient * k : ℤ) : ℚ)| := by
    have hint : (s.coefficient - t.coefficient * k : ℤ) ≠ 0 := fun h0 ↦ by
      rw [h0, Int.cast_zero, zero_mul] at hdiff
      exact hne (sub_eq_zero.1 hdiff)
    exact_mod_cast Int.one_le_abs hint
  have hgap : (F.radix : ℚ) ^ s.exponent ≤ |s.value F.radix - t.value F.radix| := by
    rw [hdiff, abs_mul, abs_of_pos hunit]
    exact le_mul_of_one_le_left hunit.le hone
  refine hs.value_le.trans ?_
  rw [mul_comm]
  exact mul_le_mul_of_nonneg_right hgap (pow_pos F.radix_pos _).le

/-- Where the other number has a smaller exponent, it is below the first number that uses all
digits. -/
theorem value_le_of_above {s t : Scaled} (hs : F.Has s) (ht : F.Has t)
    (hlt : t.exponent < s.exponent)
    (hfull : F.radix ^ (F.digits - 1) < s.coefficient) :
    s.value F.radix ≤ |s.value F.radix - t.value F.radix| * (F.radix : ℚ) ^ F.digits := by
  have hunit := F.unit_pos s.exponent
  have hbelow : t.value F.radix ≤ (F.radix : ℚ) ^ (F.digits - 1) * (F.radix : ℚ) ^ s.exponent := by
    rw [← pow_mul_unit_pred]
    refine ht.value_le.trans (mul_le_mul_of_nonneg_left (F.unit_mono (by omega)) ?_)
    exact (pow_pos F.radix_pos _).le
  have hstep : (F.radix : ℚ) ^ (F.digits - 1) + 1 ≤ s.coefficient := by exact_mod_cast hfull
  have hgap : (F.radix : ℚ) ^ s.exponent ≤ s.value F.radix - t.value F.radix := by
    have hvalue : ((F.radix : ℚ) ^ (F.digits - 1) + 1) * (F.radix : ℚ) ^ s.exponent ≤
        s.value F.radix :=
      mul_le_mul_of_nonneg_right hstep hunit.le
    rw [add_mul, one_mul] at hvalue
    linarith
  refine hs.value_le.trans ?_
  rw [mul_comm]
  exact mul_le_mul_of_nonneg_right (hgap.trans (le_abs_self _)) (pow_pos F.radix_pos _).le

/-- **Different numbers of a format are apart**: by as much as the digits allow. -/
theorem Canonical.value_le {F : Format} {s t : Scaled} (hs : F.Canonical s) (ht : F.Has t)
    (hne : s.value F.radix ≠ t.value F.radix) :
    s.value F.radix ≤ |s.value F.radix - t.value F.radix| * (F.radix : ℚ) ^ F.digits := by
  rcases le_or_gt s.exponent t.exponent with hle | hlt
  · exact F.value_le_of_aligned hs.toHas hle hne
  have hfull := hs.full.resolve_left fun hleast ↦ not_lt.2 (ht.least_le _ hleast) hlt
  rcases hfull.lt_or_eq with habove | heq
  · exact F.value_le_of_above hs.toHas ht hlt habove
  -- the first number of an exponent is also the last of the exponent below
  · set s' : Scaled := ⟨F.radix ^ F.digits, s.exponent - 1⟩ with hs'
    have hhas : F.Has s' := ⟨le_rfl,
      fun m hm ↦ by have := ht.least_le m hm; show m ≤ s.exponent - 1; omega⟩
    have hsame : s'.value F.radix = s.value F.radix := by
      rw [hs', Scaled.value, Scaled.value, ← heq]
      push_cast
      exact F.pow_mul_unit_pred _
    rw [← hsame] at hne ⊢
    rcases le_or_gt s'.exponent t.exponent with hle' | hlt'
    · exact F.value_le_of_aligned hhas hle' hne
    · exact F.value_le_of_above hhas ht hlt' (Nat.pow_lt_pow_right F.one_lt_radix
        (by have := F.digits_pos; omega))

/-- What is closer to a number of the format than any other number of it can be, is rounded to it.
-/
theorem Canonical.value_round_eq {F : Format} {s : Scaled} (hs : F.Canonical s) (hx : 0 < x)
    (hclose : |x - s.value F.radix| * 2 * (F.radix : ℚ) ^ F.digits < s.value F.radix) :
    (F.round x).value F.radix = s.value F.radix := by
  by_contra hne
  have hapart := hs.value_le (F.canonical_round hx).toHas (Ne.symm hne)
  have hnear := F.abs_sub_round_le hx hs.toHas
  have htriangle := abs_sub_le (s.value F.radix) x ((F.round x).value F.radix)
  rw [abs_sub_comm (s.value F.radix) x] at htriangle
  have hbound : |s.value F.radix - (F.round x).value F.radix| * (F.radix : ℚ) ^ F.digits ≤
      |x - s.value F.radix| * 2 * (F.radix : ℚ) ^ F.digits :=
    mul_le_mul_of_nonneg_right (by linarith) (pow_pos F.radix_pos _).le
  linarith

/-- **Rounding to digits of another radix and back.** If the other format has no least exponent and
digits enough, a number of the first comes back. -/
theorem Canonical.value_round_round {F : Format} (G : Format) {s : Scaled} (hs : F.Canonical s)
    (hpos : 0 < s.value F.radix) (hleast : G.least = none)
    (hdigits : F.radix ^ F.digits < G.radix ^ (G.digits - 1)) :
    0 < (G.round (s.value F.radix)).value G.radix ∧
      (F.round ((G.round (s.value F.radix)).value G.radix)).value F.radix = s.value F.radix := by
  have herr := G.abs_sub_round_mul_le hleast hpos
  rw [abs_sub_comm] at herr
  have hlt : (F.radix : ℚ) ^ F.digits < (G.radix : ℚ) ^ (G.digits - 1) := by exact_mod_cast hdigits
  have hone : (1 : ℚ) ≤ (F.radix : ℚ) ^ F.digits :=
    one_le_pow₀ (by exact_mod_cast F.one_lt_radix.le)
  set y := (G.round (s.value F.radix)).value G.radix with hy
  have hclose : |y - s.value F.radix| * 2 * (F.radix : ℚ) ^ F.digits < s.value F.radix := by
    rcases (abs_nonneg (y - s.value F.radix)).eq_or_lt with hzero | hdiff
    · rw [← hzero]
      linarith
    · exact (mul_lt_mul_of_pos_left hlt (by linarith)).trans_le herr
  have hdiff : |y - s.value F.radix| < s.value F.radix := by
    have hmul := le_mul_of_one_le_right
      (by positivity : 0 ≤ |y - s.value F.radix| * 2) hone
    have habs := abs_nonneg (y - s.value F.radix)
    linarith
  have hypos : 0 < y := by
    have := (abs_lt.1 hdiff).1
    linarith
  exact ⟨hypos, hs.value_round_eq hypos hclose⟩

/-- Canonical numbers with the same value are the same, but for the last of an exponent. -/
theorem Canonical.eq_of_value_eq {F : Format} {s t : Scaled} (hs : F.Canonical s)
    (ht : F.Canonical t)
    (hslt : s.coefficient < F.radix ^ F.digits) (htlt : t.coefficient < F.radix ^ F.digits)
    (h : s.value F.radix = t.value F.radix) : s = t := by
  -- one that uses all digits is above all with a smaller exponent
  have hbelow : ∀ {s t : Scaled}, F.Has s → F.Canonical t → s.coefficient < F.radix ^ F.digits →
      s.exponent < t.exponent → s.value F.radix < t.value F.radix := by
    intro s t hs ht hslt hlt
    have hfull := ht.full.resolve_left fun hleast ↦ not_lt.2 (hs.least_le _ hleast) hlt
    calc s.value F.radix
        < (F.radix : ℚ) ^ F.digits * (F.radix : ℚ) ^ s.exponent :=
          mul_lt_mul_of_pos_right (by exact_mod_cast hslt) (F.unit_pos _)
      _ ≤ (F.radix : ℚ) ^ F.digits * (F.radix : ℚ) ^ (t.exponent - 1) :=
          mul_le_mul_of_nonneg_left (F.unit_mono (by omega)) (pow_pos F.radix_pos _).le
      _ = (F.radix : ℚ) ^ (F.digits - 1) * (F.radix : ℚ) ^ t.exponent := F.pow_mul_unit_pred _
      _ ≤ t.value F.radix :=
          mul_le_mul_of_nonneg_right (by exact_mod_cast hfull) (F.unit_pos _).le
  rcases lt_trichotomy s.exponent t.exponent with hlt | heq | hlt
  · exact absurd h (hbelow hs.toHas ht hslt hlt).ne
  · obtain ⟨c, e⟩ := s
    obtain ⟨c', e'⟩ := t
    obtain rfl : e = e' := heq
    have hc : (c : ℚ) = c' := mul_right_cancel₀ (F.unit_pos e).ne' h
    rw [Nat.cast_inj.1 hc]
  · exact absurd h (hbelow ht.toHas hs htlt hlt).ne'

end Format

end RadixRounding
