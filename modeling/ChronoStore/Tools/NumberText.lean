import ChronoStore.Codec.Manifest
import ChronoStore.Tools.Binary64
import Mathlib.Data.List.DropRight

/-!
# Numbers as text

The tools read numbers with `std::from_chars` and refuse a text that it does not consume to its end;
they print them with `operator<<`, values with a precision of 17. Both are defined by the standard
library, and this is what it says: a text for an integer is an optional minus and digits, one for a
`double` is a decimal number with an optional exponent, or a name for infinity or not-a-number, and
the result is the nearest `double`, halfway cases to the even one. A text whose number is out of
range is refused.

What is printed is read again as the same number, bit for bit (`fromCharsInt64_printInt`,
`fromCharsDouble_printDouble`).
-/

namespace ChronoStore

open RadixRounding

/-- `'-'`. -/
def minusSign : UInt8 := 0x2D
/-- `'+'`. -/
def plusSign : UInt8 := 0x2B
/-- `'.'`. -/
def pointSign : UInt8 := 0x2E
/-- `'e'`. -/
def exponentSign : UInt8 := 0x65
/-- `'0'`. -/
def zeroDigit : UInt8 := 0x30

/-! ### Digits -/

def isDigit (b : UInt8) : Bool := 0x30 ≤ b.toNat && b.toNat ≤ 0x39

/-- Digits, and at least one. -/
def isNumeral (text : Bytes) : Bool := !text.isEmpty && text.all isDigit

/-- The number that digits say. -/
def readDigits (text : Bytes) : ℕ := text.foldl (fun n b ↦ 10 * n + (b.toNat - 0x30)) 0

/-- The digits of a number. -/
def decimal (n : ℕ) : Bytes :=
  if n = 0 then [zeroDigit] else (Nat.digits 10 n).reverse.map digitByte

theorem readDigits_append (a b : Bytes) :
    readDigits (a ++ b) = readDigits a * 10 ^ b.length + readDigits b := by
  induction b using List.reverseRecOn with
  | nil => simp [readDigits]
  | append_singleton b x ih =>
    have hconcat : ∀ text : Bytes,
        readDigits (text ++ [x]) = 10 * readDigits text + (x.toNat - 0x30) := fun text ↦ by
      simp [readDigits]
    rw [← List.append_assoc, hconcat, hconcat, ih, List.length_append, List.length_singleton,
      pow_succ]
    ring

theorem readDigits_replicate (n : ℕ) : readDigits (List.replicate n zeroDigit) = 0 := by
  induction n with
  | zero => rfl
  | succ n ih =>
    rw [List.replicate_succ', readDigits_append, ih]
    rfl

theorem readDigits_map_digitByte {digits : List ℕ} (h : ∀ d ∈ digits, d < 10) :
    readDigits (digits.reverse.map digitByte) = Nat.ofDigits 10 digits := by
  induction digits with
  | nil => rfl
  | cons d digits ih =>
    have hd : d < 10 := h d List.mem_cons_self
    rw [List.reverse_cons, List.map_append, readDigits_append,
      ih fun x hx ↦ h x (List.mem_cons_of_mem _ hx), Nat.ofDigits_cons, List.map_singleton,
      List.length_singleton, pow_one]
    have hone : readDigits [digitByte d] = d := by
      simp [readDigits, digitByte_toNat hd]
    rw [hone]
    ring

/-- A printed number is read back. -/
theorem readDigits_decimal (n : ℕ) : readDigits (decimal n) = n := by
  unfold decimal
  split
  · rename_i h
    exact h.symm
  · rw [readDigits_map_digitByte fun d hd ↦ Nat.digits_lt_base (by decide) hd, Nat.ofDigits_digits]

theorem isDigit_digitByte {d : ℕ} (h : d < 10) : isDigit (digitByte d) = true := by
  rw [isDigit, digitByte_toNat h]
  simp
  omega

theorem isDigit_zeroDigit : isDigit zeroDigit = true := rfl

/-- A numeral has at least one digit, and nothing else. -/
theorem isNumeral_iff {text : Bytes} :
    isNumeral text = true ↔ text ≠ [] ∧ ∀ b ∈ text, isDigit b = true := by
  simp [isNumeral]

theorem isNumeral_decimal (n : ℕ) : isNumeral (decimal n) = true := by
  rw [isNumeral_iff]
  unfold decimal
  split
  · exact ⟨by simp, by simp [isDigit_zeroDigit]⟩
  · rename_i h
    refine ⟨by simpa using Nat.digits_ne_nil_iff_ne_zero.2 h, fun b hb ↦ ?_⟩
    obtain ⟨d, hd, rfl⟩ := List.mem_map.1 hb
    exact isDigit_digitByte (Nat.digits_lt_base (by decide) (List.mem_reverse.1 hd))

/-- The front of a printed number is a numeral. -/
theorem isNumeral_take_decimal (n : ℕ) {k : ℕ} (hk : 0 < k) :
    isNumeral ((decimal n).take k) = true := by
  obtain ⟨hne, hdigits⟩ := isNumeral_iff.1 (isNumeral_decimal n)
  refine isNumeral_iff.2 ⟨fun h ↦ ?_, fun b hb ↦ hdigits b (List.mem_of_mem_take hb)⟩
  rcases List.take_eq_nil_iff.1 h with h | h
  · omega
  · exact hne h

/-- A number between two powers of ten has so many digits. -/
theorem length_decimal {n k : ℕ} (hlow : 10 ^ k ≤ n) (hhigh : n < 10 ^ (k + 1)) :
    (decimal n).length = k + 1 := by
  have hpos : n ≠ 0 := by
    have := Nat.pow_pos (n := k) (show 0 < 10 by decide)
    omega
  rw [decimal, if_neg hpos, List.length_map, List.length_reverse]
  refine le_antisymm ?_ ?_
  · exact Nat.digits_length_le_iff (by decide) n |>.2 hhigh
  · exact Nat.lt_digits_length_iff (by decide) n |>.2 hlow

/-! ### Integers -/

/-- A leading minus, and the rest. -/
def splitSign : Bytes → Bool × Bytes
  | [] => (false, [])
  | b :: text => if b = minusSign then (true, text) else (false, b :: text)

/-- `operator<<` for integers. -/
def printInt (n : ℤ) : Bytes :=
  if n < 0 then minusSign :: decimal n.natAbs else decimal n.natAbs

/-- `std::from_chars` for `std::int64_t`, if it consumes the text. -/
def fromCharsInt64 (text : Bytes) : Option Int64 :=
  match splitSign text with
  | (true, digits) =>
    if isNumeral digits ∧ readDigits digits ≤ 2 ^ 63 then some (Int64.ofInt (-readDigits digits))
    else none
  | (false, digits) =>
    if isNumeral digits ∧ readDigits digits < 2 ^ 63 then some (Int64.ofInt (readDigits digits))
    else none

/-- Digits have no sign. -/
theorem splitSign_of_isDigit {text : Bytes} (h : ∀ b ∈ text.head?, isDigit b = true) :
    splitSign text = (false, text) := by
  cases text with
  | nil => rfl
  | cons b text =>
    refine if_neg fun hb ↦ ?_
    have hdigit := h b rfl
    rw [hb] at hdigit
    exact absurd hdigit (by decide)

theorem head_of_isNumeral {text : Bytes} (h : isNumeral text = true) :
    ∀ b ∈ text.head?, isDigit b = true := fun b hb ↦
  (isNumeral_iff.1 h).2 b (List.mem_of_mem_head? hb)

/-- **Reading what was printed.** -/
theorem fromCharsInt64_printInt (t : Int64) : fromCharsInt64 (printInt t.toInt) = some t := by
  have hlow := Int64.le_toInt t
  have hhigh := Int64.toInt_lt t
  unfold printInt
  split
  · have hsign : splitSign (minusSign :: decimal t.toInt.natAbs) = (true, decimal t.toInt.natAbs) :=
      rfl
    rw [fromCharsInt64, hsign]
    dsimp only
    rw [if_pos ⟨isNumeral_decimal _, by rw [readDigits_decimal]; omega⟩, readDigits_decimal,
      show -((t.toInt.natAbs : ℕ) : ℤ) = t.toInt by omega, Int64.ofInt_toInt]
  · rw [fromCharsInt64, splitSign_of_isDigit (head_of_isNumeral (isNumeral_decimal _))]
    dsimp only
    rw [if_pos ⟨isNumeral_decimal _, by rw [readDigits_decimal]; omega⟩, readDigits_decimal,
      show ((t.toInt.natAbs : ℕ) : ℤ) = t.toInt by omega, Int64.ofInt_toInt]

/-! ### The text of a `double` -/

def isExponentMark (b : UInt8) : Bool := b = exponentSign || b = 0x45

/-- What stands behind the digits in front of the point. -/
def readFraction : Bytes → Option Bytes
  | [] => some []
  | b :: fraction => if b = pointSign ∧ fraction.all isDigit then some fraction else none

/-- What stands behind the digits, from the `e` on. -/
def readExponent : Bytes → Option ℤ
  | [] => some 0
  | _ :: text =>
    match text with
    | [] => none
    | b :: digits =>
      if b = minusSign then if isNumeral digits then some (-readDigits digits) else none
      else if b = plusSign then if isNumeral digits then some (readDigits digits) else none
      else if isNumeral (b :: digits) then some (readDigits (b :: digits)) else none

/-- A decimal number without a sign: digits, a point among them or not, and an exponent or none. -/
def readDecimal (text : Bytes) : Option ℚ := do
  let mantissa := text.takeWhile fun b ↦ !isExponentMark b
  let integral := mantissa.takeWhile isDigit
  let fraction ← readFraction (mantissa.dropWhile isDigit)
  let exponent ← readExponent (text.dropWhile fun b ↦ !isExponentMark b)
  if integral ++ fraction = [] then none
  else some (readDigits (integral ++ fraction) * (10 : ℚ) ^ (exponent - fraction.length))

/-- A letter without its case. -/
def lowerCase (b : UInt8) : UInt8 := if 0x41 ≤ b.toNat ∧ b.toNat ≤ 0x5A then b + 0x20 else b

def isWordByte (b : UInt8) : Bool :=
  isDigit b || 0x61 ≤ (lowerCase b).toNat && (lowerCase b).toNat ≤ 0x7A || b = 0x5F

/-- `inf` or `infinity`. -/
def isInfinityText (text : Bytes) : Bool :=
  text.map lowerCase = ascii "inf" || text.map lowerCase = ascii "infinity"

/-- `nan`, or `nan` with something in parentheses. -/
def isNanText (text : Bytes) : Bool :=
  text.map lowerCase = ascii "nan" || (text.take 4).map lowerCase = ascii "nan(" &&
    text.getLast? = some 0x29 && ((text.drop 4).dropLast).all isWordByte

/-- The magnitude nearest to a number; one that is out of range is refused. -/
def nearestMagnitude (x : ℚ) : Option ℕ :=
  if x = 0 then some 0 else
  let k := Binary64.encode (Binary64.format.round x)
  if k = 0 ∨ Binary64.infinity ≤ k then none else some k

/-- `std::from_chars` for `double`, if it consumes the text. -/
def fromCharsDouble (text : Bytes) : Option UInt64 :=
  let (negative, body) := splitSign text
  let sign := if negative then 2 ^ 63 else 0
  if isInfinityText body then some (UInt64.ofNat (sign + Binary64.infinity))
  else if isNanText body then some (UInt64.ofNat (sign + Binary64.infinity + 2 ^ 51))
  else ((readDecimal body).bind nearestMagnitude).map fun k ↦ UInt64.ofNat (sign + k)

/-- Digits in front of the point and behind it, without zeros at the end. -/
def withFraction (integral fraction : Bytes) : Bytes :=
  match fraction.rdropWhile (· = zeroDigit) with
  | [] => integral
  | b :: fraction => integral ++ pointSign :: b :: fraction

/-- An exponent has two digits at least. -/
def printExponent (x : ℤ) : Bytes :=
  let digits := decimal x.natAbs
  exponentSign :: (if x < 0 then minusSign else plusSign) ::
    if digits.length < 2 then zeroDigit :: digits else digits

/-- Seventeen digits, in scientific notation where the exponent is less than -4 or more than 16. -/
def printScaled (s : Scaled) : Bytes :=
  let s := if s.coefficient = 10 ^ 17 then ⟨10 ^ 16, s.exponent + 1⟩ else s
  let digits := decimal s.coefficient
  let x := s.exponent + 16
  if x < -4 ∨ 17 ≤ x then withFraction (digits.take 1) (digits.drop 1) ++ printExponent x
  else if x < 0 then withFraction [zeroDigit] (List.replicate (-x - 1).toNat zeroDigit ++ digits)
  else withFraction (digits.take (x.toNat + 1)) (digits.drop (x.toNat + 1))

/-- `operator<<` for `double`, with a precision of 17. -/
def printDouble (bits : UInt64) : Bytes :=
  let k := bits.toNat % 2 ^ 63
  let text := if k = 0 then [zeroDigit]
    else printScaled (Binary64.decimalFormat.round ((Binary64.magnitude k).value 2))
  if 2 ^ 63 ≤ bits.toNat then minusSign :: text else text

/-! ### Reading the text back -/

section ReadBack

variable {integral fraction tail : Bytes} {n : ℤ}

theorem not_isExponentMark {b : UInt8} (h : isDigit b = true ∨ b = pointSign) :
    (!isExponentMark b) = true := by
  rcases h with h | rfl
  · rw [Bool.not_eq_true', isExponentMark, Bool.or_eq_false_iff]
    constructor <;> refine decide_eq_false fun hb ↦ ?_ <;> rw [hb] at h <;>
      exact absurd h (by decide)
  · decide

/-- **What a decimal text says**, if there is nothing in it but its parts. -/
theorem readDecimal_append (hintegral : isNumeral integral = true) {middle : Bytes}
    (hmiddle : middle = [] ∧ fraction = [] ∨ middle = pointSign :: fraction)
    (hfraction : ∀ b ∈ fraction, isDigit b = true) (htail : readExponent tail = some n)
    (hmark : ∀ b ∈ tail.head?, isExponentMark b = true) :
    readDecimal (integral ++ middle ++ tail) =
      some (readDigits (integral ++ fraction) * (10 : ℚ) ^ (n - fraction.length)) := by
  obtain ⟨hne, hdigits⟩ := isNumeral_iff.1 hintegral
  have hplain : ∀ b ∈ integral ++ middle, (!isExponentMark b) = true := by
    intro b hb
    rcases List.mem_append.1 hb with hb | hb
    · exact not_isExponentMark (Or.inl (hdigits b hb))
    · rcases hmiddle with ⟨rfl, -⟩ | rfl
      · simp at hb
      · rcases List.mem_cons.1 hb with rfl | hb
        · exact not_isExponentMark (Or.inr rfl)
        · exact not_isExponentMark (Or.inl (hfraction b hb))
  have htake : (integral ++ middle ++ tail).takeWhile (fun b ↦ !isExponentMark b) =
      integral ++ middle := by
    rw [List.takeWhile_append_of_pos hplain]
    cases tail with
    | nil => simp
    | cons b tail => rw [List.takeWhile_cons_of_neg (by simp [hmark b rfl]), List.append_nil]
  have hdrop : (integral ++ middle ++ tail).dropWhile (fun b ↦ !isExponentMark b) = tail := by
    rw [List.dropWhile_append_of_pos hplain]
    cases tail with
    | nil => rfl
    | cons b tail => rw [List.dropWhile_cons_of_neg (by simp [hmark b rfl])]
  have hstop : ∀ b ∈ middle.head?, ¬isDigit b = true := by
    rcases hmiddle with ⟨rfl, -⟩ | rfl
    · simp
    · rintro b hb
      obtain rfl := Option.some.inj hb
      decide
  have htakeDigits : (integral ++ middle).takeWhile isDigit = integral := by
    rw [List.takeWhile_append_of_pos hdigits]
    cases middle with
    | nil => simp
    | cons b middle => rw [List.takeWhile_cons_of_neg (hstop b rfl), List.append_nil]
  have hdropDigits : (integral ++ middle).dropWhile isDigit = middle := by
    rw [List.dropWhile_append_of_pos hdigits]
    cases middle with
    | nil => rfl
    | cons b middle => rw [List.dropWhile_cons_of_neg (hstop b rfl)]
  have hread : readFraction middle = some fraction := by
    rcases hmiddle with ⟨rfl, rfl⟩ | rfl
    · rfl
    · exact if_pos ⟨rfl, List.all_eq_true.2 hfraction⟩
  rw [readDecimal, htake, hdrop, htakeDigits, hdropDigits, hread, htail]
  exact if_neg fun h ↦ hne (List.append_eq_nil_iff.1 h).1

/-- Zeros at the end of the fraction say nothing. -/
theorem readDigits_append_zeros (text : Bytes) (k m : ℕ) (n : ℤ) :
    (readDigits (text ++ List.replicate m zeroDigit) : ℚ) * (10 : ℚ) ^ (n - (k + m : ℕ)) =
      readDigits text * (10 : ℚ) ^ (n - k) := by
  rw [readDigits_append, readDigits_replicate, List.length_replicate, add_zero]
  push_cast
  rw [mul_assoc, ← zpow_natCast, ← zpow_add₀ (by norm_num)]
  congr 2
  ring

/-- Digits, a point, further digits and an exponent are read back. -/
theorem readDecimal_withFraction (hintegral : isNumeral integral = true)
    (hfraction : ∀ b ∈ fraction, isDigit b = true) (htail : readExponent tail = some n)
    (hmark : ∀ b ∈ tail.head?, isExponentMark b = true) :
    readDecimal (withFraction integral fraction ++ tail) =
      some (readDigits (integral ++ fraction) * (10 : ℚ) ^ (n - fraction.length)) := by
  have hsplit := List.rdropWhile_append_rtakeWhile (p := fun b ↦ decide (b = zeroDigit))
    (l := fraction)
  have hzeros : fraction.rtakeWhile (fun b ↦ decide (b = zeroDigit)) =
      List.replicate (fraction.rtakeWhile fun b ↦ decide (b = zeroDigit)).length zeroDigit :=
    List.eq_replicate_iff.2 ⟨rfl, fun b hb ↦ by simpa using List.mem_rtakeWhile_imp hb⟩
  set kept := fraction.rdropWhile (fun b ↦ decide (b = zeroDigit)) with hkept
  set m := (fraction.rtakeWhile fun b ↦ decide (b = zeroDigit)).length
  rw [hzeros] at hsplit
  have hkeptDigits : ∀ b ∈ kept, isDigit b = true := fun b hb ↦
    hfraction b (by rw [← hsplit]; exact List.mem_append_left _ hb)
  have htext : withFraction integral fraction =
      integral ++ (if kept = [] then [] else pointSign :: kept) := by
    rw [withFraction, ← hkept]
    cases kept with
    | nil => simp
    | cons b rest => simp
  rw [htext, @readDecimal_append integral kept tail n hintegral _ ?_ hkeptDigits htail hmark]
  · rw [← hsplit, ← List.append_assoc, List.length_append, List.length_replicate,
      readDigits_append_zeros]
  · split
    · rename_i h
      exact Or.inl ⟨rfl, h⟩
    · exact Or.inr rfl

/-- A printed exponent is read back. -/
theorem readExponent_printExponent (x : ℤ) : readExponent (printExponent x) = some x := by
  -- a leading zero is one digit more of the same number
  have hpadded : ∀ digits : Bytes, isNumeral digits = true →
      isNumeral (if digits.length < 2 then zeroDigit :: digits else digits) = true ∧
        readDigits (if digits.length < 2 then zeroDigit :: digits else digits) =
          readDigits digits := by
    intro digits h
    split
    · refine ⟨isNumeral_iff.2 ⟨by simp, ?_⟩, rfl⟩
      exact List.forall_mem_cons.2 ⟨by decide, (isNumeral_iff.1 h).2⟩
    · exact ⟨h, rfl⟩
  obtain ⟨hnumeral, hvalue⟩ := hpadded _ (isNumeral_decimal x.natAbs)
  rw [readDigits_decimal] at hvalue
  unfold printExponent
  dsimp only
  by_cases hneg : x < 0
  · rw [if_pos hneg, readExponent, if_pos rfl, if_pos hnumeral, hvalue]
    congr 1
    omega
  · rw [if_neg hneg, readExponent, if_neg (by decide), if_pos rfl, if_pos hnumeral, hvalue]
    congr 1
    omega

/-- **What is printed says the number.** -/
theorem readDecimal_printScaled {s : Scaled} (hlow : 10 ^ 16 ≤ s.coefficient)
    (hhigh : s.coefficient ≤ 10 ^ 17) : readDecimal (printScaled s) = some (s.value 10) := by
  set t : Scaled := if s.coefficient = 10 ^ 17 then ⟨10 ^ 16, s.exponent + 1⟩ else s with ht
  have hvalue : t.value 10 = s.value 10 := by
    rw [ht]
    split
    · rename_i h
      rw [Scaled.value, Scaled.value, h, zpow_add_one₀ (by norm_num)]
      push_cast
      ring
    · rfl
  have htlow : 10 ^ 16 ≤ t.coefficient := by
    rw [ht]
    split
    · exact le_rfl
    · exact hlow
  have hthigh : t.coefficient < 10 ^ 17 := by
    rw [ht]
    split
    · show 10 ^ 16 < 10 ^ 17
      decide
    · rename_i h
      exact lt_of_le_of_ne hhigh h
  have hlength : (decimal t.coefficient).length = 17 := length_decimal htlow hthigh
  have hdigits := (isNumeral_iff.1 (isNumeral_decimal t.coefficient)).2
  have hdrop : ∀ k, ∀ b ∈ (decimal t.coefficient).drop k, isDigit b = true := fun k b hb ↦
    hdigits b (List.mem_of_mem_drop hb)
  rw [← hvalue]
  unfold printScaled
  rw [← ht]
  dsimp only
  split
  · rw [readDecimal_withFraction (isNumeral_take_decimal _ Nat.one_pos) (hdrop 1)
      (readExponent_printExponent _)
      (by rintro b hb; obtain rfl := Option.some.inj hb; decide), List.take_append_drop,
      readDigits_decimal, List.length_drop, hlength, Scaled.value]
    congr 3
    push_cast
    ring
  split
  · rename_i hsci hneg
    rw [← List.append_nil (withFraction _ _),
      readDecimal_withFraction (n := 0) (by decide) ?_ rfl (by simp)]
    · rw [readDigits_append, readDigits_append, readDigits_replicate, readDigits_decimal,
        List.length_append, List.length_replicate, hlength, Scaled.value]
      have hzero : readDigits [zeroDigit] = 0 := rfl
      rw [hzero, zero_mul, zero_mul, zero_add, zero_add]
      congr 3
      push_cast
      omega
    · intro b hb
      rcases List.mem_append.1 hb with hb | hb
      · rw [List.eq_of_mem_replicate hb]
        decide
      · exact hdigits b hb
  · rename_i hsci hneg
    rw [← List.append_nil (withFraction _ _), readDecimal_withFraction (n := 0)
      (isNumeral_take_decimal _ (Nat.succ_pos _)) (hdrop _) rfl (by simp), List.take_append_drop,
      readDigits_decimal,
      List.length_drop, hlength, Scaled.value]
    congr 3
    push_cast
    omega

/-- A text that begins with a digit is no name of a number. -/
theorem not_name_of_isDigit {text : Bytes} (hne : text ≠ [])
    (h : ∀ b ∈ text.head?, isDigit b = true) :
    isInfinityText text = false ∧ isNanText text = false := by
  cases text with
  | nil => exact absurd rfl hne
  | cons b text =>
    have hb : isDigit b = true := h b rfl
    have hlower : lowerCase b = b := by
      rw [isDigit, Bool.and_eq_true, decide_eq_true_eq, decide_eq_true_eq] at hb
      exact if_neg (by omega)
    have hletter : ∀ name : Bytes, (∃ c ∈ name.head?, isDigit c = false) →
        ∀ l : Bytes, ¬(lowerCase b :: l = name) := by
      rintro name ⟨c, hc, hdigit⟩ l rfl
      obtain rfl := Option.some.inj hc
      rw [hlower, hb] at hdigit
      cases hdigit
    have hinf := hletter (ascii "inf") ⟨_, rfl, by decide⟩
    have hinfinity := hletter (ascii "infinity") ⟨_, rfl, by decide⟩
    have hnan := hletter (ascii "nan") ⟨_, rfl, by decide⟩
    have hnanWith := hletter (ascii "nan(") ⟨_, rfl, by decide⟩
    constructor
    · rw [isInfinityText, List.map_cons, Bool.or_eq_false_iff]
      exact ⟨decide_eq_false (hinf _), decide_eq_false (hinfinity _)⟩
    · rw [isNanText, List.map_cons, List.take_succ_cons, List.map_cons, Bool.or_eq_false_iff]
      refine ⟨decide_eq_false (hnan _), ?_⟩
      rw [decide_eq_false (hnanWith _), Bool.false_and, Bool.false_and]

theorem head_withFraction {integral : Bytes} (fraction tail : Bytes)
    (h : isNumeral integral = true) :
    withFraction integral fraction ++ tail ≠ [] ∧
      ∀ b ∈ (withFraction integral fraction ++ tail).head?, isDigit b = true := by
  obtain ⟨hne, hdigits⟩ := isNumeral_iff.1 h
  obtain ⟨b, integral, rfl⟩ := List.exists_cons_of_ne_nil hne
  have hhead : ∃ rest, withFraction (b :: integral) fraction ++ tail = b :: rest := by
    unfold withFraction
    split
    · exact ⟨_, rfl⟩
    · exact ⟨_, rfl⟩
  obtain ⟨rest, hrest⟩ := hhead
  rw [hrest]
  refine ⟨by simp, fun c hc ↦ ?_⟩
  obtain rfl := Option.some.inj hc
  exact hdigits _ List.mem_cons_self

/-- A printed number starts with a digit. -/
theorem head_printScaled (s : Scaled) :
    printScaled s ≠ [] ∧ ∀ b ∈ (printScaled s).head?, isDigit b = true := by
  unfold printScaled
  generalize (if s.coefficient = 10 ^ 17 then Scaled.mk (10 ^ 16) (s.exponent + 1) else s) = t
  dsimp only
  split
  · exact head_withFraction _ _ (isNumeral_take_decimal _ Nat.one_pos)
  split
  · rw [← List.append_nil (withFraction _ _)]
    exact head_withFraction _ _ (by decide)
  · rw [← List.append_nil (withFraction _ _)]
    exact head_withFraction _ _ (isNumeral_take_decimal _ (Nat.succ_pos _))

end ReadBack

/-- **Reading what was printed**, bit for bit: every finite value comes back. -/
theorem fromCharsDouble_printDouble (v : Value) :
    fromCharsDouble (printDouble v.bits) = some v.bits := by
  obtain ⟨bits, hfinite⟩ := v
  have hbits := UInt64.toNat_lt bits
  set k := bits.toNat % 2 ^ 63 with hk
  set text : Bytes := if k = 0 then [zeroDigit]
    else printScaled (Binary64.decimalFormat.round ((Binary64.magnitude k).value 2)) with htext
  have hsmall : k < Binary64.infinity := by
    rw [isFinite, bne_iff_ne] at hfinite
    unfold Binary64.infinity
    omega
  -- the text of the magnitude is a decimal number, and the magnitude is the nearest to it
  have hhead : text ≠ [] ∧ ∀ b ∈ text.head?, isDigit b = true := by
    rw [htext]
    split
    · exact ⟨by simp, by simp [isDigit_zeroDigit]⟩
    · exact head_printScaled _
  have hread : (readDecimal text).bind nearestMagnitude = some k := by
    rw [htext]
    split
    · rename_i hzero
      rw [hzero]
      decide +kernel
    · rename_i hpos
      obtain ⟨hvalue, hback⟩ := Binary64.encode_round_round hpos
      have hcanonical := Binary64.decimalFormat.canonical_round (Binary64.value_magnitude_pos hpos)
      rw [readDecimal_printScaled (hcanonical.full.resolve_left (by simp [Binary64.decimalFormat]))
        hcanonical.coefficient_le, Option.bind_some, nearestMagnitude, if_neg hvalue.ne', hback]
      exact if_neg (by omega)
  obtain ⟨hinfinity, hnan⟩ := not_name_of_isDigit hhead.1 hhead.2
  have hprint : printDouble bits = if 2 ^ 63 ≤ bits.toNat then minusSign :: text else text := rfl
  rw [hprint]
  split
  · rename_i hsign
    have hsplit : splitSign (minusSign :: text) = (true, text) := rfl
    rw [fromCharsDouble, hsplit]
    dsimp only
    rw [hinfinity, hnan, hread]
    simp only [Bool.false_eq_true, if_false, if_true, Option.map_some, Option.some.injEq]
    rw [show 2 ^ 63 + k = bits.toNat by omega, UInt64.ofNat_toNat]
  · rename_i hsign
    rw [fromCharsDouble, splitSign_of_isDigit hhead.2]
    dsimp only
    rw [hinfinity, hnan, hread]
    simp only [Bool.false_eq_true, if_false, Option.map_some, Option.some.injEq]
    rw [show 0 + k = bits.toNat by omega, UInt64.ofNat_toNat]

/-! ### The bytes of a printed number -/

/-- No byte of the text is a blank or a control character. -/
def Graphic (text : Bytes) : Prop := ∀ b ∈ text, 0x20 < b.toNat

namespace Graphic

variable {text more : Bytes} {b : UInt8}

/-- One more graphic character in front. -/
theorem cons (hb : 0x20 < b.toNat) (h : Graphic text) : Graphic (b :: text) :=
  List.forall_mem_cons.2 ⟨hb, h⟩

theorem append (h : Graphic text) (hmore : Graphic more) : Graphic (text ++ more) :=
  List.forall_mem_append.2 ⟨h, hmore⟩

theorem of_subset (h : Graphic text) (hsub : more ⊆ text) : Graphic more := fun b hb ↦ h b (hsub hb)

theorem of_isNumeral (h : isNumeral text = true) : Graphic text := by
  intro b hb
  have hdigit := (isNumeral_iff.1 h).2 b hb
  rw [isDigit, Bool.and_eq_true, decide_eq_true_eq, decide_eq_true_eq] at hdigit
  omega

theorem decimal (n : ℕ) : Graphic (decimal n) := of_isNumeral (isNumeral_decimal n)

theorem replicate_zeroDigit (n : ℕ) : Graphic (List.replicate n zeroDigit) := fun b hb ↦ by
  rw [List.eq_of_mem_replicate hb]
  decide

theorem printInt (n : ℤ) : Graphic (printInt n) := by
  rw [ChronoStore.printInt]
  split
  · exact cons (by decide) (decimal _)
  · exact decimal _

theorem withFraction (h : Graphic text) (hmore : Graphic more) :
    Graphic (withFraction text more) := by
  have hkept : Graphic (more.rdropWhile (· = zeroDigit)) :=
    hmore.of_subset (List.rdropWhile_prefix _ _).subset
  rw [ChronoStore.withFraction]
  split
  · exact h
  · rename_i heq
    rw [heq] at hkept
    exact h.append (hkept.cons (by decide))

theorem printExponent (x : ℤ) : Graphic (printExponent x) := by
  rw [ChronoStore.printExponent]
  refine cons (by decide) (cons (by split <;> decide) ?_)
  split
  · exact cons (by decide) (decimal _)
  · exact decimal _

theorem printScaled (s : Scaled) : Graphic (printScaled s) := by
  have htake : ∀ n k, Graphic ((ChronoStore.decimal n).take k) := fun n k ↦
    (decimal n).of_subset (List.take_subset _ _)
  have hdrop : ∀ n k, Graphic ((ChronoStore.decimal n).drop k) := fun n k ↦
    (decimal n).of_subset (List.drop_subset _ _)
  unfold ChronoStore.printScaled
  extract_lets s digits x
  split
  · exact ((htake _ _).withFraction (hdrop _ _)).append (printExponent _)
  · split
    · exact withFraction (replicate_zeroDigit 1) ((replicate_zeroDigit _).append (decimal _))
    · exact (htake _ _).withFraction (hdrop _ _)

/-- A printed double consists of graphic characters. -/
theorem printDouble (bits : UInt64) : Graphic (printDouble bits) := by
  have htext : ∀ k : ℕ, Graphic (if k = 0 then [zeroDigit]
      else ChronoStore.printScaled
          (Binary64.decimalFormat.round ((Binary64.magnitude k).value 2))) := by
    intro k
    split
    · exact replicate_zeroDigit 1
    · exact printScaled _
  unfold ChronoStore.printDouble
  extract_lets k text
  split
  · exact (htext _).cons (by decide)
  · exact htext _

end Graphic

example : printDouble 0x3FF8000000000000 = ascii "1.5" := by decide +kernel
example : printDouble 0x3FB999999999999A = ascii "0.10000000000000001" := by decide +kernel
example : fromCharsDouble (ascii "-15e-1") = some 0xBFF8000000000000 := by decide +kernel

end ChronoStore
