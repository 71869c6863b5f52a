import Mathlib.Data.List.Lex
import Mathlib.Data.List.Sort
import Mathlib.Data.Prod.Lex
import Mathlib.Order.Lattice
import Mathlib.Tactic.Ring

/-!
# The data model

Series keys, timestamps and samples, as `model.hpp` declares them. Each class whose constructor
checks its arguments is a structure with the checked facts as fields, so a value of the type is one
the constructor let through; the constructor itself is the function `make`, which returns the
exception it throws.

Strings are byte strings, compared as the standard library compares them: by unsigned bytes, first
difference first. A `double` is its 64-bit pattern. Nothing in the store does arithmetic on values,
so the pattern and the test for finiteness are all there is to say about one.
-/

namespace ChronoStore

/-- The order of unsigned bytes. -/
instance byteLinearOrder : LinearOrder UInt8 where
  le_refl _ := Nat.le_refl _
  le_trans _ _ _ h k := Nat.le_trans h k
  lt_iff_le_not_ge a b := by
    rw [UInt8.lt_iff_toNat_lt, UInt8.le_iff_toNat_le, UInt8.le_iff_toNat_le]
    omega
  le_antisymm _ _ h k := UInt8.toNat_inj.1 (Nat.le_antisymm h k)
  le_total _ _ := Nat.le_total _ _
  toDecidableLE := inferInstance
  toDecidableEq := inferInstance
  toDecidableLT := inferInstance

/-- Byte strings: file contents, file names, and every `std::string` of the store. -/
abbrev Bytes := List UInt8

/-- The bytes of an ASCII literal. -/
def ascii (s : String) : Bytes := s.toList.map fun c ↦ UInt8.ofNat c.toNat

/-- A byte string as text, for messages. -/
def render (bytes : Bytes) : String := String.ofList (bytes.map fun b ↦ Char.ofNat b.toNat)

/-! ### Exceptions -/

/-- Why a byte string is not a write-ahead log record. -/
inductive WalDecodeError
  | none
  | incompleteRecord
  | invalidMagic
  | unsupportedVersion
  | unsupportedRecordType
  | invalidLength
  | checksumMismatch
  | invalidPayload
deriving DecidableEq, Repr

/-- `decode_error_name`: the text with which an exception of the log reports the error. -/
def WalDecodeError.name : WalDecodeError → String
  | .none => "no error"
  | .incompleteRecord => "incomplete record"
  | .invalidMagic => "invalid magic"
  | .unsupportedVersion => "unsupported version"
  | .unsupportedRecordType => "unsupported record type"
  | .invalidLength => "invalid length"
  | .checksumMismatch => "checksum mismatch"
  | .invalidPayload => "invalid payload"

/-- The exceptions of the store. The path that the source appends to the texts of input and output
errors is left out. -/
inductive Error
  | invalidArgument (what : String)
  | lengthError (what : String)
  | overflowError (what : String)
  | logicError (what : String)
  | runtimeError (what : String)
  | systemError (what : String)
  | manifestFormatError (what : String)
  | segmentFormatError (what : String)
  | walFormatError (offset : ℕ) (error : WalDecodeError)
deriving DecidableEq, Repr

/-- The exceptions that report a failing call of the operating system. -/
def Error.IsIo : Error → Prop
  | .systemError _ => True
  | .runtimeError _ => True
  | _ => False

/-- The exceptions by which a limit of the store refuses an input. -/
def Error.IsRefusal : Error → Prop
  | .invalidArgument _ => True
  | .lengthError _ => True
  | .overflowError _ => True
  | _ => False

/-- Throw an exception in any monad that can. -/
def raise {m : Type → Type} [MonadLiftT (Except Error) m] {α : Type} (e : Error) : m α :=
  liftM (Except.error e : Except Error α)

/-! ### Tags -/

/-- A key/value dimension of a series; the key is not empty. -/
@[ext]
structure Tag where
  key : Bytes
  value : Bytes
  key_ne_nil : key ≠ []

namespace Tag

/-- The constructor. -/
def make (key value : Bytes) : Except Error Tag :=
  if h : key = [] then .error (.invalidArgument "tag key cannot be empty") else .ok ⟨key, value, h⟩

/-- Tags compare by key, then by value. -/
instance : LinearOrder Tag :=
  LinearOrder.lift' (fun t ↦ toLex (t.key, t.value)) fun a b h ↦ by
    have hab := toLex_inj.1 h
    rw [Prod.mk.injEq] at hab
    exact Tag.ext hab.1 hab.2

theorem le_def {a b : Tag} : a ≤ b ↔ a.key < b.key ∨ a.key = b.key ∧ a.value ≤ b.value :=
  Prod.Lex.le_iff

/-- The order of tags compares their keys first. -/
theorem key_le_of_le {a b : Tag} (h : a ≤ b) : a.key ≤ b.key := by
  rcases le_def.1 h with h | h
  · exact h.le
  · exact h.1.le

/-- A tag can be made from its own key and value. -/
theorem make_key_value (t : Tag) : make t.key t.value = .ok t := by
  rw [make, dif_neg t.key_ne_nil]

end Tag

/-! ### Series keys -/

/-- The canonical identity of a series: tags stand in strictly increasing key order. -/
@[ext]
structure SeriesKey where
  measurement : Bytes
  tags : List Tag
  measurement_ne_nil : measurement ≠ []
  tags_sorted : tags.Pairwise fun a b ↦ a.key < b.key

namespace SeriesKey

/-- Series keys compare by measurement, then by their tags in order. -/
instance : LinearOrder SeriesKey :=
  LinearOrder.lift' (fun s ↦ toLex (s.measurement, s.tags)) fun a b h ↦ by
    have hab := toLex_inj.1 h
    rw [Prod.mk.injEq] at hab
    exact SeriesKey.ext hab.1 hab.2

/-- The first tag that repeats the key of its predecessor. -/
def adjacentDuplicate : List Tag → Option Tag
  | previous :: current :: rest =>
    if previous.key = current.key then some current else adjacentDuplicate (current :: rest)
  | _ => none

/-- Looking at neighbours is enough: in a sorted list equal keys stand next to each other. -/
theorem pairwise_key_lt_of_adjacent {tags : List Tag} (hsorted : tags.Pairwise (· ≤ ·))
    (hadj : adjacentDuplicate tags = none) : tags.Pairwise fun a b ↦ a.key < b.key := by
  induction tags with
  | nil => exact List.Pairwise.nil
  | cons a tags ih =>
    rw [List.pairwise_cons] at hsorted
    cases tags with
    | nil => simp
    | cons b tags =>
      rw [adjacentDuplicate] at hadj
      split at hadj
      · simp at hadj
      · rename_i hne
        have htail := ih hsorted.2 hadj
        have hab : a.key < b.key :=
          lt_of_le_of_ne (Tag.key_le_of_le (hsorted.1 b List.mem_cons_self)) hne
        refine List.pairwise_cons.2 ⟨fun c hc ↦ ?_, htail⟩
        rcases List.mem_cons.1 hc with rfl | hc
        · exact hab
        · exact hab.trans ((List.pairwise_cons.1 htail).1 c hc)

/-- The constructor: the tags are sorted, and two tags with the same key are refused. -/
def make (measurement : Bytes) (tags : List Tag) : Except Error SeriesKey :=
  if hm : measurement = [] then .error (.invalidArgument "measurement cannot be empty") else
  match hd : adjacentDuplicate (tags.insertionSort (· ≤ ·)) with
  | some current => .error (.invalidArgument ("duplicate tag key: " ++ render current.key))
  | none =>
    .ok ⟨measurement, tags.insertionSort (· ≤ ·), hm,
      pairwise_key_lt_of_adjacent (List.pairwise_insertionSort _ _) hd⟩

/-- Tags in increasing order of their keys have no duplicate. -/
theorem adjacentDuplicate_of_pairwise {tags : List Tag}
    (h : tags.Pairwise fun a b ↦ a.key < b.key) : adjacentDuplicate tags = none := by
  induction tags with
  | nil => rfl
  | cons a tags ih =>
    rw [List.pairwise_cons] at h
    cases tags with
    | nil => rfl
    | cons b tags =>
      rw [adjacentDuplicate, if_neg (h.1 b List.mem_cons_self).ne]
      exact ih h.2

/-- Tags in increasing order of their keys are sorted. -/
theorem pairwise_le_of_key_lt {tags : List Tag} (h : tags.Pairwise fun a b ↦ a.key < b.key) :
    tags.Pairwise (· ≤ ·) :=
  h.imp fun hab ↦ Tag.le_def.2 (Or.inl hab)

/-- **Rebuilding a key from its own parts gives the key back.** -/
theorem make_measurement_tags (s : SeriesKey) : make s.measurement s.tags = .ok s := by
  have hsort : s.tags.insertionSort (· ≤ ·) = s.tags :=
    (pairwise_le_of_key_lt s.tags_sorted).insertionSort_eq
  have hadj := adjacentDuplicate_of_pairwise s.tags_sorted
  unfold make
  rw [dif_neg s.measurement_ne_nil]
  split
  · rename_i current hc
    rw [hsort, hadj] at hc
    simp at hc
  · exact congrArg Except.ok (SeriesKey.ext rfl hsort)

end SeriesKey

/-! ### Timestamps, values and samples -/

/-- A signed 64-bit count of nanoseconds. -/
@[ext]
structure Timestamp where
  nanosecondsSinceEpoch : Int64

namespace Timestamp

instance : LinearOrder Timestamp :=
  LinearOrder.lift' (fun t ↦ t.nanosecondsSinceEpoch.toInt) fun _ _ h ↦
    Timestamp.ext (Int64.toInt_inj.1 h)

/-- The timestamp bit-cast to an unsigned integer. -/
def bits (t : Timestamp) : ℕ := t.nanosecondsSinceEpoch.toUInt64.toNat

/-- The timestamp with these bits. -/
def ofBits (n : ℕ) : Timestamp := ⟨(UInt64.ofNat n).toInt64⟩

theorem bits_lt (t : Timestamp) : t.bits < 2 ^ 64 := UInt64.toNat_lt _

@[simp] theorem ofBits_bits (t : Timestamp) : ofBits t.bits = t := by
  simp [ofBits, bits]

@[simp] theorem bits_ofBits {n : ℕ} (h : n < 2 ^ 64) : (ofBits n).bits = n := by
  simp only [ofBits, bits]
  have hofNat : (UInt64.ofNat n).toNat = n := by
    rw [UInt64.toNat_ofNat', Nat.mod_eq_of_lt h]
  rwa [UInt64.toUInt64_toInt64]

end Timestamp

/-- `std::isfinite` on the bit pattern: the exponent field is not all ones. -/
def isFinite (bits : UInt64) : Bool := bits.toNat / 2 ^ 52 % 2 ^ 11 != 2 ^ 11 - 1

/-- A finite `double`, as its bit pattern. -/
@[ext]
structure Value where
  bits : UInt64
  finite : isFinite bits = true
deriving DecidableEq

/-- A timestamped finite value. -/
@[ext]
structure Sample where
  timestamp : Timestamp
  value : Value
deriving DecidableEq

/-- The constructor of a sample, from the bit pattern of its value. -/
def Sample.make (timestamp : Timestamp) (bits : UInt64) : Except Error Sample :=
  if h : isFinite bits = true then .ok ⟨timestamp, bits, h⟩
  else .error (.invalidArgument "sample value must be finite")

/-- A sample can be made from its own timestamp and bits. -/
theorem Sample.make_timestamp_bits (x : Sample) :
    Sample.make x.timestamp x.value.bits = .ok x := by
  rw [Sample.make, dif_pos x.value.finite]

/-! ### What a constructor has let through -/

theorem of_sampleMake {timestamp : Timestamp} {bits : UInt64} {sample : Sample}
    (h : (Sample.make timestamp bits).toOption = some sample) :
    sample.timestamp = timestamp ∧ sample.value.bits = bits := by
  unfold Sample.make at h
  split at h
  · rw [Except.toOption, Option.some.injEq] at h
    exact ⟨by rw [← h], by rw [← h]⟩
  · simp [Except.toOption] at h

/-- What a series was made from, with its tags sorted. -/
theorem of_seriesKeyMake {measurement : Bytes} {tags : List Tag} {series : SeriesKey}
    (h : (SeriesKey.make measurement tags).toOption = some series) :
    series.measurement = measurement ∧ series.tags = tags.insertionSort (· ≤ ·) := by
  unfold SeriesKey.make at h
  split at h
  · simp [Except.toOption] at h
  · split at h
    · simp [Except.toOption] at h
    · rw [Except.toOption, Option.some.injEq] at h
      exact ⟨by rw [← h], by rw [← h]⟩

/-- What the store maps to values: a point of a series. -/
abbrev Key := SeriesKey × Timestamp

/-! ### A small example -/

/-- The series `cpu`, without tags. -/
def cpuSeries : SeriesKey := ⟨ascii "cpu", [], by decide, .nil⟩

/-- The value `1.0`, five nanoseconds after the epoch. -/
def cpuSample : Sample := ⟨⟨5⟩, ⟨0x3FF0000000000000, by decide⟩⟩

theorem host_ne_nil : ascii "host" ≠ [] := by decide

theorem zone_ne_nil : ascii "zone" ≠ [] := by decide

/-- The series `mem` of the host `a`. -/
def memSeries : SeriesKey :=
  ⟨ascii "mem", [⟨ascii "host", ascii "a", host_ne_nil⟩], by decide, List.pairwise_singleton _ _⟩

/-- The series `io`, without tags. -/
def ioSeries : SeriesKey := ⟨ascii "io", [], by decide, .nil⟩

/-- The value `2.0`, nine nanoseconds after the epoch. -/
def laterSample : Sample := ⟨⟨9⟩, ⟨0x4000000000000000, by decide⟩⟩

end ChronoStore
