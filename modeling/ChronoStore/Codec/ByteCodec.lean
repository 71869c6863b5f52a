import ChronoStore.Foundation.Parser
import ChronoStore.Model

/-!
# The byte codec

Fixed-width little-endian integers, length-prefixed strings and series keys: `byte_codec.cpp`, and
the string and series-key helpers that each file format keeps a copy of.

The copies of `write_string` and of the series-key writer differ only in the texts of their
exceptions, which are parameters here. A writer that is let through writes the bytes of
`stringBytes` and `seriesKeyBytes`; it can only refuse what is at least `2 ^ 32` bytes long
(`writeSeriesKey_cases`), which no format has room for.

The copies of the series-key reader differ in what they check: the log's reader takes the tags in
any order, the readers of blocks and of the index insist on increasing keys. That is the flag of
`readTags`.
-/

namespace ChronoStore

open Parser

/-! ### Fixed-width integers -/

/-- `ByteWriter::write_unsigned`: the lowest byte first; what does not fit is dropped. -/
def writeUnsigned : (byteCount value : ℕ) → Bytes
  | 0, _ => []
  | n + 1, value => UInt8.ofNat (value % 256) :: writeUnsigned n (value / 256)

def writeU8 (value : ℕ) : Bytes := writeUnsigned 1 value
def writeU16 (value : ℕ) : Bytes := writeUnsigned 2 value
def writeU32 (value : ℕ) : Bytes := writeUnsigned 4 value
def writeU64 (value : ℕ) : Bytes := writeUnsigned 8 value

/-- The number whose little-endian digits in base 256 are these bytes. -/
def littleEndian : Bytes → ℕ
  | [] => 0
  | b :: bytes => b.toNat + 256 * littleEndian bytes

/-- `ByteReader::read_unsigned`; a reader is the bytes that remain. -/
def readUnsigned (byteCount : ℕ) : Parser UInt8 ℕ := do
  require (byteCount ≤ 8)
  return littleEndian (← takeExactly byteCount)

def readU8 : Parser UInt8 ℕ := readUnsigned 1
def readU16 : Parser UInt8 ℕ := readUnsigned 2
def readU32 : Parser UInt8 ℕ := readUnsigned 4
def readU64 : Parser UInt8 ℕ := readUnsigned 8

@[simp] theorem length_writeUnsigned (n value : ℕ) : (writeUnsigned n value).length = n := by
  induction n generalizing value with
  | zero => rfl
  | succ n ih => rw [writeUnsigned, List.length_cons, ih]

@[simp] theorem length_writeU8 (value : ℕ) : (writeU8 value).length = 1 := length_writeUnsigned _ _
@[simp] theorem length_writeU16 (value : ℕ) : (writeU16 value).length = 2 :=
  length_writeUnsigned _ _
@[simp] theorem length_writeU32 (value : ℕ) : (writeU32 value).length = 4 :=
  length_writeUnsigned _ _
@[simp] theorem length_writeU64 (value : ℕ) : (writeU64 value).length = 8 :=
  length_writeUnsigned _ _

/-- Written bytes stand for the value, if it fits. -/
theorem littleEndian_writeUnsigned {n value : ℕ} (h : value < 256 ^ n) :
    littleEndian (writeUnsigned n value) = value := by
  induction n generalizing value with
  | zero =>
    rw [Nat.pow_zero, Nat.lt_one_iff] at h
    rw [h]
    rfl
  | succ n ih =>
    have hdiv : value / 256 < 256 ^ n := by
      rw [Nat.pow_succ] at h
      omega
    rw [writeUnsigned, littleEndian, ih hdiv, UInt8.toNat_ofNat']
    omega

/-- Only the low bytes are written. -/
theorem writeUnsigned_mod (n value : ℕ) :
    writeUnsigned n (value % 256 ^ n) = writeUnsigned n value := by
  induction n generalizing value with
  | zero => rfl
  | succ n ih =>
    rw [writeUnsigned, writeUnsigned, Nat.pow_succ', Nat.mod_mul_right_div_self, ih,
      Nat.mod_mul_right_mod]

/-- Bytes are what is written for their value. -/
theorem writeUnsigned_littleEndian (bytes : Bytes) :
    writeUnsigned bytes.length (littleEndian bytes) = bytes := by
  induction bytes with
  | nil => rfl
  | cons b bytes ih =>
    have hb := b.toNat_lt
    have hmod : (b.toNat + 256 * littleEndian bytes) % 256 = b.toNat := by omega
    have hdiv : (b.toNat + 256 * littleEndian bytes) / 256 = littleEndian bytes := by omega
    rw [List.length_cons, littleEndian, writeUnsigned, hmod, hdiv, ih, UInt8.ofNat_toNat]

/-- As many bytes as there are bound the value. -/
theorem littleEndian_lt (bytes : Bytes) : littleEndian bytes < 256 ^ bytes.length := by
  induction bytes with
  | nil => simp [littleEndian]
  | cons b bytes ih =>
    have hb := b.toNat_lt
    rw [littleEndian, List.length_cons, Nat.pow_succ]
    omega

/-- A value that fits is read back. -/
theorem parses_readUnsigned {n value : ℕ} (hn : n ≤ 8) (h : value < 256 ^ n) :
    Parses (readUnsigned n) (writeUnsigned n value) value := by
  have htake := Parses.takeExactly (writeUnsigned n value)
  rw [length_writeUnsigned] at htake
  rw [← List.nil_append (writeUnsigned n value)]
  refine (Parses.require (decide_eq_true hn)).bind (htake.bind_nil ?_)
  rw [littleEndian_writeUnsigned h]
  exact Parses.pure value

theorem parses_readU8 {value : ℕ} (h : value < 2 ^ 8) : Parses readU8 (writeU8 value) value :=
  parses_readUnsigned (by decide) h

theorem parses_readU16 {value : ℕ} (h : value < 2 ^ 16) : Parses readU16 (writeU16 value) value :=
  parses_readUnsigned (by decide) h

theorem parses_readU32 {value : ℕ} (h : value < 2 ^ 32) : Parses readU32 (writeU32 value) value :=
  parses_readUnsigned (by decide) h

theorem parses_readU64 {value : ℕ} (h : value < 2 ^ 64) : Parses readU64 (writeU64 value) value :=
  parses_readUnsigned (by decide) h

/-- A fixed number of bytes is consumed. -/
theorem consumes_readUnsigned (n : ℕ) : Consumes (readUnsigned n) n := by
  have := (Consumes.require (B := UInt8) (n ≤ 8 : Bool)).bind fun _ ↦
    (Consumes.takeExactly n).bind fun bytes ↦ Consumes.pure (littleEndian bytes)
  rwa [Nat.zero_add, Nat.add_zero] at this

/-- Reading a number from input that is long enough. -/
theorem readUnsigned_run {n : ℕ} (hn : n ≤ 8) {bytes : Bytes} (h : n ≤ bytes.length) :
    (readUnsigned n).run bytes = some (littleEndian (bytes.take n), bytes.drop n) := by
  have hsplit : bytes = bytes.take n ++ bytes.drop n := (List.take_append_drop n bytes).symm
  have hlen : (bytes.take n).length = n := by simp [h]
  have hlt := littleEndian_lt (bytes.take n)
  have hwrite := writeUnsigned_littleEndian (bytes.take n)
  rw [hlen] at hlt hwrite
  conv_lhs => rw [hsplit, ← hwrite]
  exact parses_readUnsigned hn hlt _

/-! ### Strings -/

/-- The layout of a string. -/
def stringBytes (value : Bytes) : Bytes := writeU32 value.length ++ value

/-- `write_string`; each format has its own text for the refusal. -/
def writeString (tooLarge : String) (value : Bytes) : Except Error Bytes :=
  if value.length > 2 ^ 32 - 1 then .error (.lengthError tooLarge) else .ok (stringBytes value)

theorem writeString_of_gt {tooLarge : String} {value : Bytes} (h : value.length > 2 ^ 32 - 1) :
    writeString tooLarge value = .error (.lengthError tooLarge) := if_pos h

theorem writeString_of_not_gt {tooLarge : String} {value : Bytes} (h : ¬value.length > 2 ^ 32 - 1) :
    writeString tooLarge value = .ok (stringBytes value) := if_neg h

/-- `read_string`: a length, and as many bytes. -/
def readString : Parser UInt8 Bytes := do
  let length ← readU32
  takeExactly length

@[simp] theorem length_stringBytes (value : Bytes) :
    (stringBytes value).length = 4 + value.length := by
  simp [stringBytes]

/-- A string is read back. -/
theorem parses_readString {value : Bytes} (h : value.length < 2 ^ 32) :
    Parses readString (stringBytes value) value :=
  (parses_readU32 h).bind (Parses.takeExactly value)

/-! ### Series keys -/

/-- The layout of a tag. -/
def tagBytes (tag : Tag) : Bytes := stringBytes tag.key ++ stringBytes tag.value

/-- The layout of a series key. -/
def seriesKeyBytes (series : SeriesKey) : Bytes :=
  stringBytes series.measurement ++ writeU32 series.tags.length ++ series.tags.flatMap tagBytes

/-- The loop over the tags of a series-key writer. -/
def writeTags (tooLarge : String) : List Tag → Except Error Bytes
  | [] => .ok []
  | tag :: tags => do
    let key ← writeString tooLarge tag.key
    let value ← writeString tooLarge tag.value
    let rest ← writeTags tooLarge tags
    return key ++ value ++ rest

/-- The series-key writers of the formats. -/
def writeSeriesKey (tooLarge tooManyTags : String) (series : SeriesKey) : Except Error Bytes := do
  let measurement ← writeString tooLarge series.measurement
  if series.tags.length > 2 ^ 32 - 1 then throw (.lengthError tooManyTags)
  let tags ← writeTags tooLarge series.tags
  return measurement ++ writeU32 series.tags.length ++ tags

/-- The loop over the tags of a series-key reader. An empty key makes the constructor of `Tag`
throw, which the readers turn into a refusal; with `ordered` a key must exceed the key before it. -/
def readTags (ordered : Bool) : (count : ℕ) → (tags : List Tag) → Parser UInt8 (List Tag)
  | 0, tags => pure tags
  | n + 1, tags => do
    let key ← readString
    let value ← readString
    require (!(ordered && tags.getLast?.any fun last ↦ decide (key ≤ last.key)))
    let tag ← liftM (Tag.make key value).toOption
    readTags ordered n (tags ++ [tag])

theorem length_flatMap_tagBytes_le {tag : Tag} {tags : List Tag} (h : tag ∈ tags) :
    tag.key.length + tag.value.length + 8 ≤ (tags.flatMap tagBytes).length := by
  obtain ⟨a, b, rfl⟩ := List.append_of_mem h
  simp only [List.flatMap_append, List.flatMap_cons, List.length_append, tagBytes,
    length_stringBytes]
  omega

/-- A tag takes at least eight bytes. -/
theorem length_tags_le (tags : List Tag) : 8 * tags.length ≤ (tags.flatMap tagBytes).length := by
  induction tags with
  | nil => simp
  | cons tag tags ih =>
    simp only [List.flatMap_cons, List.length_append, List.length_cons, tagBytes,
      length_stringBytes]
    omega

/-- The length of a series key: two counts, the measurement and the tags. -/
theorem length_seriesKeyBytes (series : SeriesKey) :
    (seriesKeyBytes series).length =
      8 + series.measurement.length + (series.tags.flatMap tagBytes).length := by
  simp only [seriesKeyBytes, List.length_append, length_stringBytes, length_writeU32]
  omega

/-- Tags are written, or one of them is too long, and then all of them together are. -/
theorem writeTags_cases (tooLarge : String) (tags : List Tag) :
    writeTags tooLarge tags = .ok (tags.flatMap tagBytes) ∨
      writeTags tooLarge tags = .error (.lengthError tooLarge) ∧
        2 ^ 32 ≤ (tags.flatMap tagBytes).length := by
  induction tags with
  | nil => exact Or.inl rfl
  | cons tag tags ih =>
    have hlen : (List.flatMap tagBytes (tag :: tags)).length =
        8 + tag.key.length + tag.value.length + (tags.flatMap tagBytes).length := by
      simp only [List.flatMap_cons, List.length_append, tagBytes, length_stringBytes]
      omega
    by_cases hk : tag.key.length > 2 ^ 32 - 1
    · refine Or.inr ⟨?_, by omega⟩
      rw [writeTags, writeString_of_gt hk]
      rfl
    · by_cases hv : tag.value.length > 2 ^ 32 - 1
      · refine Or.inr ⟨?_, by omega⟩
        rw [writeTags, writeString_of_not_gt hk, writeString_of_gt hv]
        rfl
      · rcases ih with ih | ⟨ih, hlong⟩
        · refine Or.inl ?_
          rw [writeTags, writeString_of_not_gt hk, writeString_of_not_gt hv, ih]
          rfl
        · refine Or.inr ⟨?_, by omega⟩
          rw [writeTags, writeString_of_not_gt hk, writeString_of_not_gt hv, ih]
          rfl

/-- **A series-key writer refuses only what is too long for any format.** -/
theorem writeSeriesKey_cases (tooLarge tooManyTags : String) (series : SeriesKey) :
    writeSeriesKey tooLarge tooManyTags series = .ok (seriesKeyBytes series) ∨
      (∃ what, writeSeriesKey tooLarge tooManyTags series = .error (.lengthError what)) ∧
        2 ^ 32 ≤ (seriesKeyBytes series).length := by
  have hlen := length_seriesKeyBytes series
  have htags := length_tags_le series.tags
  by_cases hm : series.measurement.length > 2 ^ 32 - 1
  · refine Or.inr ⟨⟨tooLarge, ?_⟩, by omega⟩
    rw [writeSeriesKey, writeString_of_gt hm]
    rfl
  · by_cases ht : series.tags.length > 2 ^ 32 - 1
    · refine Or.inr ⟨⟨tooManyTags, ?_⟩, by omega⟩
      rw [writeSeriesKey, writeString_of_not_gt hm]
      exact if_pos ht
    · rcases writeTags_cases tooLarge series.tags with h | ⟨h, hlong⟩
      · refine Or.inl ?_
        rw [writeSeriesKey, writeString_of_not_gt hm, h]
        exact if_neg ht
      · refine Or.inr ⟨⟨tooLarge, ?_⟩, by omega⟩
        rw [writeSeriesKey, writeString_of_not_gt hm, h]
        exact if_neg ht

/-- A tag whose texts have a length that can be written. -/
def Tag.Encodable (t : Tag) : Prop := t.key.length < 2 ^ 32 ∧ t.value.length < 2 ^ 32

/-- Reading back the tags of a key, by either kind of reader. -/
theorem parses_readTags_of_encodable (ordered : Bool) (tags seen : List Tag)
    (hsorted : (seen ++ tags).Pairwise fun a b ↦ a.key < b.key)
    (henc : ∀ t ∈ tags, t.Encodable) :
    Parses (readTags ordered tags.length seen) (tags.flatMap tagBytes) (seen ++ tags) := by
  induction tags generalizing seen with
  | nil =>
    rw [List.append_nil]
    exact Parses.pure seen
  | cons tag tags ih =>
    obtain ⟨⟨hkeyLength, hvalueLength⟩, hrest⟩ := List.forall_mem_cons.1 henc
    have hnext : (seen ++ [tag] ++ tags).Pairwise fun a b ↦ a.key < b.key := by simpa using hsorted
    -- the key before `tag`, if there is one, is smaller
    have hlast : seen.getLast?.any (fun last ↦ decide (tag.key ≤ last.key)) = false := by
      cases hg : seen.getLast? with
      | none => rfl
      | some last =>
        have hmem : last ∈ seen := List.mem_of_getLast? hg
        have hlt := (List.pairwise_append.1 hsorted).2.2 last hmem tag List.mem_cons_self
        simpa using hlt
    have hkey : Parses readString (stringBytes tag.key) tag.key := parses_readString hkeyLength
    have hvalue : Parses readString (stringBytes tag.value) tag.value :=
      parses_readString hvalueLength
    have hbytes : List.flatMap tagBytes (tag :: tags) =
        stringBytes tag.key ++ (stringBytes tag.value ++
          ([] ++ ([] ++ tags.flatMap tagBytes))) := by
      simp [tagBytes]
    rw [show seen ++ tag :: tags = seen ++ [tag] ++ tags by simp, hbytes]
    refine hkey.bind (hvalue.bind ((Parses.require (by simp [hlast])).bind ?_))
    exact (Parses.ofOption (by rw [Tag.make_key_value]; rfl)).bind (ih _ hnext hrest)

/-- Tags in increasing order are read back, whether the reader insists on it or not. -/
theorem parses_readTags (ordered : Bool) (tags seen : List Tag)
    (hsorted : (seen ++ tags).Pairwise fun a b ↦ a.key < b.key)
    (hlen : (tags.flatMap tagBytes).length < 2 ^ 32) :
    Parses (readTags ordered tags.length seen) (tags.flatMap tagBytes) (seen ++ tags) := by
  refine parses_readTags_of_encodable ordered tags seen hsorted fun t ht ↦ ?_
  have hle := length_flatMap_tagBytes_le ht
  exact ⟨by omega, by omega⟩

/-! ### What a reader has read -/

/-- What has been read is what would be written. -/
theorem of_readUnsigned_run {n value : ℕ} {input rest : Bytes}
    (h : (readUnsigned n).run input = some (value, rest)) :
    input = writeUnsigned n value ++ rest ∧ value < 256 ^ n := by
  obtain ⟨_, _, hreq, hrun⟩ := run_bind_eq_some.1 h
  obtain ⟨-, rfl⟩ := run_require_eq_some.1 hreq
  obtain ⟨taken, after, htake, hpure⟩ := run_bind_eq_some.1 hrun
  obtain ⟨rfl, rfl⟩ := run_pure_eq_some.1 hpure
  obtain ⟨rfl, rfl⟩ := eq_append_of_takeExactly htake
  exact ⟨by rw [writeUnsigned_littleEndian], littleEndian_lt taken⟩

theorem of_readU32_run {value : ℕ} {input rest : Bytes}
    (h : readU32.run input = some (value, rest)) :
    input = writeU32 value ++ rest ∧ value < 2 ^ 32 :=
  of_readUnsigned_run h

theorem of_readU64_run {value : ℕ} {input rest : Bytes}
    (h : readU64.run input = some (value, rest)) :
    input = writeU64 value ++ rest ∧ value < 2 ^ 64 :=
  of_readUnsigned_run h

/-- A string that has been read is what would be written. -/
theorem of_readString_run {value input rest : Bytes}
    (h : readString.run input = some (value, rest)) :
    input = stringBytes value ++ rest ∧ value.length < 2 ^ 32 := by
  obtain ⟨length, mid, hlen, htake⟩ := run_bind_eq_some.1 h
  obtain ⟨rfl, hlt⟩ := of_readU32_run hlen
  obtain ⟨rfl, rfl⟩ := eq_append_of_takeExactly htake
  exact ⟨by rw [stringBytes, List.append_assoc], hlt⟩

/-- **The tags a reader returns are the tags it read**, in the order it read them; with `ordered`
that is the order of their keys. -/
theorem of_readTags_run {ordered : Bool} {count : ℕ} {seen tags : List Tag} {input rest : Bytes}
    (h : (readTags ordered count seen).run input = some (tags, rest)) :
    ∃ new, tags = seen ++ new ∧ new.length = count ∧ input = new.flatMap tagBytes ++ rest ∧
      (ordered = true → (seen.Pairwise fun a b ↦ a.key < b.key) →
        tags.Pairwise fun a b ↦ a.key < b.key) := by
  induction count generalizing seen input with
  | zero =>
    obtain ⟨rfl, rfl⟩ := run_pure_eq_some.1 h
    exact ⟨[], by simp, rfl, rfl, fun _ hseen ↦ hseen⟩
  | succ count ih =>
    rw [readTags] at h
    obtain ⟨key, _, hkey, h₁⟩ := run_bind_eq_some.1 h
    obtain ⟨value, _, hvalue, h₂⟩ := run_bind_eq_some.1 h₁
    obtain ⟨_, _, hrequire, h₃⟩ := run_bind_eq_some.1 h₂
    obtain ⟨tag, _, hlift, hrun⟩ := run_bind_eq_some.1 h₃
    clear h h₁ h₂ h₃
    obtain ⟨rfl, -⟩ := of_readString_run hkey
    obtain ⟨rfl, -⟩ := of_readString_run hvalue
    obtain ⟨hreq, rfl⟩ := run_require_eq_some.1 hrequire
    obtain ⟨htag, rfl⟩ := run_liftM_eq_some.1 hlift
    obtain ⟨hk, hv⟩ : tag.key = key ∧ tag.value = value := by
      unfold Tag.make at htag
      split at htag
      · simp [Except.toOption] at htag
      · rw [Except.toOption, Option.some.injEq] at htag
        exact ⟨by rw [← htag], by rw [← htag]⟩
    subst hk hv
    obtain ⟨new, rfl, hlen, rfl, hsorted⟩ := ih hrun
    refine ⟨tag :: new, by simp, by simp [hlen], by simp [tagBytes], fun ho hseen ↦ ?_⟩
    refine hsorted ho (List.pairwise_append.2 ⟨hseen, List.pairwise_singleton _ _, ?_⟩)
    intro a ha b hb
    rw [List.mem_singleton.1 hb]
    -- the last key seen is smaller than the new one, and the keys before it are smaller still
    obtain ⟨last, hlast⟩ : ∃ last, seen.getLast? = some last := by
      rw [← Option.isSome_iff_exists, List.getLast?_isSome]
      exact List.ne_nil_of_mem ha
    have hlt : last.key < tag.key := by simpa [ho, hlast] using hreq
    obtain ⟨front, rfl⟩ := List.getLast?_eq_some_iff.1 hlast
    rcases List.mem_append.1 ha with ha | ha
    · exact ((List.pairwise_append.1 hseen).2.2 a ha last (List.mem_singleton_self _)).trans hlt
    · rw [List.mem_singleton.1 ha]
      exact hlt

end ChronoStore
