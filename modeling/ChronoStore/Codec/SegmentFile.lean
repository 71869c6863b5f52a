import ChronoStore.Codec.SegmentBlock

/-!
# Segment files

The file format of `segment_file.cpp`: a header of 32 bytes, the blocks one behind the other, an
index with one entry for each block, and a footer that repeats the header. Each of the four parts
carries a checksum of its own. `encodeSegmentFile` is `write_segment_file` up to the write itself;
what it writes for an accepted list of blocks is `segmentBytes`, and `SegmentAccepts` collects its
conditions.

Reading a file back is the business of `SegmentReader`. Here are the three decoders it uses, each
with the same three facts: it reads back what was encoded, it accepts only what is sealed, and the
only exception it throws is a segment format error.
-/

namespace ChronoStore

open Parser

/-- "CSGF". -/
def segmentFileMagic : ℕ := 0x46475343
/-- "CSFT". -/
def segmentFooterMagic : ℕ := 0x54465343
/-- "CSIX". -/
def segmentIndexMagic : ℕ := 0x58495343
def segmentFileVersion : ℕ := 1
def segmentFileFlags : ℕ := 0
def segmentHeaderSize : ℕ := 32
def segmentFooterSize : ℕ := 32
def segmentIndexHeaderSize : ℕ := 20
def checksumSize : ℕ := 4
def maxIndexPayloadSize : ℕ := 64 * 1024 * 1024
def maxSegmentBlockCount : ℕ := 1000000

/-- What header and footer say about a file. -/
structure SegmentEnvelope where
  blockCount : ℕ
  indexOffset : ℕ
  indexSize : ℕ
deriving DecidableEq

/-- What the index says about a block. -/
@[ext]
structure SegmentIndexEntry where
  series : SeriesKey
  firstTimestamp : Timestamp
  lastTimestamp : Timestamp
  blockOffset : ℕ
  blockSize : ℕ
  sampleCount : ℕ
deriving DecidableEq

structure SegmentFileMetadata where
  fileSize : ℕ := 0
  sampleCount : ℕ := 0
  blockCount : ℕ := 0
deriving DecidableEq

/-- Throw a `SegmentFormatError`. -/
def reject {α : Type} (what : String) : Except Error α := .error (.segmentFormatError what)

/-- The only exception thrown is a segment format error. -/
def FormatErrorsOnly {α : Type} (r : Except Error α) : Prop :=
  ∀ e, r = .error e → ∃ what, e = .segmentFormatError what

theorem formatErrorsOnly_ok {α : Type} (a : α) : FormatErrorsOnly (.ok a) := by
  intro e h
  cases h

/-- A refusal is a format error. -/
theorem formatErrorsOnly_reject {α : Type} (what : String) :
    FormatErrorsOnly (reject what : Except Error α) := by
  intro e h
  cases h
  exact ⟨what, rfl⟩

/-- A sequence throws format errors only if both of its parts do. -/
theorem FormatErrorsOnly.bind {α β : Type} {r : Except Error α} {k : α → Except Error β}
    (hr : FormatErrorsOnly r) (hk : ∀ a, r = .ok a → FormatErrorsOnly (k a)) :
    FormatErrorsOnly (r >>= k) := by
  cases r with
  | ok a => exact hk a rfl
  | error e =>
    intro e' h
    cases h
    exact hr e rfl

/-! ### Header and footer -/

/-- Append the checksum of what is there. -/
def withChecksum (data : Bytes) : Bytes := data ++ writeU32 (crc32c data)

/-- What has had its checksum appended is sealed. -/
theorem sealed_withChecksum (data : Bytes) : Sealed (withChecksum data) := ⟨data, rfl⟩

@[simp] theorem length_withChecksum (data : Bytes) :
    (withChecksum data).length = data.length + 4 := by
  simp [withChecksum]

/-- The header up to its checksum. -/
def headerBody (e : SegmentEnvelope) : Bytes :=
  writeU32 segmentFileMagic ++ (writeU16 segmentFileVersion ++ (writeU16 segmentFileFlags ++
    (writeU32 e.blockCount ++ (writeU64 e.indexOffset ++ writeU64 e.indexSize))))

/-- The footer up to its checksum. -/
def footerBody (e : SegmentEnvelope) : Bytes :=
  writeU32 segmentFooterMagic ++ (writeU16 segmentFileVersion ++ (writeU16 segmentFileFlags ++
    (writeU64 e.indexOffset ++ (writeU64 e.indexSize ++ writeU32 e.blockCount))))

/-- `encode_header`: where the index is, with a checksum of its own. -/
def encodeHeader (e : SegmentEnvelope) : Bytes := withChecksum (headerBody e)

/-- `encode_footer`: the same numbers again, in another order and under another magic number. -/
def encodeFooter (e : SegmentEnvelope) : Bytes := withChecksum (footerBody e)

/-- The fields of a header or footer. -/
structure EnvelopeFields where
  magic : ℕ
  version : ℕ
  flags : ℕ
  envelope : SegmentEnvelope

def readHeaderFields : Parser UInt8 EnvelopeFields := do
  let magic ← readU32
  let version ← readU16
  let flags ← readU16
  let blockCount ← readU32
  let indexOffset ← readU64
  let indexSize ← readU64
  return ⟨magic, version, flags, blockCount, indexOffset, indexSize⟩

def readFooterFields : Parser UInt8 EnvelopeFields := do
  let magic ← readU32
  let version ← readU16
  let flags ← readU16
  let indexOffset ← readU64
  let indexSize ← readU64
  let blockCount ← readU32
  return ⟨magic, version, flags, blockCount, indexOffset, indexSize⟩

/-- Fields, and the checksum stored behind them. -/
def readSealed {α : Type} (fields : Parser UInt8 α) : Parser UInt8 (α × ℕ) := do
  let found ← fields
  let storedChecksum ← readU32
  return (found, storedChecksum)

/-- `decode_header`: the checksum comes before the version, the block count last. -/
def decodeHeader (bytes : Bytes) : Except Error SegmentEnvelope :=
  if bytes.length ≠ segmentHeaderSize then reject "invalid segment header size" else
  match (readSealed readHeaderFields).run bytes with
  | none => reject "incomplete segment header"
  | some ((fields, storedChecksum), _) =>
    if fields.magic ≠ segmentFileMagic then reject "invalid segment header magic" else
    if storedChecksum ≠ crc32c (bytes.take (segmentHeaderSize - checksumSize)) then
      reject "segment header checksum mismatch" else
    if fields.version ≠ segmentFileVersion ∨ fields.flags ≠ segmentFileFlags then
      reject "unsupported segment header version or flags" else
    if fields.envelope.blockCount = 0 ∨ fields.envelope.blockCount > maxSegmentBlockCount then
      reject "invalid segment block count" else
    .ok fields.envelope

/-- `decode_footer`; unlike the header's, its block count is not checked on its own. -/
def decodeFooter (bytes : Bytes) : Except Error SegmentEnvelope :=
  if bytes.length ≠ segmentFooterSize then reject "invalid segment footer size" else
  match (readSealed readFooterFields).run bytes with
  | none => reject "incomplete segment footer"
  | some ((fields, storedChecksum), _) =>
    if fields.magic ≠ segmentFooterMagic then reject "invalid segment footer magic" else
    if storedChecksum ≠ crc32c (bytes.take (segmentFooterSize - checksumSize)) then
      reject "segment footer checksum mismatch" else
    if fields.version ≠ segmentFileVersion ∨ fields.flags ≠ segmentFileFlags then
      reject "unsupported segment footer version or flags" else
    .ok fields.envelope

/-- The fields fit into their columns. -/
structure SegmentEnvelope.Fits (e : SegmentEnvelope) : Prop where
  blockCount_lt : e.blockCount < 2 ^ 32
  indexOffset_lt : e.indexOffset < 2 ^ 64
  indexSize_lt : e.indexSize < 2 ^ 64

@[simp] theorem length_encodeHeader (e : SegmentEnvelope) :
    (encodeHeader e).length = segmentHeaderSize := rfl

@[simp] theorem length_encodeFooter (e : SegmentEnvelope) :
    (encodeFooter e).length = segmentFooterSize := rfl

/-- Fields and their checksum are read back. -/
theorem parses_readSealed {α : Type} {fields : Parser UInt8 α} {x : Bytes} {a : α}
    (h : Parses fields x a) : Parses (readSealed fields) (withChecksum x) (a, crc32c x) :=
  h.bind ((parses_readU32 (crc32c_lt x)).bind_nil (Parses.pure _))

/-- A header is read back. -/
theorem decodeHeader_encodeHeader {e : SegmentEnvelope} (he : e.Fits) (h0 : e.blockCount ≠ 0)
    (hmax : e.blockCount ≤ maxSegmentBlockCount) : decodeHeader (encodeHeader e) = .ok e := by
  have hfields : Parses readHeaderFields (headerBody e)
      ⟨segmentFileMagic, segmentFileVersion, segmentFileFlags, e⟩ :=
    (parses_readU32 (by decide)).bind ((parses_readU16 (by decide)).bind
      ((parses_readU16 (by decide)).bind ((parses_readU32 he.blockCount_lt).bind
        ((parses_readU64 he.indexOffset_lt).bind
          ((parses_readU64 he.indexSize_lt).bind_nil (Parses.pure _))))))
  have hrun := (parses_readSealed hfields).run_self
  have htake : (withChecksum (headerBody e)).take (segmentHeaderSize - checksumSize) =
      headerBody e :=
    List.take_left' rfl
  rw [decodeHeader, if_neg (by simp), encodeHeader, hrun]
  simp only [htake, ne_eq, not_true_eq_false, if_false, or_self, h0, false_or]
  rw [if_neg (not_lt.2 hmax)]

/-- A footer is read back, also with a block count that a header may not have. -/
theorem decodeFooter_encodeFooter {e : SegmentEnvelope} (he : e.Fits) :
    decodeFooter (encodeFooter e) = .ok e := by
  have hfields : Parses readFooterFields (footerBody e)
      ⟨segmentFooterMagic, segmentFileVersion, segmentFileFlags, e⟩ :=
    (parses_readU32 (by decide)).bind ((parses_readU16 (by decide)).bind
      ((parses_readU16 (by decide)).bind ((parses_readU64 he.indexOffset_lt).bind
        ((parses_readU64 he.indexSize_lt).bind
          ((parses_readU32 he.blockCount_lt).bind_nil (Parses.pure _))))))
  have hrun := (parses_readSealed hfields).run_self
  have htake : (withChecksum (footerBody e)).take (segmentFooterSize - checksumSize) =
      footerBody e :=
    List.take_left' rfl
  rw [decodeFooter, if_neg (by simp), encodeFooter, hrun]
  simp only [htake, ne_eq, not_true_eq_false, if_false, or_self]

/-- A checksum read behind fields of fixed width, and found right, seals the whole. -/
theorem sealed_of_readSealed {α : Type} {fields : Parser UInt8 α} {n : ℕ} (hn : Consumes fields n)
    {bytes : Bytes} (hlen : bytes.length = n + 4) {a : α} {rest : Bytes}
    (h : (readSealed fields).run bytes = some ((a, crc32c (bytes.take n)), rest)) :
    Sealed bytes := by
  rw [readSealed, run_bind_eq] at h
  obtain ⟨⟨found, mid⟩, hfound, hsum⟩ := Option.bind_eq_some_iff.1 h
  rw [run_bind_eq] at hsum
  obtain ⟨⟨stored, tail⟩, hstored, hret⟩ := Option.bind_eq_some_iff.1 hsum
  have hmid := hn bytes found mid hfound
  cases hret
  exact sealed_of_checksum hlen _ (hmid ▸ hstored)

/-- A header that is accepted is sealed. -/
theorem sealed_of_decodeHeader {bytes : Bytes} {e : SegmentEnvelope}
    (h : decodeHeader bytes = .ok e) : Sealed bytes := by
  have hcons : Consumes readHeaderFields 28 :=
    (consumes_readUnsigned 4).bind fun _ ↦ (consumes_readUnsigned 2).bind fun _ ↦
      (consumes_readUnsigned 2).bind fun _ ↦ (consumes_readUnsigned 4).bind fun _ ↦
        (consumes_readUnsigned 8).bind fun _ ↦ (consumes_readUnsigned 8).bind fun _ ↦
          Consumes.pure _
  rw [decodeHeader] at h
  split at h
  · cases h
  rename_i hlen
  split at h
  · cases h
  rename_i fields stored rest hrun
  split at h
  · cases h
  split at h
  · cases h
  rename_i hcrc
  rw [not_not.1 hcrc] at hrun
  exact sealed_of_readSealed hcons (not_not.1 hlen) hrun

/-- A footer that is accepted is sealed. -/
theorem sealed_of_decodeFooter {bytes : Bytes} {e : SegmentEnvelope}
    (h : decodeFooter bytes = .ok e) : Sealed bytes := by
  have hcons : Consumes readFooterFields 28 :=
    (consumes_readUnsigned 4).bind fun _ ↦ (consumes_readUnsigned 2).bind fun _ ↦
      (consumes_readUnsigned 2).bind fun _ ↦ (consumes_readUnsigned 8).bind fun _ ↦
        (consumes_readUnsigned 8).bind fun _ ↦ (consumes_readUnsigned 4).bind fun _ ↦
          Consumes.pure _
  rw [decodeFooter] at h
  split at h
  · cases h
  rename_i hlen
  split at h
  · cases h
  rename_i fields stored rest hrun
  split at h
  · cases h
  split at h
  · cases h
  rename_i hcrc
  rw [not_not.1 hcrc] at hrun
  exact sealed_of_readSealed hcons (not_not.1 hlen) hrun

/-- A header is refused with a format error. -/
theorem decodeHeader_formatErrorsOnly (bytes : Bytes) : FormatErrorsOnly (decodeHeader bytes) := by
  unfold decodeHeader
  repeat' split
  all_goals first | exact formatErrorsOnly_reject _ | exact formatErrorsOnly_ok _

theorem decodeFooter_formatErrorsOnly (bytes : Bytes) : FormatErrorsOnly (decodeFooter bytes) := by
  unfold decodeFooter
  repeat' split
  all_goals first | exact formatErrorsOnly_reject _ | exact formatErrorsOnly_ok _

/-! ### The index -/

/-- The fixed part of an index entry. -/
def indexEntryFixed (entry : SegmentIndexEntry) : Bytes :=
  writeU64 entry.blockOffset ++ (writeU32 entry.blockSize ++ (writeU32 entry.sampleCount ++
    (writeU64 entry.firstTimestamp.bits ++ writeU64 entry.lastTimestamp.bits)))

/-- The loop over the entries of `encode_index`. -/
def writeIndexEntries : List SegmentIndexEntry → Except Error Bytes
  | [] => .ok []
  | entry :: entries => do
    let series ← writeSeriesKey "segment index string is too large"
      "segment index contains too many tags" entry.series
    let rest ← writeIndexEntries entries
    return indexEntryFixed entry ++ series ++ rest

/-- The header of the index. -/
def indexHeader (entryCount payloadSize : ℕ) : Bytes :=
  writeU32 segmentIndexMagic ++ (writeU16 segmentFileVersion ++ (writeU16 segmentFileFlags ++
    (writeU32 entryCount ++ (writeU32 payloadSize ++ writeU32 (invert32 payloadSize)))))

/-- `encode_index`: one entry for each block, under one checksum. -/
def encodeIndex (entries : List SegmentIndexEntry) : Except Error Bytes := do
  let payload ← writeIndexEntries entries
  if payload.length > maxIndexPayloadSize then
    throw (.lengthError "segment index payload is too large")
  return withChecksum (indexHeader entries.length payload.length ++ payload)

/-- The layout of the index payload. -/
def indexPayload (entries : List SegmentIndexEntry) : Bytes :=
  entries.flatMap fun entry ↦ indexEntryFixed entry ++ seriesKeyBytes entry.series

/-- The layout of the index up to its checksum. -/
def indexBody (entries : List SegmentIndexEntry) : Bytes :=
  indexHeader entries.length (indexPayload entries).length ++ indexPayload entries

/-- The indexes the encoder accepts. -/
def IndexAccepts (entries : List SegmentIndexEntry) : Prop :=
  (indexPayload entries).length ≤ maxIndexPayloadSize

instance : DecidablePred IndexAccepts := fun entries ↦
  inferInstanceAs (Decidable ((indexPayload entries).length ≤ maxIndexPayloadSize))

@[simp] theorem length_indexHeader (count size : ℕ) :
    (indexHeader count size).length = segmentIndexHeaderSize := rfl

@[simp] theorem length_indexEntryFixed (entry : SegmentIndexEntry) :
    (indexEntryFixed entry).length = 32 := rfl

theorem indexPayload_cons (entry : SegmentIndexEntry) (entries : List SegmentIndexEntry) :
    indexPayload (entry :: entries) =
      indexEntryFixed entry ++ (seriesKeyBytes entry.series ++ indexPayload entries) := by
  simp [indexPayload]

/-- The size of the index: 32 bytes and the series key, for each block. -/
theorem length_indexPayload (entries : List SegmentIndexEntry) : (indexPayload entries).length =
    (entries.map fun entry ↦ 32 + (seriesKeyBytes entry.series).length).sum := by
  induction entries with
  | nil => rfl
  | cons entry entries ih =>
    rw [indexPayload_cons, List.length_append, List.length_append, ih, length_indexEntryFixed,
      List.map_cons, List.sum_cons]
    omega

theorem length_withChecksum_indexBody (entries : List SegmentIndexEntry) :
    (withChecksum (indexBody entries)).length =
      segmentIndexHeaderSize + (indexPayload entries).length + checksumSize := by
  rw [length_withChecksum, indexBody, List.length_append, length_indexHeader]
  rfl

/-- The entries are written, or one of them is too long, and then all of them together are. -/
theorem writeIndexEntries_cases (entries : List SegmentIndexEntry) :
    writeIndexEntries entries = .ok (indexPayload entries) ∨
      (∃ what, writeIndexEntries entries = .error (.lengthError what)) ∧
        2 ^ 32 ≤ (indexPayload entries).length := by
  induction entries with
  | nil => exact Or.inl rfl
  | cons entry entries ih =>
    have hlen : (indexPayload (entry :: entries)).length =
        32 + (seriesKeyBytes entry.series).length + (indexPayload entries).length := by
      rw [indexPayload_cons, List.length_append, List.length_append, length_indexEntryFixed]
      omega
    rcases writeSeriesKey_cases "segment index string is too large"
      "segment index contains too many tags" entry.series with hs | ⟨⟨what, hs⟩, hlong⟩
    · rcases ih with ih | ⟨⟨what, ih⟩, hlong⟩
      · refine Or.inl ?_
        rw [writeIndexEntries, hs, ih, indexPayload_cons, ← List.append_assoc]
        rfl
      · refine Or.inr ⟨⟨what, ?_⟩, by omega⟩
        rw [writeIndexEntries, hs, ih]
        rfl
    · refine Or.inr ⟨⟨what, ?_⟩, by omega⟩
      rw [writeIndexEntries, hs]
      rfl

/-- **The index encoder's only condition is the size of the payload.** -/
theorem encodeIndex_cases (entries : List SegmentIndexEntry) :
    IndexAccepts entries ∧ encodeIndex entries = .ok (withChecksum (indexBody entries)) ∨
      ¬IndexAccepts entries ∧ ∃ what, encodeIndex entries = .error (.lengthError what) := by
  rcases writeIndexEntries_cases entries with hp | ⟨⟨what, hp⟩, hlong⟩
  · by_cases hacc : IndexAccepts entries
    · have hlimit : ¬(indexPayload entries).length > maxIndexPayloadSize := not_lt.2 hacc
      refine Or.inl ⟨hacc, ?_⟩
      rw [encodeIndex, hp]
      simp only [bind, Except.bind, hlimit, if_false, pure, Except.pure]
      rfl
    · have hlimit : (indexPayload entries).length > maxIndexPayloadSize := not_le.1 hacc
      refine Or.inr ⟨hacc, "segment index payload is too large", ?_⟩
      rw [encodeIndex, hp]
      simp only [bind, Except.bind, hlimit, if_true]
      rfl
  · refine Or.inr ⟨?_, what, ?_⟩
    · unfold IndexAccepts maxIndexPayloadSize
      omega
    · rw [encodeIndex, hp]
      rfl

/-- `read_series_key`; an exception of a model constructor is a refusal. -/
def readSeriesKey : Parser UInt8 SeriesKey := do
  let measurement ← readString
  let tagCount ← readU32
  requireRemaining fun remaining ↦ tagCount ≤ remaining / 8
  let tags ← readTags true tagCount []
  liftM (SeriesKey.make measurement tags).toOption

/-- The fixed part of an index entry, in the order it is read. -/
def readIndexEntryFixed : Parser UInt8 (ℕ × ℕ × ℕ × ℕ × ℕ) := do
  let blockOffset ← readU64
  let blockSize ← readU32
  let sampleCount ← readU32
  let firstTimestampBits ← readU64
  let lastTimestampBits ← readU64
  return (blockOffset, blockSize, sampleCount, firstTimestampBits, lastTimestampBits)

/-- The loop over the entries of `decode_index`, with the payload that is left behind them. -/
def readIndexEntries : (count : ℕ) → (payload : Bytes) →
    Except Error (List SegmentIndexEntry × Bytes)
  | 0, payload => .ok ([], payload)
  | n + 1, payload =>
    match readIndexEntryFixed.run payload with
    | none => reject "segment index entry is incomplete"
    | some ((blockOffset, blockSize, sampleCount, firstBits, lastBits), payload) =>
      match readSeriesKey.run payload with
      | none => reject "segment index contains an invalid series key"
      | some (series, payload) => do
        let (entries, payload) ← readIndexEntries n payload
        return (⟨series, .ofBits firstBits, .ofBits lastBits, blockOffset, blockSize,
          sampleCount⟩ ::
          entries, payload)

/-- Does the entry stand behind the one before it, in series and then in time? -/
def SegmentIndexEntry.Follows (previous entry : SegmentIndexEntry) : Prop :=
  ¬(entry.series < previous.series ∨
    entry.series = previous.series ∧ entry.firstTimestamp ≤ previous.lastTimestamp)

instance (previous entry : SegmentIndexEntry) : Decidable (previous.Follows entry) :=
  inferInstanceAs (Decidable ¬_)

/-- The loop of `validate_index`: the entries still to be checked, the offset where the next block
must start, and the entry before. -/
def validateIndexFrom (indexOffset : ℕ) :
    (previous : Option SegmentIndexEntry) → (expectedOffset : ℕ) → List SegmentIndexEntry →
      Except Error Unit
  | _, expectedOffset, [] =>
    if expectedOffset ≠ indexOffset then reject "segment block region has an invalid size"
    else .ok ()
  | previous, expectedOffset, entry :: entries =>
    if entry.blockOffset ≠ expectedOffset ∨ entry.blockOffset > indexOffset ∨ entry.blockSize = 0 ∨
        entry.sampleCount = 0 ∨ entry.sampleCount > maxSamplesPerSegmentBlock ∨
        entry.lastTimestamp < entry.firstTimestamp then
      reject "invalid segment index entry" else
    if entry.blockSize > indexOffset - entry.blockOffset then
      reject "segment block extends into index" else
    if previous.any fun p ↦ !decide (p.Follows entry) then
      reject "segment index is not strictly ordered" else
    validateIndexFrom indexOffset (some entry) (expectedOffset + entry.blockSize) entries

/-- `validate_index`: the blocks lie one behind the other from the header to the index, in the order
of their series and times. -/
def validateIndex (entries : List SegmentIndexEntry) (indexOffset : ℕ) : Except Error Unit :=
  validateIndexFrom indexOffset none segmentHeaderSize entries

/-- The header fields of the index. -/
structure IndexHeader where
  magic : ℕ
  version : ℕ
  flags : ℕ
  entryCount : ℕ
  payloadSize : ℕ
  invertedSize : ℕ

def readIndexHeader : Parser UInt8 IndexHeader := do
  let magic ← readU32
  let version ← readU16
  let flags ← readU16
  let entryCount ← readU32
  let payloadSize ← readU32
  let invertedSize ← readU32
  return ⟨magic, version, flags, entryCount, payloadSize, invertedSize⟩

/-- Is the checksum at the end of the bytes the checksum of what stands before it? -/
def checksumMatches (bytes : Bytes) : Bool :=
  match readU32.run (bytes.drop (bytes.length - checksumSize)) with
  | none => false
  | some (storedChecksum, _) => storedChecksum = crc32c (bytes.take (bytes.length - checksumSize))

/-- `decode_index`: the entries are read only after the checksum has been compared, and they have to
fill the payload. -/
def decodeIndex (bytes : Bytes) (expectedEntryCount indexOffset : ℕ) :
    Except Error (List SegmentIndexEntry) :=
  if bytes.length < segmentIndexHeaderSize + checksumSize then
    reject "segment index is incomplete" else
  match readIndexHeader.run bytes with
  | none => reject "segment index header is incomplete"
  | some (header, _) =>
    if header.magic ≠ segmentIndexMagic ∨ header.version ≠ segmentFileVersion ∨
        header.flags ≠ segmentFileFlags then
      reject "invalid or unsupported segment index header" else
    if header.entryCount ≠ expectedEntryCount ∨ header.entryCount = 0 ∨
        header.entryCount > maxSegmentBlockCount ∨
        header.invertedSize ≠ invert32 header.payloadSize ∨
        header.payloadSize > maxIndexPayloadSize then
      reject "invalid segment index metadata" else
    if bytes.length ≠ segmentIndexHeaderSize + header.payloadSize + checksumSize then
      reject "segment index size mismatch" else
    if checksumMatches bytes = false then reject "segment index checksum mismatch" else do
    let (entries, rest) ← readIndexEntries header.entryCount
      ((bytes.drop segmentIndexHeaderSize).take header.payloadSize)
    if rest ≠ [] then reject "segment index contains trailing payload bytes"
    validateIndex entries indexOffset
    return entries

/-- The fields of an entry fit into their columns. -/
structure SegmentIndexEntry.Fits (entry : SegmentIndexEntry) : Prop where
  blockOffset_lt : entry.blockOffset < 2 ^ 64
  blockSize_lt : entry.blockSize < 2 ^ 32
  sampleCount_lt : entry.sampleCount < 2 ^ 32

/-- A series is read back. -/
theorem parses_readSeriesKey (series : SeriesKey) (h : (seriesKeyBytes series).length < 2 ^ 32) :
    Parses readSeriesKey (seriesKeyBytes series) series := by
  have hkey := length_seriesKeyBytes series
  have htags := length_tags_le series.tags
  have hbytes : seriesKeyBytes series = stringBytes series.measurement ++
      (writeU32 series.tags.length ++ (series.tags.flatMap tagBytes)) := by
    simp [seriesKeyBytes]
  have hloop : Parses (readTags true series.tags.length []) (series.tags.flatMap tagBytes)
      series.tags := by
    have := parses_readTags true series.tags [] series.tags_sorted (by omega)
    rwa [List.nil_append] at this
  rw [hbytes]
  refine (parses_readString (by omega)).bind ((parses_readU32 (by omega)).bind ?_)
  refine Parses.requireRemaining_bind (fun n hn ↦ decide_eq_true (by omega)) (hloop.bind_nil ?_)
  exact Parses.ofOption (by rw [SeriesKey.make_measurement_tags]; rfl)

theorem parses_readIndexEntryFixed {entry : SegmentIndexEntry} (h : entry.Fits) :
    Parses readIndexEntryFixed (indexEntryFixed entry) (entry.blockOffset, entry.blockSize,
      entry.sampleCount, entry.firstTimestamp.bits, entry.lastTimestamp.bits) :=
  (parses_readU64 h.blockOffset_lt).bind ((parses_readU32 h.blockSize_lt).bind
    ((parses_readU32 h.sampleCount_lt).bind ((parses_readU64 entry.firstTimestamp.bits_lt).bind
      ((parses_readU64 entry.lastTimestamp.bits_lt).bind_nil (Parses.pure _)))))

/-- The entries of an index are read back. -/
theorem readIndexEntries_payload {entries : List SegmentIndexEntry} (hfit : ∀ e ∈ entries, e.Fits)
    (hlen : (indexPayload entries).length < 2 ^ 32) :
    readIndexEntries entries.length (indexPayload entries) = .ok (entries, []) := by
  induction entries with
  | nil => rfl
  | cons entry entries ih =>
    rw [indexPayload_cons, List.length_append, List.length_append] at hlen
    have hrest := ih (fun e he ↦ hfit e (List.mem_cons_of_mem _ he)) (by omega)
    have hfixed := parses_readIndexEntryFixed (hfit entry List.mem_cons_self)
    have hkey := parses_readSeriesKey entry.series (by omega)
    rw [List.length_cons, readIndexEntries, indexPayload_cons, hfixed]
    simp only [hkey _, hrest, Timestamp.ofBits_bits]
    rfl

/-- **The index reads back as itself**, if it passes the checks of `validate_index`. -/
theorem decodeIndex_indexBody {entries : List SegmentIndexEntry} {indexOffset : ℕ}
    (hacc : IndexAccepts entries) (hfit : ∀ e ∈ entries, e.Fits) (h0 : entries ≠ [])
    (hmax : entries.length ≤ maxSegmentBlockCount)
    (hvalid : validateIndex entries indexOffset = .ok ()) :
    decodeIndex (withChecksum (indexBody entries)) entries.length indexOffset = .ok entries := by
  have hlen := length_withChecksum_indexBody entries
  have hpay : (indexPayload entries).length < 2 ^ 32 := lt_of_le_of_lt hacc (by decide)
  have hcount : entries.length < 2 ^ 32 := lt_of_le_of_lt hmax (by decide)
  have hpos : entries.length ≠ 0 := fun h ↦ h0 (List.length_eq_zero_iff.1 h)
  have hheader : Parses readIndexHeader (indexHeader entries.length (indexPayload entries).length)
      ⟨segmentIndexMagic, segmentFileVersion, segmentFileFlags, entries.length,
        (indexPayload entries).length, invert32 (indexPayload entries).length⟩ := by
    refine (parses_readU32 (by decide)).bind ((parses_readU16 (by decide)).bind
      ((parses_readU16 (by decide)).bind ((parses_readU32 hcount).bind
        ((parses_readU32 hpay).bind ?_))))
    exact (parses_readU32 (invert32_lt hpay)).bind_nil (Parses.pure _)
  have hrun := hheader (indexPayload entries ++ writeU32 (crc32c (indexBody entries)))
  rw [← List.append_assoc] at hrun
  change readIndexHeader.run (withChecksum (indexBody entries)) = _ at hrun
  have hsub : (withChecksum (indexBody entries)).length - checksumSize =
      (indexBody entries).length := by
    rw [length_withChecksum]
    rfl
  have hsum : checksumMatches (withChecksum (indexBody entries)) = true := by
    rw [checksumMatches, hsub, withChecksum, List.drop_left, List.take_left,
      (parses_readU32 (crc32c_lt _)).run_self]
    simp
  have hslice : ((withChecksum (indexBody entries)).drop segmentIndexHeaderSize).take
      (indexPayload entries).length = indexPayload entries := by
    rw [withChecksum, indexBody, List.append_assoc, List.drop_left' (length_indexHeader _ _),
      List.take_left]
  rw [decodeIndex, if_neg (by omega), hrun]
  simp only [hsum, hlen, hslice, readIndexEntries_payload hfit hpay, ne_eq,
    not_true_eq_false, if_false, or_self, hpos, false_or, Bool.true_eq_false]
  rw [if_neg (by unfold IndexAccepts at hacc; omega)]
  simp only [bind, Except.bind, hvalid, not_true_eq_false, if_false, pure, Except.pure]

/-- Bytes whose checksum matches are sealed. -/
theorem sealed_of_checksumMatches {bytes : Bytes} (hlen : checksumSize ≤ bytes.length)
    (h : checksumMatches bytes = true) : Sealed bytes := by
  unfold checksumSize at hlen
  rw [checksumMatches] at h
  split at h
  · simp at h
  · rename_i stored rest hrun
    rw [of_decide_eq_true h] at hrun
    exact sealed_of_checksum (by unfold checksumSize; omega) _ hrun

/-- An index that is accepted is sealed. -/
theorem sealed_of_decodeIndex {bytes : Bytes} {count indexOffset : ℕ}
    {entries : List SegmentIndexEntry} (h : decodeIndex bytes count indexOffset = .ok entries) :
    Sealed bytes := by
  rw [decodeIndex] at h
  split at h
  · cases h
  rename_i hlong
  split at h
  · cases h
  split at h
  · cases h
  split at h
  · cases h
  split at h
  · cases h
  split at h
  · cases h
  rename_i hsum
  exact sealed_of_checksumMatches (by omega) (by simpa using hsum)

theorem readIndexEntries_formatErrorsOnly (count : ℕ) (payload : Bytes) :
    FormatErrorsOnly (readIndexEntries count payload) := by
  induction count generalizing payload with
  | zero => exact formatErrorsOnly_ok _
  | succ n ih =>
    rw [readIndexEntries]
    split
    · exact formatErrorsOnly_reject _
    split
    · exact formatErrorsOnly_reject _
    · exact (ih _).bind fun _ _ ↦ formatErrorsOnly_ok _

/-- An index that does not tile the file is refused with a format error. -/
theorem validateIndexFrom_formatErrorsOnly (indexOffset : ℕ) (previous : Option SegmentIndexEntry)
    (expectedOffset : ℕ) (entries : List SegmentIndexEntry) :
    FormatErrorsOnly (validateIndexFrom indexOffset previous expectedOffset entries) := by
  induction entries generalizing previous expectedOffset with
  | nil =>
    rw [validateIndexFrom]
    split
    · exact formatErrorsOnly_reject _
    · exact formatErrorsOnly_ok _
  | cons entry entries ih =>
    rw [validateIndexFrom]
    split
    · exact formatErrorsOnly_reject _
    split
    · exact formatErrorsOnly_reject _
    split
    · exact formatErrorsOnly_reject _
    · exact ih _ _

/-- An index is refused with a format error. -/
theorem decodeIndex_formatErrorsOnly (bytes : Bytes) (count indexOffset : ℕ) :
    FormatErrorsOnly (decodeIndex bytes count indexOffset) := by
  unfold decodeIndex
  split
  · exact formatErrorsOnly_reject _
  split
  · exact formatErrorsOnly_reject _
  split
  · exact formatErrorsOnly_reject _
  split
  · exact formatErrorsOnly_reject _
  split
  · exact formatErrorsOnly_reject _
  split
  · exact formatErrorsOnly_reject _
  refine (readIndexEntries_formatErrorsOnly _ _).bind fun x _ ↦ ?_
  obtain ⟨entries, rest⟩ := x
  have htail : FormatErrorsOnly (do validateIndex entries indexOffset; return entries) :=
    (validateIndexFrom_formatErrorsOnly _ _ _ _).bind fun _ _ ↦ formatErrorsOnly_ok _
  by_cases hrest : rest = []
  · simpa [hrest] using htail
  · simpa [hrest] using (formatErrorsOnly_reject _).bind fun _ _ ↦ htail

end ChronoStore
