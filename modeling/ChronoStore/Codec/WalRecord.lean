import ChronoStore.Codec.Crc32c

/-!
# Write-ahead log records

The record format of `wal_record.cpp`: a header of 14 bytes with the payload length and its inverse,
the payload, and a checksum over both. `encodeWalRecord` and `decodeWalRecord` follow the source;
the layout that an accepted record is written in is `walFrame`, and `WalAccepts` is the one
condition the encoder puts on a record, that its payload fits into 16 MiB.

Four facts about the decoder are what replay rests on, for every input:

* in front of anything, a frame decodes to its record (`decodeWalRecord_frame`);
* a proper prefix of a frame is reported as **incomplete**, never as damage
  (`decodeWalRecord_of_cut`);
* a verdict other than *incomplete* is final: no later byte changes it (`decodeWalRecord_append`);
* a frame damaged inside one window of four bytes is reported as damage, never as incomplete and
  never as a record (`decodeWalRecord_of_burst`).
-/

namespace ChronoStore

open Parser

/-- A put operation, as the log records it. -/
structure WalPutRecord where
  series : SeriesKey
  sample : Sample
deriving DecidableEq

/-- The decoder's verdict. -/
structure WalDecodeResult where
  record : Option WalPutRecord
  error : WalDecodeError
  bytesConsumed : ℕ
deriving DecidableEq

/-- `WalDecodeResult::success`: there is a record, and no error beside it. -/
def WalDecodeResult.success (r : WalDecodeResult) : Bool := r.record.isSome && r.error = .none

/-- Little-endian bytes spell "CSWL". -/
def walMagic : ℕ := 0x4C575343
def walVersion : ℕ := 1
/-- `WalRecordType::put`, the only type of record. -/
def walPutType : ℕ := 1
def walMaxPayloadSize : ℕ := 16 * 1024 * 1024
def walHeaderSize : ℕ := 14
def walChecksumSize : ℕ := 4

/-! ### Encoding -/

/-- `encode_payload`: the series and one sample. -/
def encodeWalPayload (record : WalPutRecord) : Except Error Bytes := do
  let series ← writeSeriesKey "WAL string is too large" "too many WAL tags" record.series
  return series ++ writeU64 record.sample.timestamp.bits ++ writeU64 record.sample.value.bits.toNat

/-- The header in front of a payload of the given length. -/
def walHeader (payloadLength : ℕ) : Bytes :=
  writeU32 walMagic ++ (writeU8 walVersion ++ (writeU8 walPutType ++
    (writeU32 payloadLength ++ writeU32 (invert32 payloadLength))))

/-- `encode_wal_record`: header, payload, and a checksum over both. -/
def encodeWalRecord (record : WalPutRecord) : Except Error Bytes := do
  let payload ← encodeWalPayload record
  if payload.length > walMaxPayloadSize then throw (.lengthError "WAL payload is too large")
  let data := walHeader payload.length ++ payload
  return data ++ writeU32 (crc32c data)

/-- The layout of a payload. -/
def walPayload (record : WalPutRecord) : Bytes :=
  seriesKeyBytes record.series ++ writeU64 record.sample.timestamp.bits ++
    writeU64 record.sample.value.bits.toNat

/-- The layout of a record up to its checksum. -/
def walBody (record : WalPutRecord) : Bytes :=
  walHeader (walPayload record).length ++ walPayload record

/-- The layout of a record. -/
def walFrame (record : WalPutRecord) : Bytes := walBody record ++ writeU32 (crc32c (walBody record))

/-- The records the encoder accepts. -/
def WalAccepts (record : WalPutRecord) : Prop := (walPayload record).length ≤ walMaxPayloadSize

instance : DecidablePred WalAccepts := fun record ↦
  inferInstanceAs (Decidable ((walPayload record).length ≤ walMaxPayloadSize))

@[simp] theorem length_walHeader (n : ℕ) : (walHeader n).length = walHeaderSize := rfl

theorem length_walPayload (record : WalPutRecord) :
    (walPayload record).length = (seriesKeyBytes record.series).length + 16 := by
  simp [walPayload]

theorem length_walFrame (record : WalPutRecord) :
    (walFrame record).length = walHeaderSize + (walPayload record).length + walChecksumSize := by
  simp only [walFrame, walBody, List.length_append, length_walHeader, length_writeU32,
    walChecksumSize]

/-- A record ends with its checksum. -/
theorem sealed_walFrame (record : WalPutRecord) : Sealed (walFrame record) := ⟨walBody record, rfl⟩

/-- An accepted record is written in the layout of `walFrame`. -/
theorem encodeWalRecord_of_accepts {record : WalPutRecord} (h : WalAccepts record) :
    encodeWalRecord record = .ok (walFrame record) := by
  have hlen := length_walPayload record
  have hlimit : ¬(walPayload record).length > walMaxPayloadSize := not_lt.2 h
  rcases writeSeriesKey_cases "WAL string is too large" "too many WAL tags" record.series with
    hs | ⟨-, hlong⟩
  · have hpayload : encodeWalPayload record = .ok (walPayload record) := by
      rw [encodeWalPayload, hs]
      rfl
    rw [encodeWalRecord, hpayload]
    simp only [bind, Except.bind, hlimit, if_false, pure, Except.pure]
    rfl
  · unfold WalAccepts walMaxPayloadSize at h
    omega

/-- A record the encoder does not accept makes it throw a length error, and nothing else. -/
theorem encodeWalRecord_of_not_accepts {record : WalPutRecord} (h : ¬WalAccepts record) :
    ∃ what, encodeWalRecord record = .error (.lengthError what) := by
  have hlimit : (walPayload record).length > walMaxPayloadSize := not_le.1 h
  rcases writeSeriesKey_cases "WAL string is too large" "too many WAL tags" record.series with
    hs | ⟨⟨what, hs⟩, -⟩
  · have hpayload : encodeWalPayload record = .ok (walPayload record) := by
      rw [encodeWalPayload, hs]
      rfl
    refine ⟨"WAL payload is too large", ?_⟩
    rw [encodeWalRecord, hpayload]
    simp only [bind, Except.bind, hlimit, if_true]
    rfl
  · refine ⟨what, ?_⟩
    rw [encodeWalRecord, encodeWalPayload, hs]
    rfl

/-- What the encoder has written is the layout of a record that it accepts. -/
theorem accepts_of_encodeWalRecord {record : WalPutRecord} {bytes : Bytes}
    (h : encodeWalRecord record = .ok bytes) : WalAccepts record ∧ bytes = walFrame record := by
  by_cases ha : WalAccepts record
  · rw [encodeWalRecord_of_accepts ha] at h
    exact ⟨ha, (Except.ok.inj h).symm⟩
  · obtain ⟨what, he⟩ := encodeWalRecord_of_not_accepts ha
    rw [he] at h
    simp at h

/-! ### Decoding -/

/-- The fields of a payload, in the order they are read. -/
def readWalPayload : Parser UInt8 (Bytes × List Tag × ℕ × ℕ) := do
  let measurement ← readString
  let tagCount ← readU32
  let tags ← readTags false tagCount []
  let timestampBits ← readU64
  let valueBits ← readU64
  return (measurement, tags, timestampBits, valueBits)

/-- `decode_payload`; an exception of a model constructor is a refusal. -/
def decodeWalPayload (payload : Bytes) : Option WalPutRecord :=
  match readWalPayload.run payload with
  | some ((measurement, tags, timestampBits, valueBits), []) => do
    let series ← (SeriesKey.make measurement tags).toOption
    let sample ← (Sample.make (.ofBits timestampBits) (UInt64.ofNat valueBits)).toOption
    return ⟨series, sample⟩
  | _ => none

/-- The header fields. -/
structure WalHeader where
  magic : ℕ
  version : ℕ
  recordType : ℕ
  payloadLength : ℕ
  invertedLength : ℕ

def readWalHeader : Parser UInt8 WalHeader := do
  let magic ← readU32
  let version ← readU8
  let recordType ← readU8
  let payloadLength ← readU32
  let invertedLength ← readU32
  return ⟨magic, version, recordType, payloadLength, invertedLength⟩

/-- `make_decode_error`: a refusal consumes nothing. -/
def walDecodeError (error : WalDecodeError) : WalDecodeResult := ⟨none, error, 0⟩

/-- The decoder once the header fields are read. -/
def decodeWalFramed (header : WalHeader) (bytes : Bytes) : WalDecodeResult :=
  if header.magic ≠ walMagic then walDecodeError .invalidMagic else
  if header.invertedLength ≠ invert32 header.payloadLength then walDecodeError .invalidLength else
  if header.payloadLength > walMaxPayloadSize then walDecodeError .invalidLength else
  let protectedSize := walHeaderSize + header.payloadLength
  let totalRecordSize := protectedSize + walChecksumSize
  if bytes.length < totalRecordSize then walDecodeError .incompleteRecord else
  match readU32.run ((bytes.drop protectedSize).take walChecksumSize) with
  | none => walDecodeError .incompleteRecord
  | some (storedChecksum, _) =>
    if storedChecksum ≠ crc32c (bytes.take protectedSize) then walDecodeError .checksumMismatch else
    if header.version ≠ walVersion then walDecodeError .unsupportedVersion else
    if header.recordType ≠ walPutType then walDecodeError .unsupportedRecordType else
    match decodeWalPayload ((bytes.drop walHeaderSize).take header.payloadLength) with
    | none => walDecodeError .invalidPayload
    | some record => ⟨some record, .none, totalRecordSize⟩

/-- `decode_wal_record`: the length of a record is stored twice, so a record that is cut short is
told from one whose length is wrong before its end has been read. -/
def decodeWalRecord (bytes : Bytes) : WalDecodeResult :=
  if bytes.length < walHeaderSize then walDecodeError .incompleteRecord else
  match readWalHeader.run bytes with
  | none => walDecodeError .incompleteRecord
  | some (header, _) => decodeWalFramed header bytes

/-! ### The header a byte string starts with -/

/-- The header fields as slices of the input. -/
def walHeaderOf (bytes : Bytes) : WalHeader :=
  ⟨littleEndian (bytes.take 4), littleEndian ((bytes.drop 4).take 1),
    littleEndian ((bytes.drop 5).take 1), littleEndian ((bytes.drop 6).take 4),
    littleEndian ((bytes.drop 10).take 4)⟩

/-- With enough bytes, the header fields are slices of them. -/
theorem readWalHeader_run {bytes : Bytes} (h : walHeaderSize ≤ bytes.length) :
    readWalHeader.run bytes = some (walHeaderOf bytes, bytes.drop walHeaderSize) := by
  unfold walHeaderSize at h ⊢
  unfold readWalHeader readU32 readU8
  simp only [run_bind_eq]
  rw [readUnsigned_run (by decide) (by omega)]
  simp only [Option.bind_some]
  rw [readUnsigned_run (by decide) (by simp; omega)]
  simp only [Option.bind_some]
  rw [readUnsigned_run (by decide) (by simp; omega)]
  simp only [Option.bind_some]
  rw [readUnsigned_run (by decide) (by simp; omega)]
  simp only [Option.bind_some]
  rw [readUnsigned_run (by decide) (by simp; omega)]
  simp only [Option.bind_some, List.drop_drop]
  rfl

/-- With enough bytes, the decoder depends on the header fields. -/
theorem decodeWalRecord_eq {bytes : Bytes} (h : walHeaderSize ≤ bytes.length) :
    decodeWalRecord bytes = decodeWalFramed (walHeaderOf bytes) bytes := by
  rw [decodeWalRecord, if_neg (by omega), readWalHeader_run h]

/-- What follows does not change the header. -/
theorem walHeaderOf_append {bytes : Bytes} (h : walHeaderSize ≤ bytes.length) (more : Bytes) :
    walHeaderOf (bytes ++ more) = walHeaderOf bytes := by
  unfold walHeaderSize at h
  have hslice : ∀ a b, a + b ≤ 14 →
      ((bytes ++ more).drop a).take b = (bytes.drop a).take b := by
    intro a b hab
    rw [List.drop_append_of_le_length (by omega), List.take_append_of_le_length (by simp; omega)]
  have h0 := hslice 0 4 (by omega)
  rw [List.drop_zero, List.drop_zero] at h0
  simp only [walHeaderOf, h0, hslice 4 1 (by omega), hslice 5 1 (by omega), hslice 6 4 (by omega),
    hslice 10 4 (by omega)]

/-- A header that has been written is read back. -/
theorem walHeaderOf_header {n : ℕ} (h : n < 2 ^ 32) (rest : Bytes) :
    walHeaderOf (walHeader n ++ rest) = ⟨walMagic, walVersion, walPutType, n, invert32 n⟩ := by
  have hlen : walHeaderSize ≤ (walHeader n).length := le_refl _
  have hparse : Parses readWalHeader (walHeader n)
      ⟨walMagic, walVersion, walPutType, n, invert32 n⟩ := by
    refine (parses_readU32 (by decide)).bind ((parses_readU8 (by decide)).bind
      ((parses_readU8 (by decide)).bind ((parses_readU32 h).bind ?_)))
    exact (parses_readU32 (invert32_lt h)).bind_nil (Parses.pure _)
  have hrun := hparse []
  rw [List.append_nil, readWalHeader_run hlen, Option.some.injEq, Prod.mk.injEq] at hrun
  rw [walHeaderOf_append hlen, hrun.1]

/-- The frame starts with a header that names its payload. -/
theorem walHeaderOf_frame {record : WalPutRecord} (h : WalAccepts record) (rest : Bytes) :
    walHeaderOf (walFrame record ++ rest) =
      ⟨walMagic, walVersion, walPutType, (walPayload record).length,
        invert32 (walPayload record).length⟩ := by
  have hlt : (walPayload record).length < 2 ^ 32 := lt_of_le_of_lt h (by decide)
  rw [walFrame, walBody, List.append_assoc, List.append_assoc, walHeaderOf_header hlt]

/-! ### Round trip -/

/-- The payload of an accepted record is parsed into what it was made from. -/
theorem parses_readWalPayload {record : WalPutRecord} (h : WalAccepts record) :
    Parses readWalPayload (walPayload record) (record.series.measurement, record.series.tags,
      record.sample.timestamp.bits, record.sample.value.bits.toNat) := by
  have hlen := length_walPayload record
  have hkey := length_seriesKeyBytes record.series
  have htags := length_tags_le record.series.tags
  unfold WalAccepts walMaxPayloadSize at h
  have hbytes : walPayload record = stringBytes record.series.measurement ++
      (writeU32 record.series.tags.length ++ (record.series.tags.flatMap tagBytes ++
        (writeU64 record.sample.timestamp.bits ++ writeU64 record.sample.value.bits.toNat))) := by
    simp [walPayload, seriesKeyBytes]
  have hloop : Parses (readTags false record.series.tags.length [])
      (record.series.tags.flatMap tagBytes) record.series.tags := by
    have := parses_readTags false record.series.tags []
      record.series.tags_sorted (by omega)
    rwa [List.nil_append] at this
  rw [hbytes]
  refine (parses_readString (by omega)).bind ((parses_readU32 (by omega)).bind
    (hloop.bind ((parses_readU64 record.sample.timestamp.bits_lt).bind ?_)))
  exact (parses_readU64 (UInt64.toNat_lt _)).bind_nil (Parses.pure _)

/-- The payload of an accepted record decodes to the record. -/
theorem decodeWalPayload_payload {record : WalPutRecord} (h : WalAccepts record) :
    decodeWalPayload (walPayload record) = some record := by
  rw [decodeWalPayload, (parses_readWalPayload h).run_self]
  simp only [SeriesKey.make_measurement_tags, Timestamp.ofBits_bits, UInt64.ofNat_toNat,
    Sample.make_timestamp_bits]
  rfl

/-- The frame around a payload. -/
def walFrameOf (payload : Bytes) : Bytes :=
  walHeader payload.length ++ payload ++ writeU32 (crc32c (walHeader payload.length ++ payload))

theorem walFrame_eq (record : WalPutRecord) :
    walFrame record = walFrameOf (walPayload record) := rfl

theorem length_walFrameOf (payload : Bytes) :
    (walFrameOf payload).length = walHeaderSize + payload.length + walChecksumSize := by
  simp only [walFrameOf, List.length_append, length_walHeader, length_writeU32, walChecksumSize]

/-- In front of anything, the frame around a payload decodes to the record of the payload. -/
theorem decodeWalRecord_walFrameOf {payload : Bytes} {record : WalPutRecord}
    (hmax : payload.length ≤ walMaxPayloadSize) (h : decodeWalPayload payload = some record)
    (rest : Bytes) : decodeWalRecord (walFrameOf payload ++ rest) =
      ⟨some record, .none, (walFrameOf payload).length⟩ := by
  have hlen := length_walFrameOf payload
  have hlt : payload.length < 2 ^ 32 := lt_of_le_of_lt hmax (by decide)
  have hhead : walHeaderOf (walFrameOf payload ++ rest) =
      ⟨walMagic, walVersion, walPutType, payload.length, invert32 payload.length⟩ := by
    rw [walFrameOf, List.append_assoc, List.append_assoc, walHeaderOf_header hlt]
  have hbody : (walHeader payload.length ++ payload).length = walHeaderSize + payload.length := by
    simp
  have htotal : walHeaderSize + payload.length + walChecksumSize ≤
      (walFrameOf payload ++ rest).length := by
    rw [List.length_append]
    omega
  have htake : (walFrameOf payload ++ rest).take (walHeaderSize + payload.length) =
      walHeader payload.length ++ payload := by
    rw [walFrameOf, List.append_assoc, ← hbody, List.take_left]
  have hsum : ((walFrameOf payload ++ rest).drop (walHeaderSize + payload.length)).take
      walChecksumSize = writeU32 (crc32c (walHeader payload.length ++ payload)) := by
    rw [walFrameOf, List.append_assoc, ← hbody, List.drop_left]
    exact List.take_left' (length_writeU32 _)
  have hpay : ((walFrameOf payload ++ rest).drop walHeaderSize).take payload.length = payload := by
    rw [walFrameOf, List.append_assoc, List.append_assoc, List.drop_left' (length_walHeader _),
      List.take_left]
  rw [decodeWalRecord_eq (by omega), hhead]
  simp only [decodeWalFramed, hpay, htake, hsum, (parses_readU32 (crc32c_lt _)).run_self, h, ne_eq,
    not_true_eq_false, if_false, not_lt.2 htotal, hlen]
  rw [if_neg (not_lt.2 hmax)]

/-- **Records are self-delimiting**: in front of anything, a frame decodes to its record. -/
theorem decodeWalRecord_frame {record : WalPutRecord} (h : WalAccepts record) (rest : Bytes) :
    decodeWalRecord (walFrame record ++ rest) =
      ⟨some record, .none, (walFrame record).length⟩ :=
  decodeWalRecord_walFrameOf h (decodeWalPayload_payload h) rest

/-- **An interrupted append is incomplete, not damaged.** -/
theorem decodeWalRecord_of_cut {record : WalPutRecord} (h : WalAccepts record) {p : Bytes}
    (hp : p <+: walFrame record) (hne : p ≠ walFrame record) :
    decodeWalRecord p = walDecodeError .incompleteRecord := by
  obtain ⟨rest, hrest⟩ := hp
  have hlt : p.length < (walFrame record).length := by
    have hrest' : rest ≠ [] := by
      rintro rfl
      exact hne (by rw [← hrest, List.append_nil])
    have := List.length_pos_of_ne_nil hrest'
    rw [← hrest, List.length_append]
    omega
  by_cases hshort : p.length < walHeaderSize
  · rw [decodeWalRecord, if_pos hshort]
  · have hhead : walHeaderOf p = ⟨walMagic, walVersion, walPutType, (walPayload record).length,
        invert32 (walPayload record).length⟩ := by
      rw [← walHeaderOf_append (not_lt.1 hshort) rest, hrest, ← walHeaderOf_frame h [],
        List.append_nil]
    rw [length_walFrame] at hlt
    rw [decodeWalRecord_eq (not_lt.1 hshort), hhead, decodeWalFramed]
    simp only [ne_eq, not_true_eq_false, if_false]
    rw [if_neg (not_lt.2 h), if_pos hlt]

/-! ### Final verdicts -/

/-- **A verdict other than incomplete is final.** -/
theorem decodeWalRecord_append {bytes : Bytes}
    (h : (decodeWalRecord bytes).error ≠ .incompleteRecord) (more : Bytes) :
    decodeWalRecord (bytes ++ more) = decodeWalRecord bytes := by
  have hlong : walHeaderSize ≤ bytes.length := by
    by_contra hshort
    rw [decodeWalRecord, if_pos (not_le.1 hshort)] at h
    exact h rfl
  have happ : walHeaderSize ≤ (bytes ++ more).length := by rw [List.length_append]; omega
  rw [decodeWalRecord_eq hlong] at h ⊢
  rw [decodeWalRecord_eq happ, walHeaderOf_append hlong]
  unfold decodeWalFramed at h ⊢
  generalize walHeaderOf bytes = header at h ⊢
  by_cases hmagic : header.magic ≠ walMagic
  · rw [if_pos hmagic, if_pos hmagic]
  rw [if_neg hmagic] at h ⊢
  rw [if_neg hmagic]
  by_cases hinv : header.invertedLength ≠ invert32 header.payloadLength
  · rw [if_pos hinv, if_pos hinv]
  rw [if_neg hinv] at h ⊢
  rw [if_neg hinv]
  by_cases hmax : header.payloadLength > walMaxPayloadSize
  · rw [if_pos hmax, if_pos hmax]
  rw [if_neg hmax] at h ⊢
  rw [if_neg hmax]
  -- from here on the whole frame is present, and the slices do not reach past it
  have hfit : ¬bytes.length < walHeaderSize + header.payloadLength + walChecksumSize := by
    intro hshort
    rw [if_pos hshort] at h
    exact h rfl
  have hfit' : ¬(bytes ++ more).length <
      walHeaderSize + header.payloadLength + walChecksumSize := by
    rw [List.length_append]
    omega
  have hslice : ∀ a b, a + b ≤ bytes.length →
      ((bytes ++ more).drop a).take b = (bytes.drop a).take b := by
    intro a b hab
    rw [List.drop_append_of_le_length (by omega), List.take_append_of_le_length (by simp; omega)]
  simp only [hfit, hfit', if_false]
  rw [hslice _ _ (by omega), hslice walHeaderSize _ (by omega),
    List.take_append_of_le_length (by omega)]

/-- What acceptance means: the frame is complete, and every check has passed. -/
theorem decodeWalFramed_cases (header : WalHeader) (bytes : Bytes) :
    (∃ e, decodeWalFramed header bytes = walDecodeError e ∧ e ≠ .none) ∨
      ∃ record, decodeWalFramed header bytes =
          ⟨some record, .none, walHeaderSize + header.payloadLength + walChecksumSize⟩ ∧
        walHeaderSize + header.payloadLength + walChecksumSize ≤ bytes.length := by
  unfold decodeWalFramed
  dsimp only
  split
  · exact Or.inl ⟨_, rfl, by simp⟩
  split
  · exact Or.inl ⟨_, rfl, by simp⟩
  split
  · exact Or.inl ⟨_, rfl, by simp⟩
  split
  · exact Or.inl ⟨_, rfl, by simp⟩
  rename_i hfit
  split
  · exact Or.inl ⟨_, rfl, by simp⟩
  split
  · exact Or.inl ⟨_, rfl, by simp⟩
  split
  · exact Or.inl ⟨_, rfl, by simp⟩
  split
  · exact Or.inl ⟨_, rfl, by simp⟩
  split
  · exact Or.inl ⟨_, rfl, by simp⟩
  · exact Or.inr ⟨_, rfl, not_lt.1 hfit⟩

/-- The decoder either reports an error and consumes nothing, or reports a record together with the
number of bytes it was read from. -/
theorem decodeWalRecord_cases (bytes : Bytes) :
    (∃ e, decodeWalRecord bytes = walDecodeError e ∧ e ≠ .none) ∨
      ∃ record consumed, decodeWalRecord bytes = ⟨some record, .none, consumed⟩ ∧ 0 < consumed ∧
        consumed ≤ bytes.length := by
  by_cases hshort : bytes.length < walHeaderSize
  · rw [decodeWalRecord, if_pos hshort]
    exact Or.inl ⟨_, rfl, by simp⟩
  · rw [decodeWalRecord_eq (not_lt.1 hshort)]
    rcases decodeWalFramed_cases (walHeaderOf bytes) bytes with h | ⟨record, h, hle⟩
    · exact Or.inl h
    · exact Or.inr ⟨record, _, h, by unfold walHeaderSize; omega, hle⟩

/-! ### Damage -/

/-- **Damage to a frame is reported as damage.** A frame hit inside one window of four bytes is
neither accepted nor taken for an interrupted append, whatever follows it. -/
theorem decodeWalRecord_of_burst {record : WalPutRecord} (h : WalAccepts record) {frame : Bytes}
    (hb : Burst (walFrame record) frame) (rest : Bytes) :
    (decodeWalRecord (frame ++ rest)).success = false ∧
      (decodeWalRecord (frame ++ rest)).error ≠ .incompleteRecord := by
  have hlen := hb.1
  rw [length_walFrame] at hlen
  have hsize : walHeaderSize + walChecksumSize ≤ frame.length := by omega
  unfold walHeaderSize walChecksumSize at hsize
  have hlt : (walPayload record).length < 2 ^ 32 := lt_of_le_of_lt h (by decide)
  -- the length field survives whenever it still agrees with its inverse
  have hfield : (walHeaderOf frame).invertedLength = invert32 (walHeaderOf frame).payloadLength →
      (walHeaderOf frame).payloadLength = (walPayload record).length := by
    intro hinv
    have hsplit : ∀ z : Bytes, z = z.take 6 ++ ((z.drop 6).take 4 ++
        ((z.drop 10).take 4 ++ z.drop 14)) := by
      intro z
      rw [show z.drop 14 = (z.drop 10).drop 4 by rw [List.drop_drop], List.take_append_drop,
        show z.drop 10 = (z.drop 6).drop 4 by rw [List.drop_drop], List.take_append_drop,
        List.take_append_drop]
    have hframe := walHeaderOf_frame h []
    rw [List.append_nil] at hframe
    have hlenF : ((walFrame record).drop 6).take 4 = (frame.drop 6).take 4 := by
      refine hb.length_field_eq (hsplit _) (hsplit _) ?_ ?_ ?_ ?_ ?_ ?_ hinv
      · simp [hb.1]
      · simp [hb.1]; omega
      · simp [hb.1]; omega
      · simp; omega
      · simp; omega
      · have h₁ := congrArg WalHeader.invertedLength hframe
        have h₂ := congrArg WalHeader.payloadLength hframe
        exact h₁.trans (congrArg invert32 h₂.symm)
    have h₂ := congrArg WalHeader.payloadLength hframe
    exact (congrArg littleEndian hlenF).symm.trans h₂
  rw [decodeWalRecord_eq (by rw [List.length_append]; unfold walHeaderSize; omega),
    walHeaderOf_append (by unfold walHeaderSize; omega), decodeWalFramed]
  by_cases hmagic : (walHeaderOf frame).magic ≠ walMagic
  · rw [if_pos hmagic]
    exact ⟨rfl, by simp [walDecodeError]⟩
  by_cases hinv : (walHeaderOf frame).invertedLength ≠ invert32 (walHeaderOf frame).payloadLength
  · rw [if_neg hmagic, if_pos hinv]
    exact ⟨rfl, by simp [walDecodeError]⟩
  rw [if_neg hmagic, if_neg hinv, hfield (not_not.1 hinv), if_neg (not_lt.2 h)]
  -- the frame has kept its length, so a matching checksum would seal it
  obtain ⟨body, sum, rfl, hbody, hsum⟩ : ∃ body sum, frame = body ++ sum ∧
      body.length = walHeaderSize + (walPayload record).length ∧ sum.length = 4 := by
    refine ⟨frame.take (walHeaderSize + (walPayload record).length),
      frame.drop (walHeaderSize + (walPayload record).length),
      (List.take_append_drop _ _).symm, ?_, ?_⟩
    · rw [List.length_take]; omega
    · rw [List.length_drop]; unfold walChecksumSize at hlen; omega
  have hstored : readU32.run sum = some (littleEndian sum, []) := by
    have hrun := @readUnsigned_run 4 (by decide) sum (le_of_eq hsum.symm)
    rwa [List.take_of_length_le (le_of_eq hsum), List.drop_of_length_le (le_of_eq hsum)] at hrun
  have hmismatch : littleEndian sum ≠ crc32c body := by
    intro hcrc
    refine hb.not_sealed (sealed_walFrame record) ⟨body, ?_⟩
    rw [← hcrc, writeU32, ← hsum, writeUnsigned_littleEndian]
  have htake : (body ++ sum ++ rest).take (walHeaderSize + (walPayload record).length) = body := by
    rw [List.append_assoc, ← hbody, List.take_left]
  have hdrop : ((body ++ sum ++ rest).drop (walHeaderSize + (walPayload record).length)).take
      walChecksumSize = sum := by
    rw [List.append_assoc, ← hbody, List.drop_left]
    exact List.take_left' hsum
  have hfit : ¬(body ++ sum ++ rest).length <
      walHeaderSize + (walPayload record).length + walChecksumSize := by
    rw [List.length_append]
    omega
  simp only [hfit, if_false, htake, hdrop, hstored, ne_eq, hmismatch, not_false_eq_true, if_true]
  exact ⟨rfl, by simp [walDecodeError]⟩

/-- The record of a put of `1.0` to the series `cpu`. -/
def cpuRecord : WalPutRecord := ⟨cpuSeries, cpuSample⟩

/-- The record of a put of `2.0` to the series `io`. -/
def ioRecord : WalPutRecord := ⟨ioSeries, laterSample⟩

/-- The record of a put of `2.0` to the series `cpu`, after that of `cpuRecord`. -/
def laterRecord : WalPutRecord := ⟨cpuSeries, laterSample⟩

/-- The record of a put of `2.0` to the series `cpu` that replaces that of `cpuRecord`. -/
def replacingRecord : WalPutRecord := ⟨cpuSeries, ⟨cpuSample.timestamp, laterSample.value⟩⟩

end ChronoStore
