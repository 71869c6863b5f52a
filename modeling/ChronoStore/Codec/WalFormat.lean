import ChronoStore.Codec.WalRecord

/-!
# What the log decoder accepts

The two laws of the record format, for every record and every byte string. Forward: an encoded
record is **self-delimiting**, and each proper prefix of it is taken for an interrupted append.
Backward: what the decoder accepts is a sealed frame around a payload that spells the record —
except that the order in which the payload lists the tags is not part of the record. The constructor
of `SeriesKey` sorts them, and the log's copy of the series-key reader, unlike the copies of the
block and index decoders, does not look at their order. The accepted bytes are the encoding of the
record **exactly when** the tags stand in increasing key order.
-/

namespace ChronoStore

open Parser

/-- **Log records are self-delimiting.** In front of anything an encoded record decodes to itself,
and a proper prefix of it is reported as incomplete and as nothing else. -/
theorem decodeWalRecord_encodeWalRecord {record : WalPutRecord} {bytes : Bytes}
    (h : encodeWalRecord record = .ok bytes) :
    (∀ rest, decodeWalRecord (bytes ++ rest) = ⟨some record, .none, bytes.length⟩) ∧
      ∀ p, p <+: bytes → p ≠ bytes → decodeWalRecord p = ⟨none, .incompleteRecord, 0⟩ := by
  obtain ⟨hacc, rfl⟩ := accepts_of_encodeWalRecord h
  exact ⟨decodeWalRecord_frame hacc, fun p hp hne ↦ decodeWalRecord_of_cut hacc hp hne⟩

theorem decodeWalRecord_encodeWalRecord_cpu :
    encodeWalRecord cpuRecord = .ok (walFrame cpuRecord) ∧
      decodeWalRecord (walFrame cpuRecord ++ [1, 2, 3]) =
        ⟨some cpuRecord, .none, (walFrame cpuRecord).length⟩ ∧
      decodeWalRecord ((walFrame cpuRecord).take 20) = ⟨none, .incompleteRecord, 0⟩ := by
  have henc : encodeWalRecord cpuRecord = .ok (walFrame cpuRecord) :=
    encodeWalRecord_of_accepts (by decide +kernel)
  have hlaws := decodeWalRecord_encodeWalRecord henc
  exact ⟨henc, hlaws.1 _, hlaws.2 _ (List.take_prefix _ _) (by decide +kernel)⟩

/-! ### Sealed frames -/

/-- The payload a frame starts with, according to its header. -/
def walPayloadOf (bytes : Bytes) : Bytes :=
  (bytes.drop walHeaderSize).take (walHeaderOf bytes).payloadLength

/-- The payload of a frame, whatever follows it. -/
theorem walPayloadOf_frame {payload : Bytes} (h : payload.length ≤ walMaxPayloadSize)
    (rest : Bytes) : walPayloadOf (walFrameOf payload ++ rest) = payload := by
  have hlt : payload.length < 2 ^ 32 := lt_of_le_of_lt h (by decide)
  rw [walPayloadOf, walFrameOf, List.append_assoc, List.append_assoc, walHeaderOf_header hlt,
    List.drop_left' (length_walHeader _), List.take_left]

theorem walHeader_of_fields {header : WalHeader} (hmagic : header.magic = walMagic)
    (hversion : header.version = walVersion) (htype : header.recordType = walPutType)
    (hinv : header.invertedLength = invert32 header.payloadLength) :
    writeU32 header.magic ++ (writeU8 header.version ++ (writeU8 header.recordType ++
      (writeU32 header.payloadLength ++ writeU32 header.invertedLength))) =
      walHeader header.payloadLength := by
  rw [hmagic, hversion, htype, hinv, walHeader]

/-- The header fields that have been read are what would be written. -/
theorem of_readWalHeader_run {header : WalHeader} {input rest : Bytes}
    (h : readWalHeader.run input = some (header, rest)) :
    input = writeU32 header.magic ++ (writeU8 header.version ++ (writeU8 header.recordType ++
      (writeU32 header.payloadLength ++ writeU32 header.invertedLength))) ++ rest := by
  obtain ⟨magic, _, hmagic, h₁⟩ := run_bind_eq_some.1 h
  obtain ⟨version, _, hversion, h₂⟩ := run_bind_eq_some.1 h₁
  obtain ⟨recordType, _, htype, h₃⟩ := run_bind_eq_some.1 h₂
  obtain ⟨payloadLength, _, hlength, h₄⟩ := run_bind_eq_some.1 h₃
  obtain ⟨invertedLength, _, hinverted, h₅⟩ := run_bind_eq_some.1 h₄
  obtain ⟨rfl, rfl⟩ := run_pure_eq_some.1 h₅
  clear h h₁ h₂ h₃ h₄ h₅
  obtain ⟨rfl, -⟩ := of_readU32_run hmagic
  obtain ⟨rfl, -⟩ := of_readUnsigned_run hversion
  obtain ⟨rfl, -⟩ := of_readUnsigned_run htype
  obtain ⟨rfl, -⟩ := of_readU32_run hlength
  obtain ⟨rfl, -⟩ := of_readU32_run hinverted
  simp only [List.append_assoc]
  rfl

/-- **Acceptance is acceptance of a sealed frame**: the bytes consumed are the frame around a
payload that the payload decoder reads as the record. -/
theorem of_decodeWalRecord {bytes : Bytes} {record : WalPutRecord} {consumed : ℕ}
    (h : decodeWalRecord bytes = ⟨some record, .none, consumed⟩) :
    ∃ payload rest, bytes = walFrameOf payload ++ rest ∧ consumed = (walFrameOf payload).length ∧
      payload.length ≤ walMaxPayloadSize ∧ decodeWalPayload payload = some record := by
  have hlong : walHeaderSize ≤ bytes.length := by
    by_contra hshort
    rw [decodeWalRecord, if_pos (not_le.1 hshort)] at h
    simp [walDecodeError] at h
  have hhead := of_readWalHeader_run (readWalHeader_run hlong)
  rw [decodeWalRecord_eq hlong] at h
  unfold decodeWalFramed at h
  generalize walHeaderOf bytes = header at h hhead
  dsimp only at h
  split at h
  · simp [walDecodeError] at h
  rename_i hmagic
  split at h
  · simp [walDecodeError] at h
  rename_i hinv
  split at h
  · simp [walDecodeError] at h
  rename_i hmax
  split at h
  · simp [walDecodeError] at h
  rename_i hfit
  split at h
  · simp [walDecodeError] at h
  rename_i stored after hstored
  split at h
  · simp [walDecodeError] at h
  rename_i hcrc
  split at h
  · simp [walDecodeError] at h
  rename_i hversion
  split at h
  · simp [walDecodeError] at h
  rename_i htype
  split at h
  · simp [walDecodeError] at h
  rename_i record' hpayload
  rw [not_not] at hmagic hinv hcrc hversion htype
  rw [walHeader_of_fields hmagic hversion htype hinv] at hhead
  obtain ⟨rfl, rfl⟩ : record' = record ∧
      walHeaderSize + header.payloadLength + walChecksumSize = consumed := by simpa using h
  -- what follows the header is the payload, the checksum and the rest
  set payload := (bytes.drop walHeaderSize).take header.payloadLength with hpay
  have hlen : payload.length = header.payloadLength := by
    rw [hpay, List.length_take, List.length_drop]
    unfold walHeaderSize walChecksumSize at *
    omega
  have hdata : bytes.take (walHeaderSize + header.payloadLength) =
      walHeader payload.length ++ payload := by
    rw [List.take_add, hlen, ← hpay]
    congr 1
    rw [hhead, List.take_left' (length_walHeader _)]
  have hsum : (bytes.drop (walHeaderSize + header.payloadLength)).take walChecksumSize =
      writeU32 stored := by
    have hrun := of_readU32_run hstored
    have h4 := congrArg List.length hrun.1
    rw [List.length_append, length_writeU32, List.length_take, List.length_drop] at h4
    unfold walChecksumSize at hfit h4 hrun ⊢
    rw [hrun.1, List.length_eq_zero_iff.1 (show after.length = 0 by omega), List.append_nil]
  refine ⟨payload, bytes.drop (walHeaderSize + header.payloadLength + walChecksumSize), ?_, ?_, ?_,
    hpayload⟩
  · rw [walFrameOf, ← hdata, ← hcrc, ← hsum, ← List.take_add, List.take_append_drop]
  · rw [length_walFrameOf, hlen]
  · rw [hlen]
    omega

/-! ### The order of the tags -/

/-- The tags as the payload of a frame lists them. -/
def walStoredTags (bytes : Bytes) : Option (List Tag) :=
  (readWalPayload.run (walPayloadOf bytes)).map fun fields ↦ fields.1.2.1

/-- The tags of a frame are listed in strictly increasing key order. -/
def TagsInKeyOrder (bytes : Bytes) : Prop :=
  ∀ tags ∈ walStoredTags bytes, tags.Pairwise fun a b ↦ a.key < b.key

/-- The layout of a payload that lists these tags. -/
def walPayloadListing (measurement : Bytes) (tags : List Tag) (sample : Sample) : Bytes :=
  stringBytes measurement ++ writeU32 tags.length ++ tags.flatMap tagBytes ++
    writeU64 sample.timestamp.bits ++ writeU64 sample.value.bits.toNat

/-- The payload of a record, with its tags listed as they are. -/
theorem walPayload_eq (record : WalPutRecord) :
    walPayload record =
      walPayloadListing record.series.measurement record.series.tags record.sample := rfl

/-- **What an accepted payload spells**: the fields of the record, but for the order of the tags. -/
theorem of_decodeWalPayload {payload : Bytes} {record : WalPutRecord}
    (h : decodeWalPayload payload = some record) :
    ∃ tags, payload = walPayloadListing record.series.measurement tags record.sample ∧
      (readWalPayload.run payload).map (fun fields ↦ fields.1.2.1) = some tags ∧
      record.series.tags = tags.insertionSort (· ≤ ·) := by
  unfold decodeWalPayload at h
  split at h
  · rename_i measurement tags timestampBits valueBits hrun
    obtain ⟨series, hseries, h⟩ := Option.bind_eq_some_iff.1 h
    obtain ⟨sample, hsample, h⟩ := Option.bind_eq_some_iff.1 h
    obtain rfl : record = ⟨series, sample⟩ := (Option.some.inj h).symm
    refine ⟨tags, ?_, by rw [hrun]; rfl, ?_⟩
    · obtain ⟨_, _, hmeasurement, h₁⟩ := run_bind_eq_some.1 hrun
      obtain ⟨_, _, hcount, h₂⟩ := run_bind_eq_some.1 h₁
      obtain ⟨_, _, htags, h₃⟩ := run_bind_eq_some.1 h₂
      obtain ⟨_, _, htimestamp, h₄⟩ := run_bind_eq_some.1 h₃
      obtain ⟨_, _, hvalue, h₅⟩ := run_bind_eq_some.1 h₄
      obtain ⟨hfields, rfl⟩ := run_pure_eq_some.1 h₅
      clear hrun h₁ h₂ h₃ h₄ h₅
      simp only [Prod.mk.injEq] at hfields
      obtain ⟨rfl, rfl, rfl, rfl⟩ := hfields
      obtain ⟨rfl, -⟩ := of_readString_run hmeasurement
      obtain ⟨rfl, -⟩ := of_readU32_run hcount
      obtain ⟨_, rfl, rfl, rfl, -⟩ := of_readTags_run htags
      obtain ⟨rfl, htimestampBits⟩ := of_readU64_run htimestamp
      obtain ⟨rfl, hvalueBits⟩ := of_readU64_run hvalue
      obtain ⟨hm, -⟩ := of_seriesKeyMake hseries
      obtain ⟨ht, hv⟩ := of_sampleMake hsample
      rw [walPayloadListing, hm, ht, hv, Timestamp.bits_ofBits htimestampBits,
        UInt64.toNat_ofNat_of_lt' hvalueBits]
      simp only [List.append_assoc, List.append_nil]
    · exact (of_seriesKeyMake hseries).2
  · simp at h

/-- **Accepted bytes are the encoding of the record exactly when their tags stand in key order.** -/
theorem encodeWalRecord_decodeWalRecord_iff {bytes : Bytes} {record : WalPutRecord} {consumed : ℕ}
    (h : decodeWalRecord bytes = ⟨some record, .none, consumed⟩) :
    encodeWalRecord record = .ok (bytes.take consumed) ↔ TagsInKeyOrder bytes := by
  obtain ⟨payload, rest, rfl, rfl, hmax, hpayload⟩ := of_decodeWalRecord h
  obtain ⟨tags, hspell, hread, hsorted⟩ := of_decodeWalPayload hpayload
  have hstored : walStoredTags (walFrameOf payload ++ rest) = some tags := by
    rw [walStoredTags, walPayloadOf_frame hmax, hread]
  have horder : TagsInKeyOrder (walFrameOf payload ++ rest) ↔
      tags.Pairwise fun a b ↦ a.key < b.key := by
    simp [TagsInKeyOrder, hstored]
  rw [horder, List.take_left]
  constructor
  · intro henc
    obtain ⟨hacc, hframe⟩ := accepts_of_encodeWalRecord henc
    have hsame : payload = walPayload record := by
      rw [← walPayloadOf_frame hmax [], hframe, walFrame_eq, walPayloadOf_frame hacc]
    have htags : tags = record.series.tags := by
      rw [hsame, (parses_readWalPayload hacc).run_self] at hread
      exact (Option.some.inj hread).symm
    rw [htags]
    exact record.series.tags_sorted
  · intro hkeys
    have htags : record.series.tags = tags := by
      rw [hsorted, (SeriesKey.pairwise_le_of_key_lt hkeys).insertionSort_eq]
    have hsame : payload = walPayload record := by rw [hspell, walPayload_eq, htags]
    rw [hsame, ← walFrame_eq]
    rw [hsame] at hmax
    exact encodeWalRecord_of_accepts hmax

/-- The record of a put to `cpu` with the tags `host` and `zone`. -/
def taggedRecord : WalPutRecord where
  series := ⟨ascii "cpu", [⟨ascii "host", ascii "a", host_ne_nil⟩,
    ⟨ascii "zone", ascii "b", zone_ne_nil⟩],
    cpuSeries.measurement_ne_nil, by decide +kernel⟩
  sample := cpuSample

/-- A frame with two tags in key order, and a byte that follows it. -/
theorem encodeWalRecord_decodeWalRecord_tagged :
    TagsInKeyOrder (walFrame taggedRecord ++ [9]) ∧
      encodeWalRecord taggedRecord = .ok ((walFrame taggedRecord ++ [9]).take 71) := by
  have hdec : decodeWalRecord (walFrame taggedRecord ++ [9]) = ⟨some taggedRecord, .none, 71⟩ := by
    decide +kernel
  have horder : TagsInKeyOrder (walFrame taggedRecord ++ [9]) := by
    have htags : walStoredTags (walFrame taggedRecord ++ [9]) = some taggedRecord.series.tags := by
      decide +kernel
    simpa [TagsInKeyOrder, htags] using taggedRecord.series.tags_sorted
  exact ⟨horder, (encodeWalRecord_decodeWalRecord_iff hdec).2 horder⟩

/-- The payload of a put to `cpu` that lists the tag `zone` before the tag `host`. -/
def unorderedPayload : Bytes :=
  walPayloadListing (ascii "cpu")
    [⟨ascii "zone", ascii "b", by decide⟩, ⟨ascii "host", ascii "a", by decide⟩] cpuRecord.sample

/-- The decoder accepts tags that are out of order, and returns a record with another encoding. -/
theorem decodeWalRecord_unordered :
    ∃ record, decodeWalRecord (walFrameOf unorderedPayload) =
        ⟨some record, .none, (walFrameOf unorderedPayload).length⟩ ∧
      encodeWalRecord record ≠
        .ok ((walFrameOf unorderedPayload).take (walFrameOf unorderedPayload).length) := by
  refine ⟨⟨⟨ascii "cpu", [⟨ascii "host", ascii "a", by decide⟩,
    ⟨ascii "zone", ascii "b", by decide⟩],
    by decide, by decide +kernel⟩, cpuRecord.sample⟩, by decide +kernel, by decide +kernel⟩

end ChronoStore
