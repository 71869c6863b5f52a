import ChronoStore.Codec.SegmentDamage

/-!
# The segment format is a bijection

Forward, a written file opens, and reads back as the blocks it was written from (`SegmentReader`).
Here is the converse: each decoder of the format leaves no freedom. What it accepts is, byte for
byte, what the encoder writes for the value it returns — the header, the footer, the index, every
block — and the checks of `validate_index` and `read_block` together are the checks of the writer. A
file that opens and whose blocks can all be read is therefore the file that the writer produces from
these blocks.
-/

namespace ChronoStore

open Parser

/-- A sequence returns if and only if both of its parts do. -/
theorem bind_eq_ok {α β : Type} {r : Except Error α} {k : α → Except Error β} {b : β} :
    r >>= k = .ok b ↔ ∃ a, r = .ok a ∧ k a = .ok b := by
  constructor
  · intro h
    cases r with
    | ok a => exact ⟨a, rfl, h⟩
    | error e => cases h
  · rintro ⟨a, rfl, h⟩
    exact h

/-! ### Header and footer -/

/-- Behind the fields stands the checksum that has been read. -/
theorem of_readSealed_run {α : Type} {fields : Parser UInt8 α} {input rest : Bytes} {a : α}
    {stored : ℕ} (h : (readSealed fields).run input = some ((a, stored), rest)) :
    ∃ mid, fields.run input = some (a, mid) ∧ mid = writeU32 stored ++ rest := by
  obtain ⟨found, mid, hfound, h₁⟩ := run_bind_eq_some.1 h
  obtain ⟨sum, after, hsum, h₂⟩ := run_bind_eq_some.1 h₁
  obtain ⟨heq, rfl⟩ := run_pure_eq_some.1 h₂
  obtain ⟨rfl, rfl⟩ := Prod.mk.inj heq
  exact ⟨mid, hfound, (of_readU32_run hsum).1⟩

/-- The header fields that have been read are what would be written. -/
theorem of_readHeaderFields_run {fields : EnvelopeFields} {input rest : Bytes}
    (h : readHeaderFields.run input = some (fields, rest)) :
    input = writeU32 fields.magic ++ (writeU16 fields.version ++ (writeU16 fields.flags ++
      (writeU32 fields.envelope.blockCount ++ (writeU64 fields.envelope.indexOffset ++
        writeU64 fields.envelope.indexSize)))) ++ rest := by
  obtain ⟨magic, _, hmagic, h₁⟩ := run_bind_eq_some.1 h
  obtain ⟨version, _, hversion, h₂⟩ := run_bind_eq_some.1 h₁
  obtain ⟨flags, _, hflags, h₃⟩ := run_bind_eq_some.1 h₂
  obtain ⟨blockCount, _, hcount, h₄⟩ := run_bind_eq_some.1 h₃
  obtain ⟨indexOffset, _, hoffset, h₅⟩ := run_bind_eq_some.1 h₄
  obtain ⟨indexSize, _, hsize, h₆⟩ := run_bind_eq_some.1 h₅
  obtain ⟨rfl, rfl⟩ := run_pure_eq_some.1 h₆
  clear h h₁ h₂ h₃ h₄ h₅ h₆
  obtain ⟨rfl, -⟩ := of_readU32_run hmagic
  obtain ⟨rfl, -⟩ := of_readUnsigned_run hversion
  obtain ⟨rfl, -⟩ := of_readUnsigned_run hflags
  obtain ⟨rfl, -⟩ := of_readU32_run hcount
  obtain ⟨rfl, -⟩ := of_readU64_run hoffset
  obtain ⟨rfl, -⟩ := of_readU64_run hsize
  simp only [List.append_assoc]
  rfl

/-- The footer fields that have been read are what would be written. -/
theorem of_readFooterFields_run {fields : EnvelopeFields} {input rest : Bytes}
    (h : readFooterFields.run input = some (fields, rest)) :
    input = writeU32 fields.magic ++ (writeU16 fields.version ++ (writeU16 fields.flags ++
      (writeU64 fields.envelope.indexOffset ++ (writeU64 fields.envelope.indexSize ++
        writeU32 fields.envelope.blockCount)))) ++ rest := by
  obtain ⟨magic, _, hmagic, h₁⟩ := run_bind_eq_some.1 h
  obtain ⟨version, _, hversion, h₂⟩ := run_bind_eq_some.1 h₁
  obtain ⟨flags, _, hflags, h₃⟩ := run_bind_eq_some.1 h₂
  obtain ⟨indexOffset, _, hoffset, h₄⟩ := run_bind_eq_some.1 h₃
  obtain ⟨indexSize, _, hsize, h₅⟩ := run_bind_eq_some.1 h₄
  obtain ⟨blockCount, _, hcount, h₆⟩ := run_bind_eq_some.1 h₅
  obtain ⟨rfl, rfl⟩ := run_pure_eq_some.1 h₆
  clear h h₁ h₂ h₃ h₄ h₅ h₆
  obtain ⟨rfl, -⟩ := of_readU32_run hmagic
  obtain ⟨rfl, -⟩ := of_readUnsigned_run hversion
  obtain ⟨rfl, -⟩ := of_readUnsigned_run hflags
  obtain ⟨rfl, -⟩ := of_readU64_run hoffset
  obtain ⟨rfl, -⟩ := of_readU64_run hsize
  obtain ⟨rfl, -⟩ := of_readU32_run hcount
  simp only [List.append_assoc]
  rfl

/-- A body of 28 bytes, its checksum, and nothing else. -/
theorem eq_withChecksum_of_length {body bytes rest : Bytes} {stored : ℕ} (hbody : body.length = 28)
    (hbytes : bytes = body ++ (writeU32 stored ++ rest)) (hlen : bytes.length = 32)
    (hcrc : stored = crc32c (bytes.take 28)) : bytes = withChecksum body := by
  have hrest : rest = [] := by
    refine List.length_eq_zero_iff.1 ?_
    rw [hbytes, List.length_append, List.length_append, length_writeU32, hbody] at hlen
    omega
  have htake : bytes.take 28 = body := by rw [hbytes, List.take_left' hbody]
  rw [hcrc, htake, hrest, List.append_nil] at hbytes
  exact hbytes

/-- **An accepted header is the encoding of what it says.** -/
theorem of_decodeHeader {bytes : Bytes} {e : SegmentEnvelope} (h : decodeHeader bytes = .ok e) :
    bytes = encodeHeader e ∧ e.blockCount ≠ 0 ∧ e.blockCount ≤ maxSegmentBlockCount := by
  rw [decodeHeader] at h
  split at h
  · cases h
  rename_i hlen
  split at h
  · cases h
  rename_i fields stored rest hrun
  split at h
  · cases h
  rename_i hmagic
  split at h
  · cases h
  rename_i hcrc
  split at h
  · cases h
  rename_i hversion
  split at h
  · cases h
  rename_i hcount
  obtain rfl := Except.ok.inj h
  rw [not_or] at hversion hcount
  obtain ⟨mid, hfields, rfl⟩ := of_readSealed_run hrun
  have hbytes := of_readHeaderFields_run hfields
  rw [not_not.1 hmagic, not_not.1 hversion.1, not_not.1 hversion.2] at hbytes
  exact ⟨eq_withChecksum_of_length rfl hbytes (not_not.1 hlen) (not_not.1 hcrc), hcount.1,
    not_lt.1 hcount.2⟩

/-- **An accepted footer is the encoding of what it says.** -/
theorem of_decodeFooter {bytes : Bytes} {e : SegmentEnvelope} (h : decodeFooter bytes = .ok e) :
    bytes = encodeFooter e := by
  rw [decodeFooter] at h
  split at h
  · cases h
  rename_i hlen
  split at h
  · cases h
  rename_i fields stored rest hrun
  split at h
  · cases h
  rename_i hmagic
  split at h
  · cases h
  rename_i hcrc
  split at h
  · cases h
  rename_i hversion
  obtain rfl := Except.ok.inj h
  rw [not_or] at hversion
  obtain ⟨mid, hfields, rfl⟩ := of_readSealed_run hrun
  have hbytes := of_readFooterFields_run hfields
  rw [not_not.1 hmagic, not_not.1 hversion.1, not_not.1 hversion.2] at hbytes
  exact eq_withChecksum_of_length rfl hbytes (not_not.1 hlen) (not_not.1 hcrc)

/-! ### The index -/

/-- What a strict reader accepts as a series key is the encoding of the key. -/
theorem of_readSeriesKey_run {series : SeriesKey} {input rest : Bytes}
    (h : readSeriesKey.run input = some (series, rest)) :
    input = seriesKeyBytes series ++ rest := by
  obtain ⟨measurement, _, hmeasurement, h₁⟩ := run_bind_eq_some.1 h
  obtain ⟨count, _, hcount, h₂⟩ := run_bind_eq_some.1 h₁
  obtain ⟨_, _, hremaining, h₃⟩ := run_bind_eq_some.1 h₂
  obtain ⟨tags, _, htags, h₄⟩ := run_bind_eq_some.1 h₃
  obtain ⟨hmake, rfl⟩ := run_liftM_eq_some.1 h₄
  clear h h₁ h₂ h₃ h₄
  obtain ⟨rfl, -⟩ := of_readString_run hmeasurement
  obtain ⟨rfl, -⟩ := of_readU32_run hcount
  obtain ⟨-, rfl⟩ := run_requireRemaining_eq_some.1 hremaining
  obtain ⟨new, rfl, rfl, rfl, hsorted⟩ := of_readTags_run htags
  obtain ⟨rfl, hkeys⟩ := of_seriesKeyMake hmake
  have horder := SeriesKey.pairwise_le_of_key_lt (hsorted rfl List.Pairwise.nil)
  rw [horder.insertionSort_eq] at hkeys
  rw [seriesKeyBytes, hkeys]
  simp only [List.append_assoc]

theorem of_readIndexEntryFixed_run {offset size count first last : ℕ} {input rest : Bytes}
    (h : readIndexEntryFixed.run input = some ((offset, size, count, first, last), rest)) :
    input = writeU64 offset ++ (writeU32 size ++ (writeU32 count ++ (writeU64 first ++
      writeU64 last))) ++ rest ∧ first < 2 ^ 64 ∧ last < 2 ^ 64 := by
  obtain ⟨_, _, hoffset, h₁⟩ := run_bind_eq_some.1 h
  obtain ⟨_, _, hsize, h₂⟩ := run_bind_eq_some.1 h₁
  obtain ⟨_, _, hcount, h₃⟩ := run_bind_eq_some.1 h₂
  obtain ⟨_, _, hfirst, h₄⟩ := run_bind_eq_some.1 h₃
  obtain ⟨_, _, hlast, h₅⟩ := run_bind_eq_some.1 h₄
  obtain ⟨heq, rfl⟩ := run_pure_eq_some.1 h₅
  clear h h₁ h₂ h₃ h₄ h₅
  simp only [Prod.mk.injEq] at heq
  obtain ⟨rfl, rfl, rfl, rfl, rfl⟩ := heq
  obtain ⟨rfl, -⟩ := of_readU64_run hoffset
  obtain ⟨rfl, -⟩ := of_readU32_run hsize
  obtain ⟨rfl, -⟩ := of_readU32_run hcount
  obtain ⟨rfl, hfirst'⟩ := of_readU64_run hfirst
  obtain ⟨rfl, hlast'⟩ := of_readU64_run hlast
  exact ⟨by simp only [List.append_assoc], hfirst', hlast'⟩

/-- The entries that have been read are what would be written. -/
theorem of_readIndexEntries {count : ℕ} {payload rest : Bytes} {entries : List SegmentIndexEntry}
    (h : readIndexEntries count payload = .ok (entries, rest)) :
    payload = indexPayload entries ++ rest ∧ entries.length = count := by
  induction count generalizing payload entries with
  | zero =>
    rw [readIndexEntries, Except.ok.injEq, Prod.mk.injEq] at h
    obtain ⟨rfl, rfl⟩ := h
    exact ⟨rfl, rfl⟩
  | succ count ih =>
    rw [readIndexEntries] at h
    split at h
    · cases h
    rename_i offset size samples first last payload' hfixed
    split at h
    · cases h
    rename_i series payload'' hseries
    cases hrest : readIndexEntries count payload'' with
    | error e =>
      rw [hrest] at h
      cases h
    | ok found =>
      obtain ⟨later, after⟩ := found
      rw [hrest] at h
      change Except.ok _ = Except.ok _ at h
      rw [Except.ok.injEq, Prod.mk.injEq] at h
      obtain ⟨rfl, rfl⟩ := h
      obtain ⟨hlater, hlen⟩ := ih hrest
      obtain ⟨hfixed, hfirst, hlast⟩ := of_readIndexEntryFixed_run hfixed
      rw [hfixed, of_readSeriesKey_run hseries, hlater, indexPayload_cons, indexEntryFixed]
      simp only [Timestamp.bits_ofBits hfirst, Timestamp.bits_ofBits hlast, List.append_assoc,
        List.length_cons, hlen, and_self]

theorem of_readIndexHeader_run {header : IndexHeader} {input rest : Bytes}
    (h : readIndexHeader.run input = some (header, rest)) :
    input = writeU32 header.magic ++ (writeU16 header.version ++ (writeU16 header.flags ++
      (writeU32 header.entryCount ++ (writeU32 header.payloadSize ++
        writeU32 header.invertedSize)))) ++ rest := by
  obtain ⟨magic, _, hmagic, h₁⟩ := run_bind_eq_some.1 h
  obtain ⟨version, _, hversion, h₂⟩ := run_bind_eq_some.1 h₁
  obtain ⟨flags, _, hflags, h₃⟩ := run_bind_eq_some.1 h₂
  obtain ⟨entryCount, _, hcount, h₄⟩ := run_bind_eq_some.1 h₃
  obtain ⟨payloadSize, _, hsize, h₅⟩ := run_bind_eq_some.1 h₄
  obtain ⟨invertedSize, _, hinverted, h₆⟩ := run_bind_eq_some.1 h₅
  obtain ⟨rfl, rfl⟩ := run_pure_eq_some.1 h₆
  clear h h₁ h₂ h₃ h₄ h₅ h₆
  obtain ⟨rfl, -⟩ := of_readU32_run hmagic
  obtain ⟨rfl, -⟩ := of_readUnsigned_run hversion
  obtain ⟨rfl, -⟩ := of_readUnsigned_run hflags
  obtain ⟨rfl, -⟩ := of_readU32_run hcount
  obtain ⟨rfl, -⟩ := of_readU32_run hsize
  obtain ⟨rfl, -⟩ := of_readU32_run hinverted
  simp only [List.append_assoc]
  rfl

/-- A sealed string that starts with a header of known length is the header, a payload of the length
that remains, and the checksum. -/
theorem Sealed.eq_withChecksum {bytes rest payload : Bytes} (h : Sealed bytes)
    (header : Bytes) (n : ℕ)
    (hhead : bytes = header ++ rest) (hlen : bytes.length = header.length + n + 4)
    (hpayload : (bytes.drop header.length).take n = payload) :
    bytes = withChecksum (header ++ payload) := by
  obtain ⟨data, hdata⟩ := h
  have hn : data.length = header.length + n := by
    rw [hdata, List.length_append, length_writeU32] at hlen
    omega
  have htake : data = header ++ payload := by
    have h₁ : bytes.take (header.length + n) = data := by
      rw [hdata, List.take_left' hn]
    rw [← h₁, List.take_add, hpayload]
    congr 1
    rw [hhead, List.take_left]
  rw [withChecksum, ← htake]
  exact hdata

/-- **An accepted index is the encoding of its entries**, and its entries have passed the checks. -/
theorem of_decodeIndex {bytes : Bytes} {count indexOffset : ℕ} {entries : List SegmentIndexEntry}
    (h : decodeIndex bytes count indexOffset = .ok entries) :
    bytes = withChecksum (indexBody entries) ∧ entries.length = count ∧ IndexAccepts entries ∧
      validateIndex entries indexOffset = .ok () := by
  have hsealed := sealed_of_decodeIndex h
  rw [decodeIndex] at h
  split at h
  · cases h
  split at h
  · cases h
  rename_i header rest hrun
  split at h
  · cases h
  rename_i hfixed
  split at h
  · cases h
  rename_i hmeta
  split at h
  · cases h
  rename_i hlen
  split at h
  · cases h
  simp only [not_or, not_not] at hfixed hmeta
  rw [not_not] at hlen
  cases hread : readIndexEntries header.entryCount
      ((bytes.drop segmentIndexHeaderSize).take header.payloadSize) with
  | error e =>
    rw [hread] at h
    cases h
  | ok found =>
    obtain ⟨found, after⟩ := found
    rw [hread] at h
    by_cases hafter : after = []
    swap
    · simp only [bind, Except.bind, hafter, ne_eq, not_false_eq_true, if_true] at h
      cases h
    cases hvalid : validateIndex found indexOffset with
    | error e =>
      simp only [bind, Except.bind, hafter, ne_eq, not_true_eq_false, if_false, hvalid] at h
      cases h
    | ok u =>
      simp only [bind, Except.bind, hafter, ne_eq, not_true_eq_false, if_false, hvalid, pure,
        Except.pure] at h
      obtain rfl := Except.ok.inj h
      obtain ⟨hpayload, hcount⟩ := of_readIndexEntries hread
      rw [hafter, List.append_nil] at hpayload
      have hsize : header.payloadSize = (indexPayload found).length := by
        rw [← hpayload, List.length_take, List.length_drop]
        unfold segmentIndexHeaderSize checksumSize at *
        omega
      have hhead := of_readIndexHeader_run hrun
      rw [hfixed.1, hfixed.2.1, hfixed.2.2, hmeta.2.2.2.1] at hhead
      have hbytes := hsealed.eq_withChecksum
        (indexHeader header.entryCount header.payloadSize) header.payloadSize hhead hlen hpayload
      rw [hsize, ← hcount] at hbytes
      refine ⟨hbytes, hcount.trans hmeta.1, ?_, hvalid⟩
      unfold IndexAccepts
      omega

/-! ### Blocks -/

/-- The samples that have been read are what would be written. -/
theorem of_readSamples_run {count : ℕ} {samples : List Sample} {input rest : Bytes}
    (h : (readSamples count).run input = some (samples, rest)) :
    input = samples.flatMap sampleBytes ++ rest ∧ samples.length = count := by
  induction count generalizing samples input with
  | zero =>
    obtain ⟨rfl, rfl⟩ := run_pure_eq_some.1 h
    exact ⟨rfl, rfl⟩
  | succ count ih =>
    rw [readSamples] at h
    obtain ⟨timestampBits, _, htimestamp, h₁⟩ := run_bind_eq_some.1 h
    obtain ⟨valueBits, _, hvalue, h₂⟩ := run_bind_eq_some.1 h₁
    obtain ⟨sample, _, hlift, h₃⟩ := run_bind_eq_some.1 h₂
    obtain ⟨later, _, hlater, h₄⟩ := run_bind_eq_some.1 h₃
    obtain ⟨rfl, rfl⟩ := run_pure_eq_some.1 h₄
    clear h h₁ h₂ h₃ h₄
    obtain ⟨rfl, htimestamp'⟩ := of_readU64_run htimestamp
    obtain ⟨rfl, hvalue'⟩ := of_readU64_run hvalue
    obtain ⟨hmake, rfl⟩ := run_liftM_eq_some.1 hlift
    obtain ⟨ht, hv⟩ := of_sampleMake hmake
    obtain ⟨rfl, hlen⟩ := ih hlater
    have hsample : sampleBytes sample = writeU64 timestampBits ++ writeU64 valueBits := by
      rw [sampleBytes, ht, hv, Timestamp.bits_ofBits htimestamp', UInt64.toNat_ofNat_of_lt' hvalue']
    rw [List.flatMap_cons, hsample]
    exact ⟨by simp only [List.append_assoc], by rw [List.length_cons, hlen]⟩

theorem of_segmentBlockMake {series : SeriesKey} {samples : List Sample} {block : SegmentBlock}
    (h : (SegmentBlock.make series samples).toOption = some block) :
    block.series = series ∧ block.samples = samples := by
  unfold SegmentBlock.make at h
  split at h
  · simp [Except.toOption] at h
  split at h
  · simp [Except.toOption] at h
  split at h
  · rw [Except.toOption, Option.some.injEq] at h
    exact ⟨by rw [← h], by rw [← h]⟩
  · simp [Except.toOption] at h

/-- What the payload decoder accepts is the payload of the block. -/
theorem of_decodeBlockPayload {payload : Bytes} {count : ℕ} {block : SegmentBlock}
    (h : decodeBlockPayload payload count = some block) :
    payload = blockPayload block ∧ block.sampleCount = count := by
  unfold decodeBlockPayload at h
  split at h
  · rename_i measurement tags samples hrun
    obtain ⟨series, hseries, hblock⟩ := Option.bind_eq_some_iff.1 h
    obtain ⟨hbs, hsamples⟩ := of_segmentBlockMake hblock
    obtain ⟨_, _, hmeasurement, h₁⟩ := run_bind_eq_some.1 hrun
    obtain ⟨_, _, hcount, h₂⟩ := run_bind_eq_some.1 h₁
    obtain ⟨_, _, hroom, h₃⟩ := run_bind_eq_some.1 h₂
    obtain ⟨_, _, hroom', h₄⟩ := run_bind_eq_some.1 h₃
    obtain ⟨_, _, htags, h₅⟩ := run_bind_eq_some.1 h₄
    obtain ⟨_, _, hread, h₆⟩ := run_bind_eq_some.1 h₅
    obtain ⟨heq, rfl⟩ := run_pure_eq_some.1 h₆
    clear hrun h₁ h₂ h₃ h₄ h₅ h₆
    simp only [Prod.mk.injEq] at heq
    obtain ⟨rfl, rfl, rfl⟩ := heq
    obtain ⟨rfl, -⟩ := of_readString_run hmeasurement
    obtain ⟨rfl, -⟩ := of_readU32_run hcount
    obtain ⟨-, rfl⟩ := run_requireRemaining_eq_some.1 hroom
    obtain ⟨-, rfl⟩ := run_requireRemaining_eq_some.1 hroom'
    obtain ⟨_, rfl, rfl, rfl, hsorted⟩ := of_readTags_run htags
    obtain ⟨rfl, hlen⟩ := of_readSamples_run hread
    obtain ⟨hm, hkeys⟩ := of_seriesKeyMake hseries
    have horder := SeriesKey.pairwise_le_of_key_lt (hsorted rfl List.Pairwise.nil)
    rw [horder.insertionSort_eq] at hkeys
    rw [blockPayload, seriesKeyBytes, hbs, hm, hkeys, hsamples, SegmentBlock.sampleCount, hsamples]
    exact ⟨by simp only [List.append_assoc, List.append_nil], hlen⟩
  · simp at h

theorem of_readBlockHeader_run {header : BlockHeader} {input rest : Bytes}
    (h : readBlockHeader.run input = some (header, rest)) :
    input = writeU32 header.magic ++ (writeU16 header.version ++ (writeU16 header.flags ++
      (writeU32 header.payloadLength ++ (writeU32 header.invertedLength ++
        writeU32 header.sampleCount)))) ++ rest := by
  obtain ⟨magic, _, hmagic, h₁⟩ := run_bind_eq_some.1 h
  obtain ⟨version, _, hversion, h₂⟩ := run_bind_eq_some.1 h₁
  obtain ⟨flags, _, hflags, h₃⟩ := run_bind_eq_some.1 h₂
  obtain ⟨payloadLength, _, hlength, h₄⟩ := run_bind_eq_some.1 h₃
  obtain ⟨invertedLength, _, hinverted, h₅⟩ := run_bind_eq_some.1 h₄
  obtain ⟨sampleCount, _, hcount, h₆⟩ := run_bind_eq_some.1 h₅
  obtain ⟨rfl, rfl⟩ := run_pure_eq_some.1 h₆
  clear h h₁ h₂ h₃ h₄ h₅ h₆
  obtain ⟨rfl, -⟩ := of_readU32_run hmagic
  obtain ⟨rfl, -⟩ := of_readUnsigned_run hversion
  obtain ⟨rfl, -⟩ := of_readUnsigned_run hflags
  obtain ⟨rfl, -⟩ := of_readU32_run hlength
  obtain ⟨rfl, -⟩ := of_readU32_run hinverted
  obtain ⟨rfl, -⟩ := of_readU32_run hcount
  simp only [List.append_assoc]
  rfl

/-- **What the decoder accepts starts with the encoding of the block**, and that is what it
consumes. -/
theorem of_decodeSegmentBlock_block {bytes : Bytes} {block : SegmentBlock}
    (h : (decodeSegmentBlock bytes).block = some block) :
    BlockAccepts block ∧ (decodeSegmentBlock bytes).bytesConsumed = (blockFrame block).length ∧
      ∃ rest, bytes = blockFrame block ++ rest := by
  suffices hstart : BlockAccepts block ∧ ∃ rest, bytes = blockFrame block ++ rest by
    obtain ⟨hacc, rest, rfl⟩ := hstart
    exact ⟨hacc, by rw [decodeSegmentBlock_frame_append hacc], rest, rfl⟩
  rw [decodeSegmentBlock] at h
  split at h
  · simp [blockDecodeError] at h
  split at h
  · simp [blockDecodeError] at h
  rename_i header rest hrun
  have hhead := of_readBlockHeader_run hrun
  simp only [decodeBlockFramed] at h
  split at h
  · simp [blockDecodeError] at h
  rename_i hmagic
  split at h
  · simp [blockDecodeError] at h
  rename_i hlength
  split at h
  · simp [blockDecodeError] at h
  rename_i hfit
  split at h
  · simp [blockDecodeError] at h
  rename_i stored tail hstored
  split at h
  · simp [blockDecodeError] at h
  rename_i hcrc
  split at h
  · simp [blockDecodeError] at h
  rename_i hversion
  split at h
  · simp [blockDecodeError] at h
  rename_i hflags
  split at h
  · simp [blockDecodeError] at h
  split at h
  · simp [blockDecodeError] at h
  rename_i found hpayload
  obtain rfl : found = block := by simpa using h
  obtain ⟨hspell, hcount⟩ := of_decodeBlockPayload hpayload
  simp only [not_or, not_not] at hmagic hlength hversion hflags hcrc
  have hsize : header.payloadLength = (blockPayload found).length := by
    rw [← hspell, List.length_take, List.length_drop]
    unfold segmentBlockHeaderSize segmentBlockChecksumSize at hfit
    unfold segmentBlockHeaderSize
    omega
  rw [hmagic, hversion, hflags, hlength.1] at hhead
  -- header, payload and checksum stand one behind the other
  have hbody : bytes.take (segmentBlockHeaderSize + header.payloadLength) = blockBody found := by
    rw [List.take_add, hspell, blockBody, ← hsize, hcount]
    congr 1
    rw [hhead]
    exact List.take_left' (length_blockHeader _ _)
  obtain ⟨hsum, -⟩ := of_readU32_run hstored
  have htail : tail = [] := by
    have hlen := congrArg List.length hsum
    rw [List.length_append, length_writeU32, List.length_take, List.length_drop] at hlen
    unfold segmentBlockChecksumSize at hlen hfit
    exact List.length_eq_zero_iff.1 (by omega)
  rw [htail, List.append_nil, hcrc, hbody] at hsum
  refine ⟨?_, (bytes.drop (segmentBlockHeaderSize + header.payloadLength)).drop
    segmentBlockChecksumSize, ?_⟩
  · unfold BlockAccepts
    omega
  · rw [blockFrame, ← hsum, ← hbody, List.append_assoc, List.take_append_drop,
      List.take_append_drop]

/-- **A slice that is accepted as a whole is the encoding of the block.** -/
theorem of_decodeSegmentBlock {bytes : Bytes} {block : SegmentBlock}
    (h : decodeSegmentBlock bytes = ⟨some block, .none, bytes.length⟩) :
    bytes = blockFrame block ∧ BlockAccepts block := by
  obtain ⟨hacc, hconsumed, rest, hrest⟩ := of_decodeSegmentBlock_block
    (show (decodeSegmentBlock bytes).block = some block by rw [h])
  have hall : bytes.length = (blockFrame block).length := by
    rw [← hconsumed, h]
  have hnil : rest = [] := by
    rw [hrest, List.length_append] at hall
    exact List.length_eq_zero_iff.1 (by omega)
  exact ⟨by rw [hrest, hnil, List.append_nil], hacc⟩

/-- **The block codec is exact.** An encoded block in front of anything reads back as itself and
tells its length, and each proper prefix of it is incomplete; and a byte string that is accepted
starts with the encoding of the block that is returned, over exactly the bytes that are consumed. -/
theorem segmentBlock_exact :
    (∀ block bytes, encodeSegmentBlock block = .ok bytes →
      (∀ rest, decodeSegmentBlock (bytes ++ rest) = ⟨some block, .none, bytes.length⟩) ∧
        ∀ p, p <+: bytes → p ≠ bytes → decodeSegmentBlock p = ⟨none, .incompleteBlock, 0⟩) ∧
    ∀ bytes block, (decodeSegmentBlock bytes).block = some block →
      encodeSegmentBlock block = .ok (bytes.take (decodeSegmentBlock bytes).bytesConsumed) := by
  constructor
  · intro block bytes henc
    obtain ⟨hacc, rfl⟩ := encodeSegmentBlock_eq_ok_iff.1 henc
    exact ⟨decodeSegmentBlock_frame_append hacc,
      fun p hp hne ↦ decodeSegmentBlock_of_cut hacc hp hne⟩
  · intro bytes block hblock
    obtain ⟨hacc, hconsumed, rest, hrest⟩ := of_decodeSegmentBlock_block hblock
    rw [hconsumed, hrest, List.take_left]
    exact encodeSegmentBlock_eq_ok_iff.2 ⟨hacc, rfl⟩

/-- A block of a series with a tag, with two samples: followed by another block, and cut off. -/
theorem segmentBlock_exact_mem :
    ∃ bytes, encodeSegmentBlock memBlock = .ok bytes ∧
      decodeSegmentBlock (bytes ++ blockFrame cpuBlock) = ⟨some memBlock, .none, bytes.length⟩ ∧
      decodeSegmentBlock (bytes.take 40) = ⟨none, .incompleteBlock, 0⟩ ∧
      encodeSegmentBlock memBlock = .ok ((bytes ++ blockFrame cpuBlock).take
        (decodeSegmentBlock (bytes ++ blockFrame cpuBlock)).bytesConsumed) := by
  have henc : encodeSegmentBlock memBlock = .ok (blockFrame memBlock) :=
    encodeSegmentBlock_eq_ok_iff.2 ⟨by decide +kernel, rfl⟩
  obtain ⟨hread, hcut⟩ := segmentBlock_exact.1 _ _ henc
  have hne : (blockFrame memBlock).take 40 ≠ blockFrame memBlock := fun heq ↦ by
    have hlen : 40 < (blockFrame memBlock).length := by decide +kernel
    rw [← heq, List.length_take] at hlen
    omega
  exact ⟨_, henc, hread _, hcut _ (List.take_prefix _ _) hne,
    segmentBlock_exact.2 _ _ (by rw [hread])⟩

/-! ### Files -/

/-- A part of a file that has been read lies in the file. -/
theorem of_readFileRange {content bytes : Bytes} {offset count : ℕ}
    (h : readFileRange content offset count = .ok bytes) :
    (content.drop offset).take count = bytes ∧ (count ≠ 0 → offset + count ≤ content.length) := by
  rw [readFileRange] at h
  split at h
  · cases h
  split at h
  · cases h
  split at h
  · cases h
  rename_i hrange
  refine ⟨Except.ok.inj h, fun hne ↦ ?_⟩
  rw [not_and, not_lt] at hrange
  exact hrange hne

/-- **A block that matches its index entry** determines the entry and the bytes it was read from. -/
theorem of_checkBlock {entry : SegmentIndexEntry} {bytes : Bytes} {block : SegmentBlock}
    (h : checkBlock entry bytes = .ok block) :
    bytes = blockFrame block ∧ BlockAccepts block ∧
      entry = indexEntry entry.blockOffset entry.blockSize block := by
  rw [checkBlock] at h
  split at h
  · rename_i found hfound herr
    split at h
    · cases h
    · rename_i hmatch
      obtain rfl := Except.ok.inj h
      simp only [not_or, not_not] at hmatch
      obtain ⟨hall, hseries, hcount, hfirst, hlast⟩ := hmatch
      have hdec : decodeSegmentBlock bytes = ⟨some found, .none, bytes.length⟩ := by
        rw [← hall, ← hfound, ← herr]
      obtain ⟨hbytes, hacc⟩ := of_decodeSegmentBlock hdec
      exact ⟨hbytes, hacc,
        SegmentIndexEntry.ext hseries.symm hfirst.symm hlast.symm rfl rfl hcount.symm⟩
  · cases h

/-- What the checks of the index and of the blocks say together about the blocks from an offset on.
-/
structure Region (content : Bytes) (indexOffset : ℕ) (previous : Option SegmentIndexEntry)
    (offset : ℕ) (entries : List SegmentIndexEntry) (blocks : List SegmentBlock) : Prop where
  entries_eq : entries = indexOf offset blocks
  accepted : ∀ b ∈ blocks, BlockAccepts b
  slice_eq : (content.drop offset).take (blockRegion blocks).length = blockRegion blocks
  end_eq : offset + (blockRegion blocks).length = indexOffset
  follows : ∀ p ∈ previous, ∀ e ∈ entries.head?, p.Follows e
  chain : blocks.IsChain SegmentBlock.Before

/-- If an index is valid and all of its blocks read, the bytes in front of it are these blocks, one
behind the other. -/
theorem region_of_reads {content : Bytes} {indexOffset : ℕ} {entries : List SegmentIndexEntry}
    {previous : Option SegmentIndexEntry} {offset : ℕ} {blocks : List SegmentBlock}
    (hvalid : validateIndexFrom indexOffset previous offset entries = .ok ())
    (hread : entries.mapM' (SegmentReader.readBlock (readFileRange content)) = .ok blocks) :
    Region content indexOffset previous offset entries blocks := by
  induction entries generalizing previous offset blocks with
  | nil =>
    obtain rfl : blocks = [] := (Except.ok.inj hread).symm
    rw [validateIndexFrom] at hvalid
    split at hvalid
    · cases hvalid
    · rename_i hend
      exact ⟨rfl, by simp, rfl, not_not.1 hend, by simp, by simp⟩
  | cons entry entries ih =>
    rw [validateIndexFrom] at hvalid
    split at hvalid
    · cases hvalid
    rename_i hentry
    split at hvalid
    · cases hvalid
    split at hvalid
    · cases hvalid
    rename_i hfollows
    simp only [not_or, not_not] at hentry
    cases hb : SegmentReader.readBlock (readFileRange content) entry with
    | error e =>
      rw [List.mapM'_cons, hb] at hread
      cases hread
    | ok block =>
      cases hbs : entries.mapM' (SegmentReader.readBlock (readFileRange content)) with
      | error e =>
        rw [List.mapM'_cons, hb, hbs] at hread
        cases hread
      | ok later =>
        rw [List.mapM'_cons, hb, hbs] at hread
        obtain rfl : blocks = block :: later := (Except.ok.inj hread).symm
        have hregion := ih hvalid hbs
        -- the block was read from the slice that its entry names
        cases hslice : readFileRange content entry.blockOffset entry.blockSize with
        | error e =>
          rw [SegmentReader.readBlock, hslice] at hb
          cases hb
        | ok bytes =>
          rw [SegmentReader.readBlock, hslice] at hb
          obtain ⟨rfl, hacc, hfields⟩ := of_checkBlock hb
          obtain ⟨htake, hfit⟩ := of_readFileRange hslice
          have hfit := hfit hentry.2.2.1
          have hsize : entry.blockSize = (blockFrame block).length := by
            rw [← htake, List.length_take, List.length_drop]
            omega
          rw [hentry.1, hsize] at hfields htake
          rw [hsize] at hregion
          have hhead : entry :: entries = indexOf offset (block :: later) := by
            rw [indexOf, ← hfields, ← hregion.entries_eq]
          refine ⟨hhead, List.forall_mem_cons.2 ⟨hacc, hregion.accepted⟩, ?_, ?_, ?_, ?_⟩
          · rw [blockRegion_cons, List.length_append, List.take_add, htake, List.drop_drop,
              hregion.slice_eq]
          · rw [blockRegion_cons, List.length_append, ← Nat.add_assoc]
            exact hregion.end_eq
          · intro p hp e he
            obtain rfl : entry = e := by simpa using he
            rw [Option.mem_def] at hp
            simpa [hp] using hfollows
          · refine List.isChain_cons.2 ⟨fun next hnext ↦ ?_, hregion.chain⟩
            have hfirst : (indexEntry (offset + (blockFrame block).length) (blockFrame next).length
                next) ∈ entries.head? := by
              rw [hregion.entries_eq]
              cases later with
              | nil => simp at hnext
              | cons b later =>
                obtain rfl : b = next := by simpa using hnext
                rfl
            have hbefore := hregion.follows entry rfl _ hfirst
            rw [hfields] at hbefore
            exact (SegmentBlock.before_iff block next).2 hbefore

/-- What the constructor of a reader has established about the file. -/
structure SegmentReader.Opened (path : Bytes) (fileSize : ℕ) (read : ℕ → ℕ → Except Error Bytes)
    (envelope : SegmentEnvelope) (reader : SegmentReader) : Prop where
  large : segmentHeaderSize + segmentFooterSize + segmentIndexHeaderSize + checksumSize ≤ fileSize
  header : ∃ bytes, read 0 segmentHeaderSize = .ok bytes ∧ decodeHeader bytes = .ok envelope
  footer : ∃ bytes, read (fileSize - segmentFooterSize) segmentFooterSize = .ok bytes ∧
    decodeFooter bytes = .ok envelope
  index_ge : segmentIndexHeaderSize + checksumSize ≤ envelope.indexSize
  size_eq : envelope.indexOffset + envelope.indexSize + segmentFooterSize = fileSize
  index : ∃ bytes, read envelope.indexOffset envelope.indexSize = .ok bytes ∧
    decodeIndex bytes envelope.blockCount envelope.indexOffset = .ok reader.index
  path_eq : reader.path = path
  fileSize_eq : reader.fileSize = fileSize

/-- What the constructor has checked, in a reader that it has returned. -/
theorem SegmentReader.of_open {path : Bytes} {size : Except Error ℕ}
    {read : ℕ → ℕ → Except Error Bytes}
    {reader : SegmentReader} (hopen : SegmentReader.open path size read = .ok reader) :
    ∃ fileSize envelope, size = .ok fileSize ∧ Opened path fileSize read envelope reader := by
  obtain ⟨fileSize, hsize, hopen⟩ := bind_eq_ok.1 hopen
  split at hopen
  · cases hopen
  rename_i hlarge
  obtain ⟨headerBytes, hheader, hopen⟩ := bind_eq_ok.1 hopen
  obtain ⟨footerBytes, hfooter, hopen⟩ := bind_eq_ok.1 hopen
  obtain ⟨header, hheader', hopen⟩ := bind_eq_ok.1 hopen
  obtain ⟨footer, hfooter', hopen⟩ := bind_eq_ok.1 hopen
  split at hopen
  · cases hopen
  rename_i hagree
  split at hopen
  · cases hopen
  rename_i hbounds
  obtain ⟨indexBytes, hindex, hopen⟩ := bind_eq_ok.1 hopen
  obtain ⟨index, hindex', hopen⟩ := bind_eq_ok.1 hopen
  obtain rfl := Except.ok.inj hopen
  simp only [not_or, not_not] at hagree hbounds
  obtain rfl : header = footer := by
    obtain ⟨blockCount, indexOffset, indexSize⟩ := header
    obtain ⟨rfl, rfl, rfl⟩ := hagree
    rfl
  exact ⟨fileSize, header, hsize, not_lt.1 hlarge, ⟨_, hheader, hheader'⟩, ⟨_, hfooter, hfooter'⟩,
    not_lt.1 hbounds.2.1, hbounds.2.2.2.2.2, ⟨_, hindex, hindex'⟩, rfl, rfl⟩

/-- **A file that opens and whose blocks can all be read** is the file written from these blocks. -/
theorem eq_segmentBytes_of_open {content path : Bytes} {reader : SegmentReader}
    {blocks : List SegmentBlock}
    (hopen : SegmentReader.open path (.ok content.length : Except Error ℕ) (readFileRange content) =
      .ok reader)
    (hblocks : reader.blocks (readFileRange content) = .ok blocks) :
    SegmentAccepts blocks ∧ content = segmentBytes blocks := by
  obtain ⟨_, header, hsize, hopened⟩ := SegmentReader.of_open hopen
  obtain rfl := Except.ok.inj hsize
  obtain ⟨headerBytes, hheader, hheader'⟩ := hopened.header
  obtain ⟨footerBytes, hfooter, hfooter'⟩ := hopened.footer
  obtain ⟨indexBytes, hindex, hindex'⟩ := hopened.index
  have hlarge := hopened.large
  have hend := hopened.size_eq
  -- each part is the encoding of what it says
  obtain ⟨rfl, hzero, hmax⟩ := of_decodeHeader hheader'
  obtain rfl := of_decodeFooter hfooter'
  obtain ⟨rfl, hcount, hacc, hvalid⟩ := of_decodeIndex hindex'
  obtain ⟨hheader, -⟩ := of_readFileRange hheader
  obtain ⟨hfooter, -⟩ := of_readFileRange hfooter
  obtain ⟨hindex, -⟩ := of_readFileRange hindex
  have hregion := region_of_reads hvalid hblocks
  have hentries : reader.index = segmentIndex blocks := hregion.entries_eq
  have hblockCount : header.blockCount = blocks.length := by
    rw [← hcount, hentries]
    exact length_indexOf _ _
  have hoffset : header.indexOffset = segmentHeaderSize + (blockRegion blocks).length :=
    hregion.end_eq.symm
  have hindexSize : header.indexSize = (indexRegion blocks).length := by
    have hlen := congrArg List.length hindex
    rw [List.length_take, List.length_drop, hentries] at hlen
    unfold indexRegion
    omega
  have henvelope : header = segmentEnvelope blocks := by
    obtain ⟨blockCount, indexOffset, indexSize⟩ := header
    dsimp only at hblockCount hoffset hindexSize
    rw [segmentEnvelope, ← hblockCount, ← hoffset, ← hindexSize]
  have haccepts : SegmentAccepts blocks := by
    refine ⟨?_, ?_, (isChain_before_iff _).1 hregion.chain, hregion.accepted, hentries ▸ hacc⟩
    · intro hnil
      rw [hnil] at hblockCount
      exact hzero hblockCount
    · rw [← hblockCount]
      exact hmax
  refine ⟨haccepts, ?_⟩
  -- the four parts stand one behind the other and fill the file
  have hsplit : content = content.take segmentHeaderSize ++
      ((content.drop segmentHeaderSize).take (blockRegion blocks).length ++
        ((content.drop header.indexOffset).take header.indexSize ++
          content.drop (header.indexOffset + header.indexSize))) := by
    rw [← List.drop_drop, List.take_append_drop, hoffset, ← List.drop_drop, List.take_append_drop,
      List.take_append_drop]
  have hlast : content.drop (header.indexOffset + header.indexSize) = encodeFooter header := by
    have hstart : header.indexOffset + header.indexSize = content.length - segmentFooterSize := by
      omega
    rw [hstart, ← hfooter, List.take_of_length_le]
    rw [List.length_drop]
    omega
  rw [List.drop_zero] at hheader
  rw [hsplit, hheader, hregion.slice_eq, hindex, hlast, segmentBytes, ← henvelope, indexRegion,
    ← hentries]

/-- **The segment format is a bijection.** What the writer produces from a list of blocks opens,
reads back as the list, and is described in the index block by block; and a byte string that opens
and whose blocks can all be read is what the writer produces from these blocks. -/
theorem segmentFile_bijection (path : Bytes) :
    (∀ blocks bytes metadata, encodeSegmentFile blocks = .ok (bytes, metadata) →
      ∃ reader : SegmentReader,
        SegmentReader.open path (.ok bytes.length : Except Error ℕ) (readFileRange bytes) =
          .ok reader ∧
        reader.blocks (readFileRange bytes) = .ok blocks ∧
        (∀ block ∈ blocks, encodeSegmentBlock block = .ok (blockFrame block)) ∧
        reader.index = indexOf segmentHeaderSize blocks ∧
        reader.sampleCount = metadata.sampleCount ∧ reader.index.length = metadata.blockCount) ∧
    ∀ (content : Bytes) (reader : SegmentReader) (blocks : List SegmentBlock),
      SegmentReader.open path (.ok content.length : Except Error ℕ) (readFileRange content) =
        .ok reader →
      reader.blocks (readFileRange content) = .ok blocks →
      ∃ metadata, encodeSegmentFile blocks = .ok (content, metadata) := by
  constructor
  · intro blocks bytes metadata henc
    obtain ⟨hacc, rfl, rfl⟩ := encodeSegmentFile_eq_ok_iff.1 henc
    refine ⟨SegmentReader.of path blocks, open_segmentBytes hacc path,
      blocks_eq (describes_segmentBytes hacc), fun block hblock ↦ ?_, rfl, rfl, length_indexOf _ _⟩
    exact encodeSegmentBlock_eq_ok_iff.2 ⟨hacc.blocks_accepted block hblock, rfl⟩
  · intro content reader blocks hopen hblocks
    obtain ⟨hacc, rfl⟩ := eq_segmentBytes_of_open hopen hblocks
    exact ⟨_, encodeSegmentFile_eq_ok_iff.2 ⟨hacc, rfl, rfl⟩⟩

/-- Three blocks of two series. -/
theorem segmentFile_bijection_storedBlocks :
    ∃ bytes metadata reader, encodeSegmentFile storedBlocks = .ok (bytes, metadata) ∧
      SegmentReader.open [] (.ok bytes.length : Except Error ℕ) (readFileRange bytes) = .ok reader ∧
      reader.blocks (readFileRange bytes) = .ok storedBlocks ∧ reader.index.length = 3 ∧
      ∃ metadata', encodeSegmentFile storedBlocks = .ok (bytes, metadata') := by
  have henc := encodeSegmentFile_eq_ok_iff.2 ⟨segmentAccepts_storedBlocks, rfl, rfl⟩
  obtain ⟨reader, hopen, hblocks, -, -, -, hcount⟩ := (segmentFile_bijection []).1 _ _ _ henc
  exact ⟨_, _, reader, henc, hopen, hblocks, hcount,
    (segmentFile_bijection []).2 _ _ _ hopen hblocks⟩

end ChronoStore
