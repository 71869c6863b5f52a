import ChronoStore.Codec.Crc32c
import ChronoStore.Foundation.OrderedMap
import Mathlib.Data.List.Chain

/-!
# Segment blocks

A block is a run of up to 256 samples of one series, in strictly increasing timestamp order:
`segment_block.cpp`, and its encoding `segment_block_codec.cpp`. The order and the bounds are fields
of `SegmentBlock`, so that they need not be proved again where blocks are read, merged or searched.

Blocks are always decoded from a slice of exactly their own size, so two facts about the decoder are
enough: it reads back what was encoded (`decodeSegmentBlock_frame`), and a slice it accepts as a
whole is sealed by its checksum (`sealed_of_decodeSegmentBlock`).
-/

namespace ChronoStore

open Parser

def maxSamplesPerSegmentBlock : ℕ := 256

/-- A sorted, bounded run of samples of one series. -/
@[ext]
structure SegmentBlock where
  series : SeriesKey
  samples : List Sample
  samples_ne_nil : samples ≠ []
  length_le : samples.length ≤ maxSamplesPerSegmentBlock
  sorted : samples.Pairwise fun a b ↦ a.timestamp < b.timestamp

namespace SegmentBlock

instance : DecidableEq SegmentBlock := fun a b ↦
  decidable_of_iff (a.series = b.series ∧ a.samples = b.samples) SegmentBlock.ext_iff.symm

/-- Neighbours in strictly increasing order. -/
def Increasing (samples : List Sample) : Prop :=
  samples.IsChain fun a b ↦ a.timestamp < b.timestamp

instance (samples : List Sample) : Decidable (Increasing samples) :=
  inferInstanceAs (Decidable (samples.IsChain _))

/-- Increasing neighbours make an increasing list. -/
theorem pairwise_of_increasing {samples : List Sample} (h : Increasing samples) :
    samples.Pairwise fun a b ↦ a.timestamp < b.timestamp := by
  have : Trans (fun a b : Sample ↦ a.timestamp < b.timestamp)
      (fun a b : Sample ↦ a.timestamp < b.timestamp)
      (fun a b : Sample ↦ a.timestamp < b.timestamp) := ⟨fun h k ↦ h.trans k⟩
  exact List.isChain_iff_pairwise.1 h

/-- The constructor; the order check compares neighbours. -/
def make (series : SeriesKey) (samples : List Sample) : Except Error SegmentBlock :=
  if hne : samples = [] then .error (.invalidArgument "segment block cannot be empty") else
  if hlen : samples.length > maxSamplesPerSegmentBlock then
    .error (.lengthError "segment block contains too many samples") else
  if hinc : Increasing samples then
    .ok ⟨series, samples, hne, not_lt.1 hlen, pairwise_of_increasing hinc⟩
  else .error (.invalidArgument "segment block timestamps must be strictly increasing")

/-- The constructor lets through what is a block. -/
theorem make_of (series : SeriesKey) {samples : List Sample} (hne : samples ≠ [])
    (hlen : samples.length ≤ maxSamplesPerSegmentBlock)
    (hsorted : samples.Pairwise fun a b ↦ a.timestamp < b.timestamp) :
    make series samples = .ok ⟨series, samples, hne, hlen, hsorted⟩ := by
  have hinc : Increasing samples := hsorted.isChain
  rw [make, dif_neg hne, dif_neg (not_lt.2 hlen), dif_pos hinc]

def sampleCount (block : SegmentBlock) : ℕ := block.samples.length

def firstTimestamp (block : SegmentBlock) : Timestamp :=
  (block.samples.head block.samples_ne_nil).timestamp

def lastTimestamp (block : SegmentBlock) : Timestamp :=
  (block.samples.getLast block.samples_ne_nil).timestamp

/-- No block is empty. -/
theorem sampleCount_pos (block : SegmentBlock) : 0 < block.sampleCount :=
  List.length_pos_of_ne_nil block.samples_ne_nil

/-- The first timestamp is the least. -/
theorem firstTimestamp_le (block : SegmentBlock) {x : Sample} (hx : x ∈ block.samples) :
    block.firstTimestamp ≤ x.timestamp := by
  obtain ⟨series, samples, hne, hlen, hsorted⟩ := block
  cases samples with
  | nil => exact absurd rfl hne
  | cons a l =>
    rcases List.mem_cons.1 hx with rfl | hx
    · exact le_refl _
    · exact ((List.pairwise_cons.1 hsorted).1 x hx).le

/-- The last timestamp is the greatest. -/
theorem le_lastTimestamp (block : SegmentBlock) {x : Sample} (hx : x ∈ block.samples) :
    x.timestamp ≤ block.lastTimestamp :=
  SortedList.le_of_mem_of_getLast?_eq_some (f := Sample.timestamp) block.sorted
    (List.getLast?_eq_some_getLast block.samples_ne_nil) hx

/-- The first sample is not later than the last. -/
theorem firstTimestamp_le_lastTimestamp (block : SegmentBlock) :
    block.firstTimestamp ≤ block.lastTimestamp :=
  block.le_lastTimestamp (List.head_mem block.samples_ne_nil)

end SegmentBlock

/-! ### Encoding -/

/-- Why a byte string is not a block. -/
inductive SegmentBlockDecodeError
  | none
  | incompleteBlock
  | invalidMagic
  | unsupportedVersion
  | unsupportedFlags
  | invalidLength
  | invalidSampleCount
  | checksumMismatch
  | invalidPayload
deriving DecidableEq, Repr

/-- The decoder's verdict. -/
structure SegmentBlockDecodeResult where
  block : Option SegmentBlock
  error : SegmentBlockDecodeError
  bytesConsumed : ℕ

/-- Little-endian bytes spell "CSBK". -/
def segmentBlockMagic : ℕ := 0x4B425343
def segmentBlockVersion : ℕ := 1
def segmentBlockFlags : ℕ := 0
def maxSegmentBlockPayloadSize : ℕ := 16 * 1024 * 1024
def segmentBlockHeaderSize : ℕ := 20
def segmentBlockChecksumSize : ℕ := 4
def encodedSampleSize : ℕ := 2 * 8
def minimumEncodedTagSize : ℕ := 2 * 4

/-- The layout of a sample. -/
def sampleBytes (sample : Sample) : Bytes :=
  writeU64 sample.timestamp.bits ++ writeU64 sample.value.bits.toNat

/-- `encode_payload`: the series once, and then its samples. -/
def encodeBlockPayload (block : SegmentBlock) : Except Error Bytes := do
  let series ← writeSeriesKey "segment block string is too large"
    "segment block contains too many tags" block.series
  return series ++ block.samples.flatMap sampleBytes

/-- The header in front of a payload. -/
def blockHeader (payloadLength sampleCount : ℕ) : Bytes :=
  writeU32 segmentBlockMagic ++ (writeU16 segmentBlockVersion ++ (writeU16 segmentBlockFlags ++
    (writeU32 payloadLength ++ (writeU32 (invert32 payloadLength) ++ writeU32 sampleCount))))

/-- `encode_segment_block`: header, payload, and a checksum over both. -/
def encodeSegmentBlock (block : SegmentBlock) : Except Error Bytes := do
  let payload ← encodeBlockPayload block
  if payload.length > maxSegmentBlockPayloadSize then
    throw (.lengthError "segment block payload is too large")
  let data := blockHeader payload.length block.sampleCount ++ payload
  return data ++ writeU32 (crc32c data)

/-- The layout of a payload. -/
def blockPayload (block : SegmentBlock) : Bytes :=
  seriesKeyBytes block.series ++ block.samples.flatMap sampleBytes

/-- The layout of a block up to its checksum. -/
def blockBody (block : SegmentBlock) : Bytes :=
  blockHeader (blockPayload block).length block.sampleCount ++ blockPayload block

/-- The layout of a block. -/
def blockFrame (block : SegmentBlock) : Bytes :=
  blockBody block ++ writeU32 (crc32c (blockBody block))

/-- The blocks the encoder accepts. -/
def BlockAccepts (block : SegmentBlock) : Prop :=
  (blockPayload block).length ≤ maxSegmentBlockPayloadSize

instance : DecidablePred BlockAccepts := fun block ↦
  inferInstanceAs (Decidable ((blockPayload block).length ≤ maxSegmentBlockPayloadSize))

@[simp] theorem length_blockHeader (n count : ℕ) :
    (blockHeader n count).length = segmentBlockHeaderSize := rfl

theorem length_flatMap_sampleBytes (samples : List Sample) :
    (samples.flatMap sampleBytes).length = encodedSampleSize * samples.length := by
  induction samples with
  | nil => rfl
  | cons x samples ih =>
    rw [List.flatMap_cons, List.length_append, ih, List.length_cons]
    simp [sampleBytes, encodedSampleSize]
    omega

/-- The length of a payload: the series, and sixteen bytes for each sample. -/
theorem length_blockPayload (block : SegmentBlock) : (blockPayload block).length =
    (seriesKeyBytes block.series).length + encodedSampleSize * block.sampleCount := by
  rw [blockPayload, List.length_append, length_flatMap_sampleBytes]
  rfl

theorem length_blockFrame (block : SegmentBlock) : (blockFrame block).length =
    segmentBlockHeaderSize + (blockPayload block).length + segmentBlockChecksumSize := by
  simp only [blockFrame, blockBody, List.length_append, length_blockHeader, length_writeU32,
    segmentBlockChecksumSize]

/-- **The encoder's only condition is the size of the payload.** -/
theorem encodeSegmentBlock_cases (block : SegmentBlock) :
    BlockAccepts block ∧ encodeSegmentBlock block = .ok (blockFrame block) ∨
      ¬BlockAccepts block ∧ ∃ what, encodeSegmentBlock block = .error (.lengthError what) := by
  have hlen := length_blockPayload block
  rcases writeSeriesKey_cases "segment block string is too large"
    "segment block contains too many tags" block.series with hs | ⟨⟨what, hs⟩, hlong⟩
  · have hpayload : encodeBlockPayload block = .ok (blockPayload block) := by
      rw [encodeBlockPayload, hs]
      rfl
    by_cases hacc : BlockAccepts block
    · have hlimit : ¬(blockPayload block).length > maxSegmentBlockPayloadSize := not_lt.2 hacc
      refine Or.inl ⟨hacc, ?_⟩
      rw [encodeSegmentBlock, hpayload]
      simp only [bind, Except.bind, hlimit, if_false, pure, Except.pure]
      rfl
    · have hlimit : (blockPayload block).length > maxSegmentBlockPayloadSize := not_le.1 hacc
      refine Or.inr ⟨hacc, "segment block payload is too large", ?_⟩
      rw [encodeSegmentBlock, hpayload]
      simp only [bind, Except.bind, hlimit, if_true]
      rfl
  · refine Or.inr ⟨?_, what, ?_⟩
    · unfold BlockAccepts maxSegmentBlockPayloadSize
      omega
    · rw [encodeSegmentBlock, encodeBlockPayload, hs]
      rfl

/-- The encoder writes the layout, of the blocks that it accepts. -/
theorem encodeSegmentBlock_eq_ok_iff {block : SegmentBlock} {bytes : Bytes} :
    encodeSegmentBlock block = .ok bytes ↔ BlockAccepts block ∧ bytes = blockFrame block := by
  rcases encodeSegmentBlock_cases block with ⟨hacc, hok⟩ | ⟨hnot, what, herr⟩
  · rw [hok, Except.ok.injEq, and_iff_right hacc, eq_comm]
  · simp [herr, hnot]

/-! ### Decoding -/

/-- The loop over the samples of a payload. -/
def readSamples : (count : ℕ) → Parser UInt8 (List Sample)
  | 0 => pure []
  | n + 1 => do
    let timestampBits ← readU64
    let valueBits ← readU64
    let sample ← liftM (Sample.make (.ofBits timestampBits) (UInt64.ofNat valueBits)).toOption
    let rest ← readSamples n
    return sample :: rest

/-- The fields of a payload, in the order they are read and checked. -/
def readBlockPayload (sampleCount : ℕ) : Parser UInt8 (Bytes × List Tag × List Sample) := do
  let measurement ← readString
  let tagCount ← readU32
  let sampleBytes := sampleCount * encodedSampleSize
  requireRemaining fun remaining ↦ sampleBytes ≤ remaining
  requireRemaining fun remaining ↦ tagCount ≤ (remaining - sampleBytes) / minimumEncodedTagSize
  let tags ← readTags true tagCount []
  let samples ← readSamples sampleCount
  return (measurement, tags, samples)

/-- `decode_payload`; an exception of a model constructor is a refusal. -/
def decodeBlockPayload (payload : Bytes) (sampleCount : ℕ) : Option SegmentBlock :=
  match (readBlockPayload sampleCount).run payload with
  | some ((measurement, tags, samples), []) => do
    let series ← (SeriesKey.make measurement tags).toOption
    (SegmentBlock.make series samples).toOption
  | _ => none

/-- The header fields. -/
structure BlockHeader where
  magic : ℕ
  version : ℕ
  flags : ℕ
  payloadLength : ℕ
  invertedLength : ℕ
  sampleCount : ℕ

def readBlockHeader : Parser UInt8 BlockHeader := do
  let magic ← readU32
  let version ← readU16
  let flags ← readU16
  let payloadLength ← readU32
  let invertedLength ← readU32
  let sampleCount ← readU32
  return ⟨magic, version, flags, payloadLength, invertedLength, sampleCount⟩

/-- `make_decode_error`: a refusal consumes nothing. -/
def blockDecodeError (error : SegmentBlockDecodeError) : SegmentBlockDecodeResult :=
  ⟨none, error, 0⟩

/-- The decoder once the header fields are read. -/
def decodeBlockFramed (header : BlockHeader) (bytes : Bytes) : SegmentBlockDecodeResult :=
  if header.magic ≠ segmentBlockMagic then blockDecodeError .invalidMagic else
  if header.invertedLength ≠ invert32 header.payloadLength ∨
      header.payloadLength > maxSegmentBlockPayloadSize then blockDecodeError .invalidLength else
  let protectedSize := segmentBlockHeaderSize + header.payloadLength
  let totalBlockSize := protectedSize + segmentBlockChecksumSize
  if bytes.length < totalBlockSize then blockDecodeError .incompleteBlock else
  match readU32.run ((bytes.drop protectedSize).take segmentBlockChecksumSize) with
  | none => blockDecodeError .incompleteBlock
  | some (storedChecksum, _) =>
    if storedChecksum ≠ crc32c (bytes.take protectedSize) then
      blockDecodeError .checksumMismatch else
    if header.version ≠ segmentBlockVersion then blockDecodeError .unsupportedVersion else
    if header.flags ≠ segmentBlockFlags then blockDecodeError .unsupportedFlags else
    if header.sampleCount = 0 ∨ header.sampleCount > maxSamplesPerSegmentBlock then
      blockDecodeError .invalidSampleCount else
    match decodeBlockPayload ((bytes.drop segmentBlockHeaderSize).take header.payloadLength)
        header.sampleCount with
    | none => blockDecodeError .invalidPayload
    | some block => ⟨some block, .none, totalBlockSize⟩

/-- `decode_segment_block`: the first thing that is wrong is reported. Length and checksum are
settled before version, flags and payload are looked at. -/
def decodeSegmentBlock (bytes : Bytes) : SegmentBlockDecodeResult :=
  if bytes.length < segmentBlockHeaderSize then blockDecodeError .incompleteBlock else
  match readBlockHeader.run bytes with
  | none => blockDecodeError .incompleteBlock
  | some (header, _) => decodeBlockFramed header bytes

/-! ### Round trip -/

/-- The samples are read back. -/
theorem parses_readSamples (samples : List Sample) :
    Parses (readSamples samples.length) (samples.flatMap sampleBytes) samples := by
  induction samples with
  | nil => exact Parses.pure []
  | cons x samples ih =>
    have hmake : (Sample.make (.ofBits x.timestamp.bits)
        (UInt64.ofNat x.value.bits.toNat)).toOption = some x := by
      rw [Timestamp.ofBits_bits, UInt64.ofNat_toNat, Sample.make_timestamp_bits]
      rfl
    have hbytes : List.flatMap sampleBytes (x :: samples) = writeU64 x.timestamp.bits ++
        (writeU64 x.value.bits.toNat ++ ([] ++ samples.flatMap sampleBytes)) := by
      simp [sampleBytes]
    rw [hbytes]
    refine (parses_readU64 x.timestamp.bits_lt).bind ((parses_readU64 (UInt64.toNat_lt _)).bind ?_)
    exact (Parses.ofOption hmake).bind (ih.bind_nil (Parses.pure _))

/-- The payload of an accepted block is parsed into what it was made from. -/
theorem parses_readBlockPayload {block : SegmentBlock} (h : BlockAccepts block) :
    Parses (readBlockPayload block.sampleCount) (blockPayload block)
      (block.series.measurement, block.series.tags, block.samples) := by
  have hlen := length_blockPayload block
  have hkey := length_seriesKeyBytes block.series
  have htags := length_tags_le block.series.tags
  have hsamples := length_flatMap_sampleBytes block.samples
  unfold BlockAccepts maxSegmentBlockPayloadSize at h
  have hbytes : blockPayload block = stringBytes block.series.measurement ++
      (writeU32 block.series.tags.length ++
        (block.series.tags.flatMap tagBytes ++ block.samples.flatMap sampleBytes)) := by
    simp [blockPayload, seriesKeyBytes]
  have hloop : Parses (readTags true block.series.tags.length [])
      (block.series.tags.flatMap tagBytes) block.series.tags := by
    have := parses_readTags true block.series.tags [] block.series.tags_sorted (by omega)
    rwa [List.nil_append] at this
  rw [hbytes]
  refine (parses_readString (by omega)).bind ((parses_readU32 (by omega)).bind ?_)
  unfold SegmentBlock.sampleCount encodedSampleSize minimumEncodedTagSize at *
  -- what remains holds the samples, and eight bytes for each tag
  refine Parses.requireRemaining_bind ?_ (Parses.requireRemaining_bind ?_ ?_)
  · intro n hn
    rw [List.length_append] at hn
    exact decide_eq_true (by omega)
  · intro n hn
    rw [List.length_append] at hn
    exact decide_eq_true (by omega)
  · exact hloop.bind ((parses_readSamples block.samples).bind_nil (Parses.pure _))

/-- The payload of an accepted block decodes to the block. -/
theorem decodeBlockPayload_payload {block : SegmentBlock} (h : BlockAccepts block) :
    decodeBlockPayload (blockPayload block) block.sampleCount = some block := by
  rw [decodeBlockPayload, (parses_readBlockPayload h).run_self]
  simp only [SeriesKey.make_measurement_tags,
    SegmentBlock.make_of _ block.samples_ne_nil block.length_le block.sorted]
  rfl

theorem parses_readBlockHeader {block : SegmentBlock} (h : BlockAccepts block) :
    Parses readBlockHeader (blockHeader (blockPayload block).length block.sampleCount)
      ⟨segmentBlockMagic, segmentBlockVersion, segmentBlockFlags, (blockPayload block).length,
        invert32 (blockPayload block).length, block.sampleCount⟩ := by
  have hlt : (blockPayload block).length < 2 ^ 32 := lt_of_le_of_lt h (by decide)
  have hcount : block.sampleCount ≤ maxSamplesPerSegmentBlock := block.length_le
  have hcount' : block.sampleCount < 2 ^ 32 := lt_of_le_of_lt hcount (by decide)
  refine (parses_readU32 (by decide)).bind ((parses_readU16 (by decide)).bind
    ((parses_readU16 (by decide)).bind ((parses_readU32 hlt).bind
      ((parses_readU32 (invert32_lt hlt)).bind ?_))))
  exact (parses_readU32 hcount').bind_nil (Parses.pure _)

/-- **Blocks are self-delimiting**: in front of anything, a block reads back as itself. -/
theorem decodeSegmentBlock_frame_append {block : SegmentBlock} (h : BlockAccepts block)
    (rest : Bytes) :
    decodeSegmentBlock (blockFrame block ++ rest) =
      ⟨some block, .none, (blockFrame block).length⟩ := by
  have hlen := length_blockFrame block
  have hbody : (blockBody block).length = segmentBlockHeaderSize + (blockPayload block).length := by
    simp [blockBody]
  have hcount : block.sampleCount ≤ maxSamplesPerSegmentBlock := block.length_le
  have hsplit : blockFrame block ++ rest =
      blockBody block ++ (writeU32 (crc32c (blockBody block)) ++ rest) := by
    rw [blockFrame, List.append_assoc]
  have htake : (blockFrame block ++ rest).take (segmentBlockHeaderSize +
    (blockPayload block).length) =
      blockBody block := by
    rw [hsplit, ← hbody, List.take_left]
  have hsum : ((blockFrame block ++ rest).drop
      (segmentBlockHeaderSize + (blockPayload block).length)).take segmentBlockChecksumSize =
        writeU32 (crc32c (blockBody block)) := by
    rw [hsplit, ← hbody, List.drop_left]
    exact List.take_left' (length_writeU32 _)
  have hpay : ((blockFrame block ++ rest).drop segmentBlockHeaderSize).take
      (blockPayload block).length = blockPayload block := by
    rw [hsplit, blockBody, List.append_assoc, List.drop_left' (length_blockHeader _ _),
      List.take_left]
  have hrun := parses_readBlockHeader h
    (blockPayload block ++ (writeU32 (crc32c (blockBody block)) ++ rest))
  rw [← List.append_assoc] at hrun
  change readBlockHeader.run
    (blockBody block ++ (writeU32 (crc32c (blockBody block)) ++ rest)) = _ at hrun
  rw [← hsplit] at hrun
  have hpos := block.sampleCount_pos
  have htotal : (blockFrame block ++ rest).length = (blockFrame block).length + rest.length :=
    List.length_append
  rw [decodeSegmentBlock, if_neg (by omega), hrun]
  simp only [decodeBlockFramed, hpay, htake, hsum, (parses_readU32 (crc32c_lt _)).run_self,
    decodeBlockPayload_payload h, ne_eq, not_true_eq_false, if_false, false_or, hlen]
  rw [if_neg (not_lt.2 h), if_neg (by omega), if_neg (by omega)]

/-- **A block reads back as itself.** -/
theorem decodeSegmentBlock_frame {block : SegmentBlock} (h : BlockAccepts block) :
    decodeSegmentBlock (blockFrame block) = ⟨some block, .none, (blockFrame block).length⟩ := by
  have happend := decodeSegmentBlock_frame_append h []
  rwa [List.append_nil] at happend

/-- **A proper prefix of a block is incomplete**, and nothing else. -/
theorem decodeSegmentBlock_of_cut {block : SegmentBlock} (h : BlockAccepts block) {p : Bytes}
    (hp : p <+: blockFrame block) (hne : p ≠ blockFrame block) :
    decodeSegmentBlock p = blockDecodeError .incompleteBlock := by
  have hlt : p.length < (blockFrame block).length :=
    lt_of_le_of_ne hp.length_le fun heq ↦ hne (hp.eq_of_length heq)
  by_cases hshort : p.length < segmentBlockHeaderSize
  · rw [decodeSegmentBlock, if_pos hshort]
  · have hhead : blockHeader (blockPayload block).length block.sampleCount <+: p := by
      refine List.prefix_of_prefix_length_le ?_ hp (not_lt.1 hshort)
      exact (List.prefix_append _ _).trans (List.prefix_append _ _)
    obtain ⟨q, rfl⟩ := hhead
    rw [length_blockFrame] at hlt
    rw [decodeSegmentBlock, if_neg hshort, parses_readBlockHeader h q]
    simp only [decodeBlockFramed, ne_eq, not_true_eq_false, if_false, false_or]
    rw [if_neg (not_lt.2 h), if_pos hlt]

/-! ### What acceptance means -/

/-- A checksum that is found behind what it covers seals the whole. -/
theorem sealed_of_checksum {bytes : Bytes} {n : ℕ} (hlen : bytes.length = n + 4) (rest : Bytes)
    (h : readU32.run (bytes.drop n) = some (crc32c (bytes.take n), rest)) : Sealed bytes := by
  have hdrop : (bytes.drop n).length = 4 := by rw [List.length_drop]; omega
  have hsplit := writeUnsigned_littleEndian (bytes.drop n)
  rw [hdrop] at hsplit
  have hstored : littleEndian (bytes.drop n) = crc32c (bytes.take n) := by
    rw [← hsplit] at h
    have hparse := (parses_readUnsigned (n := 4) (by decide)
      (hdrop ▸ littleEndian_lt (bytes.drop n))).run_self
    have := hparse.symm.trans h
    rw [Option.some.injEq, Prod.mk.injEq] at this
    exact this.1
  refine ⟨bytes.take n, ?_⟩
  rw [writeU32, ← hstored, hsplit, List.take_append_drop]

/-- **A slice that is accepted as a whole is sealed.** -/
theorem sealed_of_decodeSegmentBlock {bytes : Bytes} {block : SegmentBlock}
    (hblock : (decodeSegmentBlock bytes).block = some block)
    (hall : (decodeSegmentBlock bytes).bytesConsumed = bytes.length) : Sealed bytes := by
  rw [decodeSegmentBlock] at hblock hall
  split at hblock
  · simp [blockDecodeError] at hblock
  rename_i hshort
  rw [if_neg hshort] at hall
  split at hblock
  · simp [blockDecodeError] at hblock
  rename_i header more hhead
  rw [hhead] at hall
  simp only [decodeBlockFramed] at hblock hall
  split at hblock
  · simp [blockDecodeError] at hblock
  rename_i hmagic
  rw [if_neg hmagic] at hall
  split at hblock
  · simp [blockDecodeError] at hblock
  rename_i hfield
  rw [if_neg hfield] at hall
  split at hblock
  · simp [blockDecodeError] at hblock
  rename_i hfit
  rw [if_neg hfit] at hall
  split at hblock
  · simp [blockDecodeError] at hblock
  rename_i stored tail hstored
  rw [hstored] at hall
  simp only at hall
  split at hblock
  · simp [blockDecodeError] at hblock
  rename_i hcrc
  rw [if_neg hcrc] at hall
  split at hblock
  · simp [blockDecodeError] at hblock
  rename_i hversion
  rw [if_neg hversion] at hall
  split at hblock
  · simp [blockDecodeError] at hblock
  rename_i hflags
  rw [if_neg hflags] at hall
  split at hblock
  · simp [blockDecodeError] at hblock
  rename_i hcount
  rw [if_neg hcount] at hall
  split at hblock
  · simp [blockDecodeError] at hblock
  rename_i found hfound
  rw [hfound] at hall
  have hlen : bytes.length = segmentBlockHeaderSize + header.payloadLength + 4 := hall.symm
  refine sealed_of_checksum hlen tail ?_
  have htake : (bytes.drop (segmentBlockHeaderSize + header.payloadLength)).take
      segmentBlockChecksumSize = bytes.drop (segmentBlockHeaderSize + header.payloadLength) := by
    refine List.take_of_length_le ?_
    rw [List.length_drop]
    unfold segmentBlockChecksumSize
    omega
  rw [← htake, hstored, ← not_not.1 hcrc]

/-! ### A small example -/

/-- A block with one sample, `1.0` of the series `cpu`. -/
def cpuBlock : SegmentBlock :=
  ⟨cpuSeries, [cpuSample], by simp, by decide, List.pairwise_singleton _ _⟩

/-- The next block of `cpu`. -/
def laterBlock : SegmentBlock :=
  ⟨cpuSeries, [laterSample], by simp, by decide, List.pairwise_singleton _ _⟩

/-- A block of the series `mem`, with two samples. -/
def memBlock : SegmentBlock := ⟨memSeries, [cpuSample, laterSample], by simp, by decide, by decide⟩

/-- What a segment with all three holds. -/
def storedBlocks : List SegmentBlock := [cpuBlock, laterBlock, memBlock]

end ChronoStore
