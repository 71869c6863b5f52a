import ChronoStore.Codec.SegmentFile

/-!
# Writing segment files

`write_segment_file` up to the write itself. The blocks must stand in strictly increasing order of
series and time (`SegmentBlock.Before`), which makes the samples of a file strictly increasing as a
whole; the check compares neighbours, and the order is transitive. `SegmentAccepts` is the
conjunction of every condition on the way, and `encodeSegmentFile_cases` says that there is no
other.
-/

namespace ChronoStore

namespace SegmentBlock

/-- All of `a` stands in front of all of `b`, in series and then in time. -/
def Before (a b : SegmentBlock) : Prop :=
  a.series < b.series ∨ a.series = b.series ∧ a.lastTimestamp < b.firstTimestamp

instance (a b : SegmentBlock) : Decidable (a.Before b) := inferInstanceAs (Decidable (_ ∨ _))

theorem Before.trans {a b c : SegmentBlock} (h : a.Before b) (k : b.Before c) : a.Before c := by
  rcases h with h | ⟨h, ht⟩
  · rcases k with k | ⟨k, -⟩
    · exact Or.inl (h.trans k)
    · exact Or.inl (k ▸ h)
  · rcases k with k | ⟨k, kt⟩
    · exact Or.inl (h ▸ k)
    · exact Or.inr ⟨h.trans k, ht.trans (b.firstTimestamp_le_lastTimestamp.trans_lt kt)⟩

/-- The comparison that the writer makes of neighbours. -/
theorem before_iff (previous current : SegmentBlock) : previous.Before current ↔
    ¬(current.series < previous.series ∨
      current.series = previous.series ∧ current.firstTimestamp ≤ previous.lastTimestamp) := by
  rw [not_or, not_and, not_lt, not_le]
  constructor
  · rintro (h | ⟨h, ht⟩)
    · exact ⟨h.le, fun heq ↦ absurd heq h.ne'⟩
    · exact ⟨h.le, fun _ ↦ ht⟩
  · rintro ⟨hle, ht⟩
    rcases hle.lt_or_eq with h | h
    · exact Or.inl h
    · exact Or.inr ⟨h, ht h.symm⟩

end SegmentBlock

/-- `validate_blocks`: each block is compared with the one before it. -/
def validateBlocks (blocks : List SegmentBlock) : Except Error Unit :=
  if blocks = [] then .error (.invalidArgument "cannot write an empty segment") else
  if blocks.length > maxSegmentBlockCount then
    .error (.lengthError "segment contains too many blocks") else
  if blocks.IsChain SegmentBlock.Before then .ok ()
  else .error (.invalidArgument "segment blocks must be strictly ordered")

/-- The index entry of a block that is written at the given offset. -/
def indexEntry (offset blockSize : ℕ) (block : SegmentBlock) : SegmentIndexEntry :=
  ⟨block.series, block.firstTimestamp, block.lastTimestamp, offset, blockSize, block.sampleCount⟩

/-- The loop over the blocks of `write_segment_file`. -/
def appendBlocks : List SegmentBlock → (fileBytes : Bytes) → (entries : List SegmentIndexEntry) →
    (sampleCount : ℕ) → Except Error (Bytes × List SegmentIndexEntry × ℕ)
  | [], fileBytes, entries, sampleCount => .ok (fileBytes, entries, sampleCount)
  | block :: blocks, fileBytes, entries, sampleCount => do
    let encoded ← encodeSegmentBlock block
    if encoded.length > 2 ^ 32 - 1 then throw (.lengthError "encoded segment block is too large")
    appendBlocks blocks (fileBytes ++ encoded)
      (entries ++ [indexEntry fileBytes.length encoded.length block])
      (sampleCount + block.sampleCount)

/-- `write_segment_file` up to the write: the bytes of the file, and what is said about it. -/
def encodeSegmentFile (blocks : List SegmentBlock) :
    Except Error (Bytes × SegmentFileMetadata) := do
  validateBlocks blocks
  let (fileBytes, entries, sampleCount) ←
    appendBlocks blocks (List.replicate segmentHeaderSize 0) [] 0
  let indexOffset := fileBytes.length
  let encodedIndex ← encodeIndex entries
  let envelope : SegmentEnvelope := ⟨blocks.length, indexOffset, encodedIndex.length⟩
  let footer := encodeFooter envelope
  let header := encodeHeader envelope
  if header.length ≠ segmentHeaderSize ∨ footer.length ≠ segmentFooterSize then
    throw (.logicError "segment envelope has an unexpected encoded size")
  let fileBytes := header ++ (fileBytes ++ encodedIndex ++ footer).drop header.length
  return (fileBytes, ⟨fileBytes.length, sampleCount, blocks.length⟩)

/-! ### The layout of a file -/

/-- The index of blocks that are written from the given offset on. -/
def indexOf : (offset : ℕ) → List SegmentBlock → List SegmentIndexEntry
  | _, [] => []
  | offset, block :: blocks =>
    indexEntry offset (blockFrame block).length block ::
      indexOf (offset + (blockFrame block).length) blocks

/-- The blocks, one behind the other. -/
def blockRegion (blocks : List SegmentBlock) : Bytes := blocks.flatMap blockFrame

/-- The index of a file. -/
def segmentIndex (blocks : List SegmentBlock) : List SegmentIndexEntry :=
  indexOf segmentHeaderSize blocks

/-- The encoded index of a file. -/
def indexRegion (blocks : List SegmentBlock) : Bytes :=
  withChecksum (indexBody (segmentIndex blocks))

/-- What header and footer of a file say. -/
def segmentEnvelope (blocks : List SegmentBlock) : SegmentEnvelope :=
  ⟨blocks.length, segmentHeaderSize + (blockRegion blocks).length, (indexRegion blocks).length⟩

/-- The layout of a file. -/
def segmentBytes (blocks : List SegmentBlock) : Bytes :=
  encodeHeader (segmentEnvelope blocks) ++
    (blockRegion blocks ++ (indexRegion blocks ++ encodeFooter (segmentEnvelope blocks)))

/-- The number of samples in blocks. -/
def countSamples (blocks : List SegmentBlock) : ℕ := (blocks.map SegmentBlock.sampleCount).sum

/-- The lists of blocks that the writer accepts. -/
structure SegmentAccepts (blocks : List SegmentBlock) : Prop where
  ne_nil : blocks ≠ []
  length_le : blocks.length ≤ maxSegmentBlockCount
  ordered : blocks.Pairwise SegmentBlock.Before
  blocks_accepted : ∀ block ∈ blocks, BlockAccepts block
  index_accepted : IndexAccepts (segmentIndex blocks)

instance : DecidablePred SegmentAccepts := fun blocks ↦
  decidable_of_iff (blocks ≠ [] ∧ blocks.length ≤ maxSegmentBlockCount ∧
      blocks.Pairwise SegmentBlock.Before ∧ (∀ block ∈ blocks, BlockAccepts block) ∧
      IndexAccepts (segmentIndex blocks))
    ⟨fun ⟨h₁, h₂, h₃, h₄, h₅⟩ ↦ ⟨h₁, h₂, h₃, h₄, h₅⟩,
      fun ⟨h₁, h₂, h₃, h₄, h₅⟩ ↦ ⟨h₁, h₂, h₃, h₄, h₅⟩⟩

@[simp] theorem length_indexOf (offset : ℕ) (blocks : List SegmentBlock) :
    (indexOf offset blocks).length = blocks.length := by
  induction blocks generalizing offset with
  | nil => rfl
  | cons block blocks ih => rw [indexOf, List.length_cons, List.length_cons, ih]

theorem map_series_indexOf (offset : ℕ) (blocks : List SegmentBlock) :
    (indexOf offset blocks).map SegmentIndexEntry.series = blocks.map SegmentBlock.series := by
  induction blocks generalizing offset with
  | nil => rfl
  | cons block blocks ih => rw [indexOf, List.map_cons, List.map_cons, ih]; rfl

/-- The index has the sample counts of the blocks. -/
theorem map_sampleCount_indexOf (offset : ℕ) (blocks : List SegmentBlock) :
    (indexOf offset blocks).map SegmentIndexEntry.sampleCount =
      blocks.map SegmentBlock.sampleCount := by
  induction blocks generalizing offset with
  | nil => rfl
  | cons block blocks ih => rw [indexOf, List.map_cons, List.map_cons, ih]; rfl

/-- The size of the index: 32 bytes and the series key, for each block. -/
theorem length_indexPayload_segmentIndex (blocks : List SegmentBlock) :
    (indexPayload (segmentIndex blocks)).length =
      (blocks.map fun block ↦ 32 + (seriesKeyBytes block.series).length).sum := by
  have hcomp : ∀ {α : Type} (f : α → SeriesKey) (l : List α),
      (l.map fun a ↦ 32 + (seriesKeyBytes (f a)).length) =
        (l.map f).map fun s ↦ 32 + (seriesKeyBytes s).length := by
    intro α f l
    rw [List.map_map]
    rfl
  rw [length_indexPayload, hcomp, segmentIndex, map_series_indexOf, ← hcomp]

theorem blockRegion_cons (block : SegmentBlock) (blocks : List SegmentBlock) :
    blockRegion (block :: blocks) = blockFrame block ++ blockRegion blocks :=
  List.flatMap_cons

/-- A block that the encoder accepts is bounded. -/
theorem length_blockFrame_le {block : SegmentBlock} (h : BlockAccepts block) :
    (blockFrame block).length ≤ 16777240 := by
  have hlen := length_blockFrame block
  unfold BlockAccepts maxSegmentBlockPayloadSize at h
  unfold segmentBlockHeaderSize segmentBlockChecksumSize at hlen
  omega

/-- The blocks of a file that the encoder accepts are bounded by their number. -/
theorem length_blockRegion_le {blocks : List SegmentBlock} (h : ∀ b ∈ blocks, BlockAccepts b) :
    (blockRegion blocks).length ≤ 16777240 * blocks.length := by
  induction blocks with
  | nil => exact Nat.le_refl _
  | cons block blocks ih =>
    have hblock := length_blockFrame_le (h block List.mem_cons_self)
    have hrest := ih fun b hb ↦ h b (List.mem_cons_of_mem _ hb)
    rw [blockRegion_cons, List.length_append, List.length_cons]
    omega

/-- **The loop over the blocks** writes frames and index entries side by side, or stops at the first
block that the block encoder refuses. -/
theorem appendBlocks_cases (blocks : List SegmentBlock) (fileBytes : Bytes)
    (entries : List SegmentIndexEntry) (n : ℕ) :
    (∀ b ∈ blocks, BlockAccepts b) ∧ appendBlocks blocks fileBytes entries n =
        .ok (fileBytes ++ blockRegion blocks, entries ++ indexOf fileBytes.length blocks,
          n + countSamples blocks) ∨
      ¬(∀ b ∈ blocks, BlockAccepts b) ∧
        ∃ what, appendBlocks blocks fileBytes entries n = .error (.lengthError what) := by
  induction blocks generalizing fileBytes entries n with
  | nil => exact Or.inl ⟨by simp, by simp [appendBlocks, blockRegion, indexOf, countSamples]⟩
  | cons block blocks ih =>
    rcases encodeSegmentBlock_cases block with ⟨hacc, henc⟩ | ⟨hacc, what, henc⟩
    · have hsize : ¬(blockFrame block).length > 2 ^ 32 - 1 := by
        have := length_blockFrame_le hacc
        omega
      have hstep : appendBlocks (block :: blocks) fileBytes entries n =
          appendBlocks blocks (fileBytes ++ blockFrame block)
            (entries ++ [indexEntry fileBytes.length (blockFrame block).length block])
            (n + block.sampleCount) := by
        rw [appendBlocks, henc]
        simp only [bind, Except.bind, hsize, if_false]
      rw [hstep]
      rcases ih (fileBytes ++ blockFrame block)
        (entries ++ [indexEntry fileBytes.length (blockFrame block).length block])
        (n + block.sampleCount) with ⟨hall, hok⟩ | ⟨hnot, hbad⟩
      · refine Or.inl ⟨List.forall_mem_cons.2 ⟨hacc, hall⟩, ?_⟩
        rw [hok, blockRegion_cons, indexOf, List.length_append]
        simp [countSamples, Nat.add_assoc]
      · exact Or.inr ⟨fun h ↦ hnot (List.forall_mem_cons.1 h).2, hbad⟩
    · refine Or.inr ⟨fun h ↦ hacc (List.forall_mem_cons.1 h).1, what, ?_⟩
      rw [appendBlocks, henc]
      rfl

/-- Blocks are ordered as a whole if neighbours are. -/
theorem isChain_before_iff (blocks : List SegmentBlock) :
    blocks.IsChain SegmentBlock.Before ↔ blocks.Pairwise SegmentBlock.Before := by
  have : Trans SegmentBlock.Before SegmentBlock.Before SegmentBlock.Before :=
    ⟨SegmentBlock.Before.trans⟩
  exact List.isChain_iff_pairwise

/-- **The writer's conditions.** It writes the layout of `segmentBytes`, or refuses. -/
theorem encodeSegmentFile_cases (blocks : List SegmentBlock) :
    SegmentAccepts blocks ∧ encodeSegmentFile blocks =
        .ok (segmentBytes blocks,
          ⟨(segmentBytes blocks).length, countSamples blocks, blocks.length⟩) ∨
      ¬SegmentAccepts blocks ∧ ∃ e : Error, e.IsRefusal ∧ encodeSegmentFile blocks = .error e := by
  by_cases hne : blocks = []
  · refine Or.inr ⟨fun h ↦ h.ne_nil hne, .invalidArgument "cannot write an empty segment",
      trivial, ?_⟩
    rw [encodeSegmentFile, validateBlocks, if_pos hne]
    rfl
  by_cases hmax : blocks.length > maxSegmentBlockCount
  · refine Or.inr ⟨fun h ↦ absurd h.length_le (not_le.2 hmax),
      .lengthError "segment contains too many blocks", trivial, ?_⟩
    rw [encodeSegmentFile, validateBlocks, if_neg hne, if_pos hmax]
    rfl
  by_cases hord : blocks.IsChain SegmentBlock.Before
  swap
  · refine Or.inr ⟨fun h ↦ hord ((isChain_before_iff _).2 h.ordered),
      .invalidArgument "segment blocks must be strictly ordered", trivial, ?_⟩
    rw [encodeSegmentFile, validateBlocks, if_neg hne, if_neg hmax, if_neg hord]
    rfl
  have hvalid : validateBlocks blocks = .ok () := by
    rw [validateBlocks, if_neg hne, if_neg hmax, if_pos hord]
  rcases appendBlocks_cases blocks (List.replicate segmentHeaderSize 0) [] 0 with
    ⟨hall, happ⟩ | ⟨hnot, what, happ⟩
  swap
  · refine Or.inr ⟨fun h ↦ hnot h.blocks_accepted, .lengthError what, trivial, ?_⟩
    rw [encodeSegmentFile, hvalid, happ]
    rfl
  rw [List.nil_append, List.length_replicate, Nat.zero_add] at happ
  rcases encodeIndex_cases (segmentIndex blocks) with ⟨hidx, hienc⟩ | ⟨hidx, what, hienc⟩
  swap
  · refine Or.inr ⟨fun h ↦ hidx h.index_accepted, .lengthError what, trivial, ?_⟩
    rw [encodeSegmentFile, hvalid, happ]
    simp only [bind, Except.bind]
    rw [show encodeIndex (indexOf segmentHeaderSize blocks) = _ from hienc]
  refine Or.inl ⟨⟨hne, not_lt.1 hmax, (isChain_before_iff _).1 hord, hall, hidx⟩, ?_⟩
  have hdrop : ∀ header rest : Bytes, header.length = segmentHeaderSize →
      header ++ (List.replicate segmentHeaderSize 0 ++ rest).drop header.length =
        header ++ rest := by
    intro header rest hlen
    rw [List.drop_left' (by rw [hlen, List.length_replicate])]
  have hbytes : encodeHeader (segmentEnvelope blocks) ++
      (List.replicate segmentHeaderSize 0 ++ blockRegion blocks ++ indexRegion blocks ++
        encodeFooter (segmentEnvelope blocks)).drop
          (encodeHeader (segmentEnvelope blocks)).length = segmentBytes blocks := by
    rw [List.append_assoc, List.append_assoc, hdrop _ _ rfl, segmentBytes]
  rw [encodeSegmentFile, hvalid, happ]
  simp only [bind, Except.bind]
  rw [show encodeIndex (indexOf segmentHeaderSize blocks) = .ok (indexRegion blocks) from hienc]
  have hoffset : (List.replicate segmentHeaderSize (0 : UInt8) ++ blockRegion blocks).length =
      segmentHeaderSize + (blockRegion blocks).length := by
    rw [List.length_append, List.length_replicate]
  simp only [hoffset]
  rw [if_neg (by simp)]
  exact congrArg (fun bytes : Bytes ↦ (Except.ok (bytes, (⟨bytes.length, countSamples blocks,
    blocks.length⟩ : SegmentFileMetadata)) : Except Error _)) hbytes

/-- The writer writes the layout, of the blocks that it accepts. -/
theorem encodeSegmentFile_eq_ok_iff {blocks : List SegmentBlock} {bytes : Bytes}
    {metadata : SegmentFileMetadata} :
    encodeSegmentFile blocks = .ok (bytes, metadata) ↔ SegmentAccepts blocks ∧
      bytes = segmentBytes blocks ∧
      metadata = ⟨bytes.length, countSamples blocks, blocks.length⟩ := by
  rcases encodeSegmentFile_cases blocks with ⟨hacc, hok⟩ | ⟨hnot, e, -, herr⟩
  · rw [hok, Except.ok.injEq, Prod.mk.injEq, and_iff_right hacc, eq_comm]
    refine and_congr_right fun h ↦ ?_
    rw [h, eq_comm]
  · simp [herr, hnot]

/-- The writer accepts the blocks of the example. -/
theorem segmentAccepts_storedBlocks : SegmentAccepts storedBlocks := by decide +kernel

/-! ### The index of an accepted file passes the reader's checks -/

/-- An entry of the index is about a block, and it has its offset and size. -/
theorem mem_indexOf {offset : ℕ} {blocks : List SegmentBlock} {entry : SegmentIndexEntry}
    (h : entry ∈ indexOf offset blocks) : ∃ before block after, blocks = before ++ block :: after ∧
      entry = indexEntry (offset + (blockRegion before).length)
        (blockFrame block).length block := by
  induction blocks generalizing offset with
  | nil => simp [indexOf] at h
  | cons b blocks ih =>
    rw [indexOf] at h
    rcases List.mem_cons.1 h with rfl | h
    · exact ⟨[], b, blocks, rfl, rfl⟩
    · obtain ⟨before, block, after, rfl, rfl⟩ := ih h
      refine ⟨b :: before, block, after, rfl, ?_⟩
      rw [blockRegion_cons, List.length_append, Nat.add_assoc]

/-- The numbers of an entry fit into their columns. -/
theorem indexEntry_fits {blocks : List SegmentBlock} (h : SegmentAccepts blocks)
    {entry : SegmentIndexEntry} (he : entry ∈ segmentIndex blocks) : entry.Fits := by
  obtain ⟨before, block, after, rfl, rfl⟩ := mem_indexOf he
  have hregion := @length_blockRegion_le before fun b hb ↦
    h.blocks_accepted b (List.mem_append_left _ hb)
  have hframe := length_blockFrame_le (h.blocks_accepted block (by simp))
  have hcount := block.length_le
  have hlen := h.length_le
  unfold maxSegmentBlockCount at hlen
  unfold maxSamplesPerSegmentBlock at hcount
  rw [List.length_append] at hlen
  refine ⟨?_, ?_, ?_⟩
  · show segmentHeaderSize + (blockRegion before).length < 2 ^ 64
    unfold segmentHeaderSize
    omega
  · show (blockFrame block).length < 2 ^ 32
    omega
  · show block.samples.length < 2 ^ 32
    omega

/-- From any block on, the index passes the check. -/
theorem validateIndexFrom_indexOf {blocks : List SegmentBlock} (offset : ℕ)
    (previous : Option SegmentIndexEntry)
    (hprev : ∀ p ∈ previous, ∀ b ∈ blocks.head?,
      p.Follows (indexEntry offset (blockFrame b).length b))
    (hord : blocks.Pairwise SegmentBlock.Before) :
    validateIndexFrom (offset + (blockRegion blocks).length) previous offset
      (indexOf offset blocks) = .ok () := by
  induction blocks generalizing offset previous with
  | nil =>
    rw [indexOf, validateIndexFrom, if_neg]
    simp [blockRegion]
  | cons block blocks ih =>
    have hpos := block.sampleCount_pos
    have hcount : block.sampleCount ≤ maxSamplesPerSegmentBlock := block.length_le
    have hframe := length_blockFrame block
    unfold segmentBlockHeaderSize at hframe
    rw [List.pairwise_cons] at hord
    have hfollows : previous.any (fun p ↦
        !decide (p.Follows (indexEntry offset (blockFrame block).length block))) = false := by
      cases previous with
      | none => rfl
      | some p => simpa using hprev p rfl block rfl
    have htimes : ¬block.lastTimestamp < block.firstTimestamp :=
      not_lt.2 block.firstTimestamp_le_lastTimestamp
    rw [indexOf, validateIndexFrom, blockRegion_cons, List.length_append, ← Nat.add_assoc]
    rw [if_neg, if_neg, hfollows, if_neg Bool.false_ne_true]
    rotate_left
    · show ¬(blockFrame block).length >
        offset + (blockFrame block).length + (blockRegion blocks).length - offset
      omega
    · rintro (h | h | h | h | h | h)
      · exact h rfl
      · exact absurd (show offset > _ from h) (by omega)
      · exact absurd (show (blockFrame block).length = 0 from h) (by omega)
      · exact absurd (show block.sampleCount = 0 from h) (by omega)
      · exact absurd (show block.sampleCount > _ from h) (by omega)
      · exact htimes h
    refine ih _ _ ?_ hord.2
    rintro p hp b hb
    cases Option.mem_some_iff.1 hp
    exact (SegmentBlock.before_iff block b).1 (hord.1 b (List.mem_of_mem_head? hb))

/-- The index of a written file passes the check of the reader. -/
theorem validateIndex_segmentIndex {blocks : List SegmentBlock} (h : SegmentAccepts blocks) :
    validateIndex (segmentIndex blocks) (segmentHeaderSize + (blockRegion blocks).length) =
      .ok () :=
  validateIndexFrom_indexOf segmentHeaderSize none (by simp) h.ordered

end ChronoStore
