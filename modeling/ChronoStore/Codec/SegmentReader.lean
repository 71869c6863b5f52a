import ChronoStore.Codec.SegmentWriter

/-!
# Reading segment files

`SegmentReader` keeps the index of a file in memory and reads blocks when a query needs them. Its
functions are written for any monad that can throw, with the reads of the file as a parameter: over
the faulty disk a read is a call that may fail, and in `Except` it is a slice of the content
(`readFileRange`).

In `Except`, on the content that the writer produced, the queries are plain questions about the
samples of a series (`samplesOf`), in which neither the index nor the blocks occur any more.
-/

namespace ChronoStore

/-- The part of `read_file_bytes` behind the opening of the file. -/
def readFileRange (content : Bytes) (offset count : ℕ) : Except Error Bytes :=
  if offset > 2 ^ 63 - 1 then .error (.runtimeError "file offset is too large") else
  if count > 2 ^ 63 - 1 then .error (.runtimeError "file read is too large") else
  if count ≠ 0 ∧ content.length < offset + count then
    .error (.runtimeError "failed to read complete file range") else
  .ok ((content.drop offset).take count)

structure SegmentReader where
  path : Bytes
  fileSize : ℕ
  sampleCount : ℕ
  index : List SegmentIndexEntry
deriving DecidableEq

/-- The checks on a block that `read_block` makes once it has the bytes. -/
def checkBlock (entry : SegmentIndexEntry) (bytes : Bytes) : Except Error SegmentBlock :=
  let decoded := decodeSegmentBlock bytes
  match decoded.block, decoded.error with
  | some block, .none =>
    if decoded.bytesConsumed ≠ bytes.length ∨ block.series ≠ entry.series ∨
        block.sampleCount ≠ entry.sampleCount ∨ block.firstTimestamp ≠ entry.firstTimestamp ∨
        block.lastTimestamp ≠ entry.lastTimestamp then
      reject "segment block does not match its index entry"
    else .ok block
  | _, _ => reject "segment block does not match its index entry"

namespace SegmentReader

section Programs

variable {m : Type → Type} [Monad m] [MonadLiftT (Except Error) m]

/-- The constructor; `size` and `read` are `file_size_bytes` and `read_file_bytes` on the path. -/
def «open» (path : Bytes) (size : m ℕ) (read : ℕ → ℕ → m Bytes) : m SegmentReader := do
  let fileSize ← size
  if fileSize < segmentHeaderSize + segmentFooterSize + segmentIndexHeaderSize + checksumSize then
    raise (.segmentFormatError "segment file is too small") else do
  let headerBytes ← read 0 segmentHeaderSize
  let footerBytes ← read (fileSize - segmentFooterSize) segmentFooterSize
  let header ← liftM (decodeHeader headerBytes)
  let footer ← liftM (decodeFooter footerBytes)
  if header.blockCount ≠ footer.blockCount ∨ header.indexOffset ≠ footer.indexOffset ∨
      header.indexSize ≠ footer.indexSize then
    raise (.segmentFormatError "segment header and footer disagree")
  else if header.indexOffset < segmentHeaderSize ∨
      header.indexSize < segmentIndexHeaderSize + checksumSize ∨
      header.indexSize > maxIndexPayloadSize + segmentIndexHeaderSize + checksumSize ∨
      header.indexOffset > fileSize ∨ header.indexSize > fileSize - header.indexOffset ∨
      header.indexOffset + header.indexSize + segmentFooterSize ≠ fileSize then
    raise (.segmentFormatError "segment index bounds are invalid")
  else do
  let indexBytes ← read header.indexOffset header.indexSize
  let index ← liftM (decodeIndex indexBytes header.blockCount header.indexOffset)
  return ⟨path, fileSize, (index.map SegmentIndexEntry.sampleCount).sum, index⟩

/-- `SegmentReader::read_block`: the bytes of one entry, decoded and compared with the entry. -/
def readBlock (read : ℕ → ℕ → m Bytes) (entry : SegmentIndexEntry) : m SegmentBlock := do
  let bytes ← read entry.blockOffset entry.blockSize
  liftM (checkBlock entry bytes)

/-- `SegmentReader::latest`: the entry in front of the upper bound is the last one of the series. -/
def latest (reader : SegmentReader) (read : ℕ → ℕ → m Bytes) (series : SeriesKey) :
    m (Option Sample) :=
  match (reader.index.takeWhile fun entry ↦ !decide (series < entry.series)).getLast? with
  | none => pure none
  | some entry =>
    if entry.series ≠ series then pure none else do
    let block ← readBlock read entry
    return block.samples.getLast?

/-- The loop of `SegmentReader::get`. -/
def getFrom (read : ℕ → ℕ → m Bytes) (series : SeriesKey) (timestamp : Timestamp) :
    List SegmentIndexEntry → m (Option Sample)
  | [] => pure none
  | entry :: entries =>
    if entry.series ≠ series then pure none
    else if timestamp < entry.firstTimestamp then pure none
    else if timestamp > entry.lastTimestamp then getFrom read series timestamp entries
    else do
      let block ← readBlock read entry
      match block.samples.dropWhile fun candidate ↦ candidate.timestamp < timestamp with
      | [] => return none
      | sample :: _ => if sample.timestamp = timestamp then return some sample else return none

/-- `SegmentReader::get`: at most one block is read, the one whose times enclose the timestamp. -/
def get (reader : SegmentReader) (read : ℕ → ℕ → m Bytes) (series : SeriesKey)
    (timestamp : Timestamp) : m (Option Sample) :=
  getFrom read series timestamp (reader.index.dropWhile fun candidate ↦ candidate.series < series)

/-- The loop of `SegmentReader::range`. -/
def rangeFrom (read : ℕ → ℕ → m Bytes) (series : SeriesKey) (start stop : Timestamp) :
    List SegmentIndexEntry → List Sample → m (List Sample)
  | [], result => pure result
  | entry :: entries, result =>
    if entry.series ≠ series then pure result
    else if entry.lastTimestamp < start then rangeFrom read series start stop entries result
    else if entry.firstTimestamp ≥ stop then pure result
    else do
      let block ← readBlock read entry
      let first := block.samples.dropWhile fun sample ↦ sample.timestamp < start
      rangeFrom read series start stop entries
        (result ++ first.takeWhile fun sample ↦ sample.timestamp < stop)

/-- `SegmentReader::range`: the blocks of the series that meet the interval, which is open at its
end. -/
def range (reader : SegmentReader) (read : ℕ → ℕ → m Bytes) (series : SeriesKey)
    (start stop : Timestamp) : m (List Sample) :=
  if stop < start then raise (.invalidArgument "range end must not precede range start")
  else if start = stop then pure []
  else rangeFrom read series start stop
    (reader.index.dropWhile fun candidate ↦ candidate.series < series) []

/-- `SegmentReader::blocks`: every block, in the order of the index. -/
def blocks (reader : SegmentReader) (read : ℕ → ℕ → m Bytes) : m (List SegmentBlock) :=
  reader.index.mapM' (readBlock read)

end Programs

/-- The reader of the file that the writer produced from these blocks. -/
def of (path : Bytes) (blocks : List SegmentBlock) : SegmentReader :=
  ⟨path, (segmentBytes blocks).length, countSamples blocks, segmentIndex blocks⟩

end SegmentReader

/-! ### Reading a written file -/

/-- A part of a file between two others. -/
theorem readFileRange_append (before slice after : Bytes) (hoff : before.length ≤ 2 ^ 63 - 1)
    (hlen : slice.length ≤ 2 ^ 63 - 1) :
    readFileRange (before ++ (slice ++ after)) before.length slice.length = .ok slice := by
  rw [readFileRange, if_neg (not_lt.2 hoff), if_neg (not_lt.2 hlen), if_neg, List.drop_left,
    List.take_left]
  simp only [List.length_append, not_and, not_lt]
  omega

/-- Every part of an accepted file is small. -/
structure SegmentSizes (blocks : List SegmentBlock) : Prop where
  region_le : (blockRegion blocks).length ≤ 2 ^ 44
  index_le : (indexRegion blocks).length ≤ maxIndexPayloadSize + segmentIndexHeaderSize +
    checksumSize
  index_ge : segmentIndexHeaderSize + checksumSize ≤ (indexRegion blocks).length
  file_eq : (segmentBytes blocks).length = segmentHeaderSize + (blockRegion blocks).length +
    (indexRegion blocks).length + segmentFooterSize

/-- The sizes in a file that the writer accepts are bounded. -/
theorem SegmentAccepts.sizes {blocks : List SegmentBlock} (h : SegmentAccepts blocks) :
    SegmentSizes blocks := by
  have hregion := length_blockRegion_le h.blocks_accepted
  have hlen := h.length_le
  have hindex := length_withChecksum_indexBody (segmentIndex blocks)
  have hacc := h.index_accepted
  unfold maxSegmentBlockCount at hlen
  unfold IndexAccepts at hacc
  change (indexRegion blocks).length = _ at hindex
  refine ⟨by omega, by omega, by omega, ?_⟩
  simp only [segmentBytes, List.length_append, length_encodeHeader, length_encodeFooter]
  omega

/-- So the numbers of header and footer fit into their columns. -/
theorem SegmentAccepts.envelope_fits {blocks : List SegmentBlock} (h : SegmentAccepts blocks) :
    (segmentEnvelope blocks).Fits := by
  have hsizes := h.sizes
  have hregion := hsizes.region_le
  have hindex := hsizes.index_le
  have hlen := h.length_le
  unfold maxSegmentBlockCount at hlen
  unfold maxIndexPayloadSize segmentIndexHeaderSize checksumSize at hindex
  refine ⟨?_, ?_, ?_⟩
  · show blocks.length < 2 ^ 32
    omega
  · show segmentHeaderSize + (blockRegion blocks).length < 2 ^ 64
    unfold segmentHeaderSize
    omega
  · show (indexRegion blocks).length < 2 ^ 64
    omega

theorem SegmentAccepts.length_ne_zero {blocks : List SegmentBlock} (h : SegmentAccepts blocks) :
    blocks.length ≠ 0 :=
  fun h0 ↦ h.ne_nil (List.length_eq_zero_iff.1 h0)

/-- The bounds that the constructor of a reader checks. -/
theorem SegmentAccepts.envelope_bounds {blocks : List SegmentBlock} (h : SegmentAccepts blocks) :
    ¬((segmentEnvelope blocks).indexOffset < segmentHeaderSize ∨
      (segmentEnvelope blocks).indexSize < segmentIndexHeaderSize + checksumSize ∨
      (segmentEnvelope blocks).indexSize > maxIndexPayloadSize + segmentIndexHeaderSize +
        checksumSize ∨
      (segmentEnvelope blocks).indexOffset > (segmentBytes blocks).length ∨
      (segmentEnvelope blocks).indexSize >
        (segmentBytes blocks).length - (segmentEnvelope blocks).indexOffset ∨
      (segmentEnvelope blocks).indexOffset + (segmentEnvelope blocks).indexSize +
        segmentFooterSize ≠ (segmentBytes blocks).length) := by
  obtain ⟨-, hindex, hindex', hfile⟩ := h.sizes
  have hoff : (segmentEnvelope blocks).indexOffset =
    segmentHeaderSize + (blockRegion blocks).length := rfl
  have hsize : (segmentEnvelope blocks).indexSize = (indexRegion blocks).length := rfl
  omega

/-- The index of a written file is read back. -/
theorem decodeIndex_indexRegion {blocks : List SegmentBlock} (h : SegmentAccepts blocks) :
    decodeIndex (indexRegion blocks) (segmentEnvelope blocks).blockCount
      (segmentEnvelope blocks).indexOffset = .ok (segmentIndex blocks) := by
  have hcount : (segmentIndex blocks).length = blocks.length := length_indexOf _ _
  have hne : segmentIndex blocks ≠ [] := by
    refine List.ne_nil_of_length_pos ?_
    rw [hcount]
    exact Nat.pos_of_ne_zero h.length_ne_zero
  have := decodeIndex_indexBody h.index_accepted (fun e he ↦ indexEntry_fits h he) hne
    (by rw [hcount]; exact h.length_le) (validateIndex_segmentIndex h)
  rwa [hcount] at this

/-- The index counts the samples of the blocks. -/
theorem sum_sampleCount_segmentIndex (blocks : List SegmentBlock) :
    ((segmentIndex blocks).map SegmentIndexEntry.sampleCount).sum = countSamples blocks := by
  rw [segmentIndex, map_sampleCount_indexOf]
  rfl

/-- **Opening a written file finds its index.** -/
theorem open_segmentBytes {blocks : List SegmentBlock} (h : SegmentAccepts blocks) (path : Bytes) :
    SegmentReader.open path (.ok (segmentBytes blocks).length : Except Error ℕ)
      (readFileRange (segmentBytes blocks)) = .ok (SegmentReader.of path blocks) := by
  have hsizes := h.sizes
  obtain ⟨hregion, hindex, hindex', hfile⟩ := hsizes
  have hheader : readFileRange (segmentBytes blocks) 0 segmentHeaderSize =
      .ok (encodeHeader (segmentEnvelope blocks)) := by
    have := readFileRange_append [] (encodeHeader (segmentEnvelope blocks))
      (blockRegion blocks ++ (indexRegion blocks ++ encodeFooter (segmentEnvelope blocks)))
      (by simp) (by rw [length_encodeHeader]; unfold segmentHeaderSize; omega)
    rwa [List.nil_append, List.length_nil, length_encodeHeader] at this
  have hfooter : readFileRange (segmentBytes blocks)
      ((segmentBytes blocks).length - segmentFooterSize) segmentFooterSize =
      .ok (encodeFooter (segmentEnvelope blocks)) := by
    have hsplit : segmentBytes blocks = (encodeHeader (segmentEnvelope blocks) ++
        (blockRegion blocks ++ indexRegion blocks)) ++
          (encodeFooter (segmentEnvelope blocks) ++ []) := by
      simp [segmentBytes]
    have hoff : (segmentBytes blocks).length - segmentFooterSize =
        (encodeHeader (segmentEnvelope blocks) ++
          (blockRegion blocks ++ indexRegion blocks)).length := by
      simp only [List.length_append, length_encodeHeader]
      omega
    rw [hoff, hsplit, ← length_encodeFooter (segmentEnvelope blocks)]
    refine readFileRange_append _ _ _ ?_
      (by rw [length_encodeFooter]; unfold segmentFooterSize; omega)
    simp only [List.length_append, length_encodeHeader]
    unfold maxIndexPayloadSize segmentIndexHeaderSize checksumSize at hindex
    unfold segmentHeaderSize
    omega
  have hsize : (segmentEnvelope blocks).indexSize = (indexRegion blocks).length := rfl
  have hslice : readFileRange (segmentBytes blocks) (segmentEnvelope blocks).indexOffset
      (segmentEnvelope blocks).indexSize = .ok (indexRegion blocks) := by
    have hsplit : segmentBytes blocks = (encodeHeader (segmentEnvelope blocks) ++
        blockRegion blocks) ++ (indexRegion blocks ++ encodeFooter (segmentEnvelope blocks)) := by
      simp [segmentBytes]
    have hoff : (segmentEnvelope blocks).indexOffset =
        (encodeHeader (segmentEnvelope blocks) ++ blockRegion blocks).length := by
      rw [List.length_append, length_encodeHeader]
      rfl
    rw [hoff, hsplit, hsize]
    refine readFileRange_append _ _ _ ?_ ?_
    · rw [List.length_append, length_encodeHeader]
      unfold segmentHeaderSize
      omega
    · unfold maxIndexPayloadSize segmentIndexHeaderSize checksumSize at hindex
      omega
  have hbounds := h.envelope_bounds
  have hdh := decodeHeader_encodeHeader h.envelope_fits h.length_ne_zero h.length_le
  have hdf := decodeFooter_encodeFooter h.envelope_fits
  have hdecode := decodeIndex_indexRegion h
  have hcounts := sum_sampleCount_segmentIndex blocks
  have hsmall : ¬(segmentBytes blocks).length <
      segmentHeaderSize + segmentFooterSize + segmentIndexHeaderSize + checksumSize := by omega
  unfold SegmentReader.open
  simp only [bind, Except.bind, hsmall, hheader, hfooter, liftM, monadLift, hdh,
    hdf, hslice, hdecode, ne_eq, not_true_eq_false, or_self, if_false, hbounds, hcounts, pure,
    Except.pure, SegmentReader.of]

/-! ### Queries on a written file -/

/-- The samples that blocks hold for a series. -/
def samplesOf (series : SeriesKey) (blocks : List SegmentBlock) : List Sample :=
  (blocks.filter fun block ↦ block.series = series).flatMap SegmentBlock.samples

/-- The entry leads to the block and repeats what the block says about itself. -/
structure Describes (read : ℕ → ℕ → Except Error Bytes) (entry : SegmentIndexEntry)
    (block : SegmentBlock) : Prop where
  readBlock_eq : SegmentReader.readBlock read entry = .ok block
  series_eq : entry.series = block.series
  first_eq : entry.firstTimestamp = block.firstTimestamp
  last_eq : entry.lastTimestamp = block.lastTimestamp

/-- A written block agrees with its index entry. -/
theorem checkBlock_blockFrame {block : SegmentBlock} (h : BlockAccepts block) (offset size : ℕ) :
    checkBlock (indexEntry offset size block) (blockFrame block) = .ok block := by
  simp only [checkBlock, decodeSegmentBlock_frame h]
  rw [if_neg]
  simp [indexEntry]

/-- **Every entry of a written file leads to its block.** -/
theorem describes_segmentBytes {blocks : List SegmentBlock} (h : SegmentAccepts blocks) :
    List.Forall₂ (Describes (readFileRange (segmentBytes blocks)))
      (segmentIndex blocks) blocks := by
  have hregion := h.sizes.region_le
  -- the blocks from some point on, described by the rest of the index
  have main : ∀ rest before : List SegmentBlock, blocks = before ++ rest →
      List.Forall₂ (Describes (readFileRange (segmentBytes blocks)))
        (indexOf (segmentHeaderSize + (blockRegion before).length) rest) rest := by
    intro rest
    induction rest with
    | nil => exact fun _ _ ↦ .nil
    | cons block rest ih =>
      intro before hsplit
      have hacc : BlockAccepts block := h.blocks_accepted block (by simp [hsplit])
      have hbytes : segmentBytes blocks =
          (encodeHeader (segmentEnvelope blocks) ++ blockRegion before) ++ (blockFrame block ++
            (blockRegion rest ++ (indexRegion blocks ++
              encodeFooter (segmentEnvelope blocks)))) := by
        rw [segmentBytes, hsplit]
        simp [blockRegion]
      have hoff : segmentHeaderSize + (blockRegion before).length =
          (encodeHeader (segmentEnvelope blocks) ++ blockRegion before).length := by
        rw [List.length_append, length_encodeHeader]
      have hsize : (blockRegion before).length ≤ (blockRegion blocks).length := by
        rw [hsplit]
        simp [blockRegion]
      have hframe := length_blockFrame_le hacc
      have hread : readFileRange (segmentBytes blocks)
          (segmentHeaderSize + (blockRegion before).length) (blockFrame block).length =
            .ok (blockFrame block) := by
        rw [hbytes, hoff]
        refine readFileRange_append _ _ _ ?_ (by omega)
        rw [List.length_append, length_encodeHeader]
        unfold segmentHeaderSize
        omega
      rw [indexOf]
      refine .cons ⟨?_, rfl, rfl, rfl⟩ ?_
      · rw [SegmentReader.readBlock]
        simp only [indexEntry, hread, bind, Except.bind, liftM, monadLift]
        exact checkBlock_blockFrame hacc (segmentHeaderSize + (blockRegion before).length)
          (blockFrame block).length
      · have := ih (before ++ [block]) (by simp [hsplit])
        rwa [show (blockRegion (before ++ [block])).length =
          (blockRegion before).length + (blockFrame block).length by simp [blockRegion],
          ← Nat.add_assoc] at this
  have hall := main blocks [] rfl
  rwa [show (blockRegion []).length = 0 from rfl, Nat.add_zero] at hall

section Queries

variable {read : ℕ → ℕ → Except Error Bytes} {entries : List SegmentIndexEntry}
  {blocks : List SegmentBlock} {series : SeriesKey}

/-- What an index describes can be cut at the lower bound of a series. -/
theorem Describes.dropWhile (h : List.Forall₂ (Describes read) entries blocks) :
    List.Forall₂ (Describes read) (entries.dropWhile fun e ↦ e.series < series)
      (blocks.dropWhile fun b ↦ b.series < series) := by
  induction h with
  | nil => exact .nil
  | @cons entry block entries blocks hd hrest ih =>
    rw [List.dropWhile_cons, List.dropWhile_cons, hd.series_eq]
    split
    · exact ih
    · exact .cons hd hrest

/-- What an index describes can be cut at the upper bound of a series. -/
theorem Describes.takeWhile (series : SeriesKey)
    (h : List.Forall₂ (Describes read) entries blocks) :
    List.Forall₂ (Describes read) (entries.takeWhile fun e ↦ !decide (series < e.series))
      (blocks.takeWhile fun b ↦ !decide (series < b.series)) := by
  induction h with
  | nil => exact .nil
  | @cons entry block entries blocks hd hrest ih =>
    rw [List.takeWhile_cons, List.takeWhile_cons, hd.series_eq]
    split
    · exact .cons hd ih
    · exact .nil

/-- The series of ordered blocks do not decrease. -/
theorem pairwise_series_le (h : blocks.Pairwise SegmentBlock.Before) :
    blocks.Pairwise fun a b ↦ a.series ≤ b.series :=
  h.imp fun hab ↦ hab.elim le_of_lt fun heq ↦ heq.1.le

/-- Skipping the smaller series does not change the samples of this one. -/
theorem samplesOf_dropWhile (h : blocks.Pairwise SegmentBlock.Before) :
    samplesOf series (blocks.dropWhile fun b ↦ b.series < series) = samplesOf series blocks := by
  rw [SortedList.dropWhile_lt_eq_filter (pairwise_series_le h), samplesOf, List.filter_filter,
    samplesOf]
  congr 2
  funext b
  by_cases hb : b.series = series
  · simp [hb]
  · simp [hb]

theorem samplesOf_cons_of_eq {block : SegmentBlock} (h : block.series = series) :
    samplesOf series (block :: blocks) = block.samples ++ samplesOf series blocks := by
  rw [samplesOf, List.filter_cons_of_pos (by simpa using h), List.flatMap_cons]
  rfl

/-- Past a greater series there are no samples of this one. -/
theorem samplesOf_eq_nil {block : SegmentBlock} (h : (block :: blocks).Pairwise SegmentBlock.Before)
    (hlt : series < block.series) : samplesOf series (block :: blocks) = [] := by
  have hnone : (block :: blocks).filter (fun b ↦ b.series = series) = [] := by
    rw [List.filter_eq_nil_iff]
    intro b hb
    have hle : block.series ≤ b.series := by
      rcases List.mem_cons.1 hb with rfl | hb
      · exact le_refl _
      · exact (List.pairwise_cons.1 (pairwise_series_le h)).1 b hb
    simpa using (hlt.trans_le hle).ne'
  rw [samplesOf, hnone]
  rfl

/-- Later blocks of a series hold later samples. -/
theorem lt_of_mem_samplesOf {block : SegmentBlock}
    (h : (block :: blocks).Pairwise SegmentBlock.Before) (hs : block.series = series) {x : Sample}
    (hx : x ∈ samplesOf series blocks) : block.lastTimestamp < x.timestamp := by
  rw [samplesOf, List.mem_flatMap] at hx
  obtain ⟨b, hb, hxb⟩ := hx
  rw [List.mem_filter] at hb
  rcases (List.pairwise_cons.1 h).1 b hb.1 with hlt | ⟨-, hlt⟩
  · rw [hs, of_decide_eq_true hb.2] at hlt
    exact absurd hlt (lt_irrefl _)
  · exact hlt.trans_le (b.firstTimestamp_le hxb)

/-- The samples of a series in a file stand in strictly increasing order. -/
theorem samplesOf_sorted (h : blocks.Pairwise SegmentBlock.Before) :
    (samplesOf series blocks).Pairwise fun a b ↦ a.timestamp < b.timestamp := by
  induction blocks with
  | nil => exact List.Pairwise.nil
  | cons block blocks ih =>
    by_cases hs : block.series = series
    · rw [samplesOf_cons_of_eq hs]
      refine List.pairwise_append.2 ⟨block.sorted, ih (List.pairwise_cons.1 h).2, ?_⟩
      intro a ha b hb
      exact (block.le_lastTimestamp ha).trans_lt (lt_of_mem_samplesOf h hs hb)
    · have hskip : samplesOf series (block :: blocks) = samplesOf series blocks := by
        rw [samplesOf, List.filter_cons_of_neg (by simpa using hs)]
        rfl
      rw [hskip]
      exact ih (List.pairwise_cons.1 h).2

/-- A lower bound in sorted samples finds the sample with that timestamp, if there is one. -/
theorem find?_eq_of_lowerBound {samples : List Sample} {t : Timestamp}
    (h : samples.Pairwise fun a b ↦ a.timestamp < b.timestamp) :
    samples.find? (fun x ↦ x.timestamp = t) =
      match samples.dropWhile (fun x ↦ x.timestamp < t) with
      | [] => none
      | x :: _ => if x.timestamp = t then some x else none := by
  induction samples with
  | nil => rfl
  | cons a samples ih =>
    rw [List.pairwise_cons] at h
    rcases lt_trichotomy a.timestamp t with hlt | heq | hgt
    · rw [List.find?_cons_of_neg (by simpa using hlt.ne),
        List.dropWhile_cons_of_pos (by simpa using hlt), ih h.2]
    · rw [List.find?_cons_of_pos (by simpa using heq),
        List.dropWhile_cons_of_neg (by simp [heq])]
      simp [heq]
    · rw [List.dropWhile_cons_of_neg (by simpa using hgt.le)]
      simp only [hgt.ne', if_false]
      rw [List.find?_eq_none]
      intro x hx
      rcases List.mem_cons.1 hx with rfl | hx
      · simpa using hgt.ne'
      · simpa using (hgt.trans (h.1 x hx)).ne'

/-- The loop of `get` finds the sample of the series at the timestamp. -/
theorem getFrom_eq (hd : List.Forall₂ (Describes read) entries blocks)
    (h : blocks.Pairwise SegmentBlock.Before) (hge : ∀ b ∈ blocks, series ≤ b.series)
    (t : Timestamp) : SegmentReader.getFrom read series t entries =
      .ok ((samplesOf series blocks).find? fun x ↦ x.timestamp = t) := by
  induction hd with
  | nil => rfl
  | @cons entry block entries blocks hd hrest ih =>
    have htail := ih (List.pairwise_cons.1 h).2 fun b hb ↦ hge b (List.mem_cons_of_mem _ hb)
    rw [SegmentReader.getFrom, hd.series_eq, hd.first_eq, hd.last_eq]
    by_cases hs : block.series = series
    · rw [if_neg (not_not.2 hs), samplesOf_cons_of_eq hs, List.find?_append]
      by_cases hfirst : t < block.firstTimestamp
      · rw [if_pos hfirst]
        have hblock : block.samples.find? (fun x ↦ x.timestamp = t) = none :=
          List.find?_eq_none.2 fun x hx ↦ by
            simpa using (hfirst.trans_le (block.firstTimestamp_le hx)).ne'
        have hlater : (samplesOf series blocks).find? (fun x ↦ x.timestamp = t) = none :=
          List.find?_eq_none.2 fun x hx ↦ by
            have := (hfirst.trans_le block.firstTimestamp_le_lastTimestamp).trans
              (lt_of_mem_samplesOf h hs hx)
            simpa using this.ne'
        rw [hblock, hlater]
        rfl
      · rw [if_neg hfirst]
        by_cases hlast : t > block.lastTimestamp
        · have hblock : block.samples.find? (fun x ↦ x.timestamp = t) = none :=
            List.find?_eq_none.2 fun x hx ↦ by
              simpa using ((block.le_lastTimestamp hx).trans_lt hlast).ne
          rw [if_pos hlast, htail, hblock, Option.none_or]
        · have hlater : (samplesOf series blocks).find? (fun x ↦ x.timestamp = t) = none :=
            List.find?_eq_none.2 fun x hx ↦ by
              simpa using ((not_lt.1 hlast).trans_lt (lt_of_mem_samplesOf h hs hx)).ne'
          rw [if_neg hlast, hd.readBlock_eq, hlater, Option.or_none,
            find?_eq_of_lowerBound block.sorted]
          show (match block.samples.dropWhile fun x ↦ x.timestamp < t with
            | [] => Except.ok none
            | x :: _ => if x.timestamp = t then Except.ok (some x) else Except.ok none) = _
          split
          · rfl
          · split <;> rfl
    · have hlt : series < block.series := lt_of_le_of_ne (hge block List.mem_cons_self) (Ne.symm hs)
      rw [if_pos hs, samplesOf_eq_nil h hlt]
      rfl

/-- What a range query takes from sorted samples. -/
theorem slice_eq_filter {samples : List Sample} (start stop : Timestamp)
    (h : samples.Pairwise fun a b ↦ a.timestamp < b.timestamp) :
    (samples.dropWhile fun x ↦ x.timestamp < start).takeWhile (fun x ↦ x.timestamp < stop) =
      samples.filter fun x ↦ start ≤ x.timestamp ∧ x.timestamp < stop := by
  have hle := SortedList.pairwise_le_of_lt (f := Sample.timestamp) h
  rw [SortedList.dropWhile_lt_eq_filter hle, SortedList.takeWhile_lt_eq_filter (hle.filter _),
    List.filter_filter]
  congr 1
  funext x
  simp [Bool.and_comm]

/-- The loop of `range` collects the samples of the series in the interval. -/
theorem rangeFrom_eq (hd : List.Forall₂ (Describes read) entries blocks)
    (h : blocks.Pairwise SegmentBlock.Before) (hge : ∀ b ∈ blocks, series ≤ b.series)
    (start stop : Timestamp) (result : List Sample) :
    SegmentReader.rangeFrom read series start stop entries result =
      .ok (result ++ (samplesOf series blocks).filter fun x ↦
        start ≤ x.timestamp ∧ x.timestamp < stop) := by
  induction hd generalizing result with
  | nil => simp [SegmentReader.rangeFrom, samplesOf, pure, Except.pure]
  | @cons entry block entries blocks hd hrest ih =>
    have htail := ih (List.pairwise_cons.1 h).2 fun b hb ↦ hge b (List.mem_cons_of_mem _ hb)
    rw [SegmentReader.rangeFrom, hd.series_eq, hd.first_eq, hd.last_eq]
    by_cases hs : block.series = series
    · rw [if_neg (not_not.2 hs), samplesOf_cons_of_eq hs, List.filter_append]
      by_cases hlast : block.lastTimestamp < start
      · have hblock : block.samples.filter
            (fun x ↦ start ≤ x.timestamp ∧ x.timestamp < stop) = [] := by
          rw [List.filter_eq_nil_iff]
          intro x hx
          have := (block.le_lastTimestamp hx).trans_lt hlast
          simp [this.not_ge]
        rw [if_pos hlast, htail, hblock, List.nil_append]
      · rw [if_neg hlast]
        by_cases hfirst : block.firstTimestamp ≥ stop
        · have hblock : block.samples.filter
              (fun x ↦ start ≤ x.timestamp ∧ x.timestamp < stop) = [] := by
            rw [List.filter_eq_nil_iff]
            intro x hx
            have := hfirst.le.trans (block.firstTimestamp_le hx)
            simp [this.not_gt]
          have hlater : (samplesOf series blocks).filter
              (fun x ↦ start ≤ x.timestamp ∧ x.timestamp < stop) = [] := by
            rw [List.filter_eq_nil_iff]
            intro x hx
            have := (hfirst.le.trans block.firstTimestamp_le_lastTimestamp).trans
              (lt_of_mem_samplesOf h hs hx).le
            simp [this.not_gt]
          rw [if_pos hfirst, hblock, hlater]
          simp [pure, Except.pure]
        · rw [if_neg hfirst, hd.readBlock_eq]
          simp only [bind, Except.bind]
          rw [htail, slice_eq_filter start stop block.sorted, List.append_assoc]
    · have hlt : series < block.series := lt_of_le_of_ne (hge block List.mem_cons_self) (Ne.symm hs)
      rw [if_pos hs, samplesOf_eq_nil h hlt]
      simp [pure, Except.pure]

/-- The blocks in front of the upper bound hold all samples of the series, and the last of them
holds its latest sample, unless there is none. -/
theorem getLast?_samplesOf (h : blocks.Pairwise SegmentBlock.Before) :
    (samplesOf series blocks).getLast? =
      match (blocks.takeWhile fun b ↦ !decide (series < b.series)).getLast? with
      | none => none
      | some b => if b.series = series then b.samples.getLast? else none := by
  have htake : blocks.takeWhile (fun b ↦ !decide (series < b.series)) =
      blocks.filter fun b ↦ b.series ≤ series := by
    induction blocks with
    | nil => rfl
    | cons b blocks ih =>
      have hle := pairwise_series_le h
      rw [List.pairwise_cons] at h hle
      by_cases hb : series < b.series
      · rw [List.takeWhile_cons_of_neg (by simpa using hb), eq_comm, List.filter_eq_nil_iff]
        intro c hc
        rcases List.mem_cons.1 hc with rfl | hc
        · simpa using hb
        · simpa using hb.trans_le (hle.1 c hc)
      · rw [List.takeWhile_cons_of_pos (by simpa using hb), ih h.2,
          List.filter_cons_of_pos (by simpa using hb)]
  have hsame : samplesOf series blocks =
      samplesOf series (blocks.filter fun b ↦ b.series ≤ series) := by
    rw [samplesOf, samplesOf, List.filter_filter]
    congr 2
    funext b
    by_cases hb : b.series = series <;> simp [hb]
  rw [htake, hsame]
  rcases List.eq_nil_or_concat (blocks.filter fun b ↦ b.series ≤ series) with hnil | ⟨l, b, hl⟩
  · rw [hnil]
    rfl
  · rw [List.concat_eq_append] at hl
    have hsplit : samplesOf series (l ++ [b]) = samplesOf series l ++ samplesOf series [b] := by
      simp [samplesOf]
    rw [hl, List.getLast?_concat, hsplit]
    by_cases hb : b.series = series
    · have hlast : samplesOf series [b] = b.samples := by simp [samplesOf, hb]
      rw [hlast, List.getLast?_append]
      simp only [hb, if_true]
      rw [List.getLast?_eq_some_getLast b.samples_ne_nil]
      rfl
    · -- the last series is smaller, and so are all before it
      have hord := pairwise_series_le (h.filter fun b ↦ b.series ≤ series)
      have hmem : b ∈ blocks.filter fun b ↦ b.series ≤ series := by rw [hl]; simp
      have hble : b.series ≤ series := by simpa using (List.mem_filter.1 hmem).2
      have hblt : b.series < series := lt_of_le_of_ne hble hb
      rw [hl, List.pairwise_append] at hord
      have hnone : l.filter (fun c ↦ c.series = series) = [] := by
        rw [List.filter_eq_nil_iff]
        intro c hc
        simpa using ((hord.2.2 c hc b (by simp)).trans_lt hblt).ne
      have hempty : samplesOf series l = [] := by rw [samplesOf, hnone]; rfl
      have hempty' : samplesOf series [b] = [] := by simp [samplesOf, hb]
      simp [hempty, hempty', hb]

/-- `latest` finds the last sample of the series. -/
theorem latest_eq {reader : SegmentReader}
    (hd : List.Forall₂ (Describes read) reader.index blocks)
    (h : blocks.Pairwise SegmentBlock.Before) :
    reader.latest read series = .ok (samplesOf series blocks).getLast? := by
  have htake := Describes.takeWhile series hd
  rw [getLast?_samplesOf h, SegmentReader.latest]
  generalize reader.index.takeWhile (fun e ↦ !decide (series < e.series)) = es at htake
  generalize blocks.takeWhile (fun b ↦ !decide (series < b.series)) = bs at htake
  -- the two lists end in an entry and its block, or are both empty
  rcases List.eq_nil_or_concat es with rfl | ⟨es', e, rfl⟩
  · cases htake
    rfl
  · rcases List.eq_nil_or_concat bs with rfl | ⟨bs', b, rfl⟩
    · simpa using htake.length_eq
    · rw [List.concat_eq_append, List.concat_eq_append] at htake
      have hd' : Describes read e b := by
        have hrev := List.forall₂_reverse_iff.2 htake
        rw [List.reverse_concat, List.reverse_concat] at hrev
        exact (List.forall₂_cons.1 hrev).1
      rw [List.concat_eq_append, List.concat_eq_append, List.getLast?_concat, List.getLast?_concat]
      simp only [hd'.series_eq, hd'.readBlock_eq]
      by_cases hb : b.series = series
      · simp [hb, bind, Except.bind, pure, Except.pure]
      · simp [hb, pure, Except.pure]

/-- `get` finds the sample of the series at the timestamp. -/
theorem get_eq {reader : SegmentReader} (hd : List.Forall₂ (Describes read) reader.index blocks)
    (h : blocks.Pairwise SegmentBlock.Before) (t : Timestamp) :
    reader.get read series t = .ok ((samplesOf series blocks).find? fun x ↦ x.timestamp = t) := by
  rw [SegmentReader.get, getFrom_eq (Describes.dropWhile hd) (h.sublist (List.dropWhile_sublist _)),
    samplesOf_dropWhile h]
  intro b hb
  rw [SortedList.dropWhile_lt_eq_filter (pairwise_series_le h)] at hb
  simpa using (List.mem_filter.1 hb).2

/-- `range` collects the samples of the series in the interval. -/
theorem range_eq {reader : SegmentReader} (hd : List.Forall₂ (Describes read) reader.index blocks)
    (h : blocks.Pairwise SegmentBlock.Before) {start stop : Timestamp} (hle : start ≤ stop) :
    reader.range read series start stop =
      .ok ((samplesOf series blocks).filter fun x ↦ start ≤ x.timestamp ∧ x.timestamp < stop) := by
  rw [SegmentReader.range, if_neg (not_lt.2 hle)]
  by_cases heq : start = stop
  · have hnone : (samplesOf series blocks).filter
        (fun x ↦ start ≤ x.timestamp ∧ x.timestamp < stop) = [] := by
      rw [List.filter_eq_nil_iff]
      intro x _
      simp [heq]
    rw [if_pos heq, hnone]
    rfl
  · rw [if_neg heq, rangeFrom_eq (Describes.dropWhile hd) (h.sublist (List.dropWhile_sublist _)),
      List.nil_append, samplesOf_dropWhile h]
    intro b hb
    rw [SortedList.dropWhile_lt_eq_filter (pairwise_series_le h)] at hb
    simpa using (List.mem_filter.1 hb).2

/-- All blocks are read back. -/
theorem blocks_eq {reader : SegmentReader}
    (hd : List.Forall₂ (Describes read) reader.index blocks) :
    reader.blocks read = .ok blocks := by
  rw [SegmentReader.blocks]
  generalize reader.index = entries at hd
  induction hd with
  | nil => rfl
  | cons hd _ ih => rw [List.mapM'_cons, hd.readBlock_eq, ih]; rfl

end Queries

end ChronoStore
