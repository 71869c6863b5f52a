import ChronoStore.Codec.SegmentFormat
import ChronoStore.Foundation.Tiling
import ChronoStore.Foundation.WordArithmetic
import Mathlib.Algebra.Group.Action.Defs
import Mathlib.Algebra.Order.BigOperators.Group.List

/-!
# The layout of an opened segment

The constructor of a reader trusts nothing that it reads: offsets, sizes and counts are whatever the
file says, and it computes with them in words of 64 bits. `SegmentReader.openWords` is the
constructor with each of its additions and subtractions watched for wrap-around, as
`decodeIndexWords` and `validateIndexWords` are for the two functions below it; on every byte string
it ends as the constructor on natural numbers does, so that none of its operations wraps around.
What it accepts is tiled: the header, the blocks that the index names, the index and the footer fill
the file, whatever the bytes of the blocks are.
-/

namespace ChronoStore

open WordArithmetic PositionRange

/-! ### Checks on words -/

/-- The entry that an entry is compared with, unless it is the first. -/
def previousEntry (entries : List SegmentIndexEntry) (index : ℕ) :
    Checked Error (Option SegmentIndexEntry) :=
  if index = 0 then pure none else do
  let before ← sub index 1
  return entries[before]?

/-- The loop of `validate_index` on words; `index` is its counter. -/
def validateIndexWordsFrom (entries : List SegmentIndexEntry) (indexOffset : ℕ) :
    (index expectedOffset : ℕ) → List SegmentIndexEntry → Checked Error Unit
  | _, expectedOffset, [] =>
    if expectedOffset ≠ indexOffset then
      liftM (reject "segment block region has an invalid size" : Except Error Unit)
    else pure ()
  | index, expectedOffset, entry :: rest =>
    if entry.blockOffset ≠ expectedOffset ∨ entry.blockOffset > indexOffset ∨ entry.blockSize = 0 ∨
        entry.sampleCount = 0 ∨ entry.sampleCount > maxSamplesPerSegmentBlock ∨
        entry.lastTimestamp < entry.firstTimestamp then
      liftM (reject "invalid segment index entry" : Except Error Unit) else do
    let room ← sub indexOffset entry.blockOffset
    if entry.blockSize > room then
      liftM (reject "segment block extends into index" : Except Error Unit) else do
    let expectedOffset ← add expectedOffset entry.blockSize
    let previous ← previousEntry entries index
    if previous.any fun p ↦ !decide (p.Follows entry) then
      liftM (reject "segment index is not strictly ordered" : Except Error Unit) else do
    let index ← add index 1
    validateIndexWordsFrom entries indexOffset index expectedOffset rest

/-- `validate_index` on words. -/
def validateIndexWords (entries : List SegmentIndexEntry) (indexOffset : ℕ) : Checked Error Unit :=
  validateIndexWordsFrom entries indexOffset 0 segmentHeaderSize entries

/-- The checksum test of `decode_index`, for the size of what the checksum protects. -/
def checksumMatchesAt (bytes : Bytes) (protectedSize : ℕ) : Bool :=
  match readU32.run (bytes.drop (bytes.length - checksumSize)) with
  | none => false
  | some (storedChecksum, _) => storedChecksum = crc32c (bytes.take protectedSize)

/-- `decode_index` on words. -/
def decodeIndexWords (bytes : Bytes) (expectedEntryCount indexOffset : ℕ) :
    Checked Error (List SegmentIndexEntry) := do
  let smallest ← add segmentIndexHeaderSize checksumSize
  if bytes.length < smallest then liftM (reject "segment index is incomplete" : Except Error _) else
  match readIndexHeader.run bytes with
  | none => liftM (reject "segment index header is incomplete" : Except Error _)
  | some (header, _) =>
    if header.magic ≠ segmentIndexMagic ∨ header.version ≠ segmentFileVersion ∨
        header.flags ≠ segmentFileFlags then
      liftM (reject "invalid or unsupported segment index header" : Except Error _) else
    if header.entryCount ≠ expectedEntryCount ∨ header.entryCount = 0 ∨
        header.entryCount > maxSegmentBlockCount ∨
        header.invertedSize ≠ invert32 header.payloadSize ∨
        header.payloadSize > maxIndexPayloadSize then
      liftM (reject "invalid segment index metadata" : Except Error _) else do
    let expectedSize ← addAll segmentIndexHeaderSize [header.payloadSize, checksumSize]
    if bytes.length ≠ expectedSize then
      liftM (reject "segment index size mismatch" : Except Error _) else do
    let protectedSize ← sub bytes.length checksumSize
    if checksumMatchesAt bytes protectedSize = false then
      liftM (reject "segment index checksum mismatch" : Except Error _) else do
    let (entries, rest) ← liftM (readIndexEntries header.entryCount
      ((bytes.drop segmentIndexHeaderSize).take header.payloadSize))
    if rest ≠ [] then
      liftM (reject "segment index contains trailing payload bytes" : Except Error _) else do
    validateIndexWords entries indexOffset
    return entries

/-- The constructor of a reader on words, for a file with this content. Sums of two or more terms
are computed from left to right, and a condition is only computed when those before it do not hold.
-/
def SegmentReader.openWords (path content : Bytes) : Checked Error SegmentReader := do
  let fileSize := content.length
  let smallest ← addAll segmentHeaderSize [segmentFooterSize, segmentIndexHeaderSize, checksumSize]
  if fileSize < smallest then raise (.segmentFormatError "segment file is too small") else do
  let headerBytes ← liftM (readFileRange content 0 segmentHeaderSize)
  let footerOffset ← sub fileSize segmentFooterSize
  let footerBytes ← liftM (readFileRange content footerOffset segmentFooterSize)
  let header ← liftM (decodeHeader headerBytes)
  let footer ← liftM (decodeFooter footerBytes)
  if header.blockCount ≠ footer.blockCount ∨ header.indexOffset ≠ footer.indexOffset ∨
      header.indexSize ≠ footer.indexSize then
    raise (.segmentFormatError "segment header and footer disagree")
  else if header.indexOffset < segmentHeaderSize then
    raise (.segmentFormatError "segment index bounds are invalid") else do
  let smallestIndex ← add segmentIndexHeaderSize checksumSize
  if header.indexSize < smallestIndex then
    raise (.segmentFormatError "segment index bounds are invalid") else do
  let largestIndex ← addAll maxIndexPayloadSize [segmentIndexHeaderSize, checksumSize]
  if header.indexSize > largestIndex then
    raise (.segmentFormatError "segment index bounds are invalid")
  else if header.indexOffset > fileSize then
    raise (.segmentFormatError "segment index bounds are invalid") else do
  let room ← sub fileSize header.indexOffset
  if header.indexSize > room then
    raise (.segmentFormatError "segment index bounds are invalid") else do
  let expectedFileSize ← addAll header.indexOffset [header.indexSize, segmentFooterSize]
  if expectedFileSize ≠ fileSize then
    raise (.segmentFormatError "segment index bounds are invalid") else do
  let indexBytes ← liftM (readFileRange content header.indexOffset header.indexSize)
  let index ← decodeIndexWords indexBytes header.blockCount header.indexOffset
  let sampleCount ← addAll 0 (index.map SegmentIndexEntry.sampleCount)
  return ⟨path, fileSize, sampleCount, index⟩

/-! ### No operation wraps around -/

/-- The entry before is looked up without a wrap-around. -/
theorem exact_previousEntry {entries : List SegmentIndexEntry}
    (before rest : List SegmentIndexEntry)
    (hsplit : entries = before ++ rest) :
    Exact (previousEntry entries before.length) (.ok before.getLast?) := by
  rcases List.eq_nil_or_concat before with rfl | ⟨front, last, rfl⟩
  · exact .pure none
  · rw [List.concat_eq_append] at hsplit ⊢
    rw [previousEntry, List.length_append, if_neg (by simp)]
    refine .sub_bind (by simp) ?_
    rw [hsplit]
    simpa using Exact.pure (some last)

/-- From any entry on, the loop over words does what the loop over numbers does. -/
theorem exact_validateIndexWordsFrom {entries : List SegmentIndexEntry} {indexOffset : ℕ}
    (hcount : entries.length < 2 ^ 64) (hoffset : indexOffset < 2 ^ 64)
    (before rest : List SegmentIndexEntry) (hsplit : entries = before ++ rest)
    (expectedOffset : ℕ) :
    Exact (validateIndexWordsFrom entries indexOffset before.length expectedOffset rest)
      (validateIndexFrom indexOffset before.getLast? expectedOffset rest) := by
  induction rest generalizing before expectedOffset with
  | nil =>
    rw [validateIndexWordsFrom, validateIndexFrom]
    exact .ite (fun _ ↦ .lift _) fun _ ↦ .pure ()
  | cons entry rest ih =>
    rw [validateIndexWordsFrom, validateIndexFrom]
    refine .ite (fun _ ↦ .lift _) fun hentry ↦ ?_
    simp only [not_or, not_not] at hentry
    obtain ⟨rfl, hle, -⟩ := hentry
    -- the offset is not behind the index, so the room in front of it is a word
    refine .sub_bind (not_lt.1 hle) (.ite (fun _ ↦ .lift _) fun hroom ↦ ?_)
    refine .add_bind (by omega) ?_
    refine (exact_previousEntry before (entry :: rest) hsplit).bind (s := fun _ ↦ _)
      fun previous hprevious ↦ ?_
    obtain rfl := Except.ok.inj hprevious
    refine .ite (fun _ ↦ .lift _) fun _ ↦ ?_
    have hlen : before.length + 1 < 2 ^ 64 := by
      rw [hsplit, List.length_append, List.length_cons] at hcount
      omega
    refine .add_bind hlen ?_
    have := ih (before ++ [entry]) (by simp [hsplit]) (entry.blockOffset + entry.blockSize)
    rwa [List.length_append, List.getLast?_concat] at this

/-- No sum in the check of an index wraps around. -/
theorem exact_validateIndexWords {entries : List SegmentIndexEntry} {indexOffset : ℕ}
    (hcount : entries.length < 2 ^ 64) (hoffset : indexOffset < 2 ^ 64) :
    Exact (validateIndexWords entries indexOffset) (validateIndex entries indexOffset) :=
  exact_validateIndexWordsFrom hcount hoffset [] entries rfl segmentHeaderSize

/-- **The index decoder does not wrap around**, whatever the index says and wherever it is said to
be. -/
theorem exact_decodeIndexWords (bytes : Bytes) (expectedEntryCount : ℕ) {indexOffset : ℕ}
    (hoffset : indexOffset < 2 ^ 64) :
    Exact (decodeIndexWords bytes expectedEntryCount indexOffset)
      (decodeIndex bytes expectedEntryCount indexOffset) := by
  rw [decodeIndexWords, decodeIndex]
  refine .add_bind (by decide) (.ite (fun _ ↦ .lift _) fun hsmall ↦ ?_)
  cases hrun : readIndexHeader.run bytes with
  | none => exact .lift _
  | some found =>
    obtain ⟨header, after⟩ := found
    refine .ite (fun _ ↦ .lift _) fun _ ↦ .ite (fun _ ↦ .lift _) fun hmeta ↦ ?_
    simp only [not_or, not_not] at hmeta
    have hpayload : header.payloadSize ≤ maxIndexPayloadSize := not_lt.1 hmeta.2.2.2.2
    have hsum : segmentIndexHeaderSize + [header.payloadSize, checksumSize].sum < 2 ^ 64 := by
      unfold maxIndexPayloadSize at hpayload
      simp only [List.sum_cons, List.sum_nil, segmentIndexHeaderSize, checksumSize]
      omega
    refine (Exact.addAll hsum).bind (s := fun _ ↦ _) fun expectedSize hexpected ↦ ?_
    obtain rfl := Except.ok.inj hexpected
    rw [List.sum_cons, List.sum_singleton, ← Nat.add_assoc]
    refine .ite (fun _ ↦ .lift _) fun _ ↦ .sub_bind (by omega) (.ite (fun _ ↦ .lift _) fun _ ↦ ?_)
    refine (Exact.lift _).bind fun found hfound ↦ ?_
    obtain ⟨entries, rest⟩ := found
    have hcount := (of_readIndexEntries hfound).2
    have hmax : header.entryCount ≤ maxSegmentBlockCount := not_lt.1 hmeta.2.2.1
    unfold maxSegmentBlockCount at hmax
    by_cases hrest : rest = []
    · simp only [hrest, ne_eq, not_true_eq_false, if_false]
      exact (exact_validateIndexWords (by omega) hoffset).bind fun _ _ ↦ .pure _
    · simp only [hrest, ne_eq, not_false_eq_true, if_true]
      exact .lift _

/-! ### What the checks establish -/

/-- The bytes of a block, as its index entry has them. -/
def SegmentIndexEntry.range (entry : SegmentIndexEntry) : PositionRange :=
  ⟨entry.blockOffset, entry.blockSize⟩

/-- **The blocks tile the region in front of the index**, as far as the index is concerned. -/
theorem tiles_of_validateIndexFrom {indexOffset : ℕ} {previous : Option SegmentIndexEntry}
    {offset : ℕ} {entries : List SegmentIndexEntry}
    (h : validateIndexFrom indexOffset previous offset entries = .ok ()) :
    Tiles offset (entries.map SegmentIndexEntry.range) indexOffset ∧
      ∀ e ∈ entries, e.sampleCount ≤ maxSamplesPerSegmentBlock := by
  induction entries generalizing previous offset with
  | nil =>
    rw [validateIndexFrom] at h
    split at h
    · cases h
    · rename_i hend
      exact ⟨not_not.1 hend, by simp⟩
  | cons entry entries ih =>
    rw [validateIndexFrom] at h
    split at h
    · cases h
    rename_i hentry
    split at h
    · cases h
    split at h
    · cases h
    simp only [not_or, not_not] at hentry
    obtain ⟨rfl, -, hsize, -, hcount, -⟩ := hentry
    obtain ⟨htiles, hcounts⟩ := ih h
    exact ⟨⟨rfl, Nat.pos_of_ne_zero hsize, htiles⟩,
      List.forall_mem_cons.2 ⟨not_lt.1 hcount, hcounts⟩⟩

/-- The sample counts of an accepted index add up to a word. -/
theorem sum_sampleCount_lt {bytes : Bytes} {count indexOffset : ℕ}
    {entries : List SegmentIndexEntry}
    (hcount : count ≤ maxSegmentBlockCount)
    (h : decodeIndex bytes count indexOffset = .ok entries) :
    (entries.map SegmentIndexEntry.sampleCount).sum < 2 ^ 64 := by
  obtain ⟨-, hlen, -, hvalid⟩ := of_decodeIndex h
  have hbound : ∀ n ∈ entries.map SegmentIndexEntry.sampleCount, n ≤ maxSamplesPerSegmentBlock := by
    rw [List.forall_mem_map]
    exact (tiles_of_validateIndexFrom hvalid).2
  have hsum := List.sum_le_card_nsmul _ _ hbound
  rw [List.length_map, hlen, smul_eq_mul] at hsum
  unfold maxSegmentBlockCount at hcount
  unfold maxSamplesPerSegmentBlock at hsum
  omega

/-- Where something has been read, the offset is that of a file. -/
theorem offset_le_of_readFileRange {content bytes : Bytes} {offset count : ℕ}
    (h : readFileRange content offset count = .ok bytes) : offset ≤ 2 ^ 63 - 1 := by
  rw [readFileRange] at h
  split at h
  · cases h
  · rename_i hoffset
    exact not_lt.1 hoffset

/-- **The constructor does not wrap around**, on any byte string. The sum of the offset, the size of
the index and the footer is safe because the footer has been read by then: a file that is so long
that the sum could wrap around has no readable end. -/
theorem exact_openWords (path content : Bytes) :
    Exact (SegmentReader.openWords path content)
      (SegmentReader.open path (.ok content.length) (readFileRange content)) := by
  rw [SegmentReader.openWords, SegmentReader.open]
  change Exact _ (if content.length < _ then _ else _)
  refine (Exact.addAll (by decide)).bind (s := fun _ ↦ _) fun smallest hsmallest ↦ ?_
  obtain rfl := Except.ok.inj hsmallest
  refine .ite (fun _ ↦ .lift _) fun hbig ↦ (Exact.lift _).bind fun headerBytes _ ↦ ?_
  have hfooterSize : segmentFooterSize ≤ content.length := by
    simp only [List.sum_cons, segmentHeaderSize, not_lt] at hbig
    omega
  refine .sub_bind hfooterSize ((Exact.lift _).bind fun footerBytes hfooter ↦ ?_)
  have hfileSize := offset_le_of_readFileRange hfooter
  refine (Exact.lift _).bind fun header hheader ↦ (Exact.lift _).bind fun footer _ ↦ ?_
  refine .ite (fun _ ↦ .lift _) fun _ ↦ ?_
  -- the conditions on the bounds, one after the other
  simp only [ite_or]
  refine .ite (fun _ ↦ .lift _) fun _ ↦ .add_bind (by decide) (.ite (fun _ ↦ .lift _) fun _ ↦ ?_)
  refine (Exact.addAll (by decide)).bind (s := fun _ ↦ _) fun largest hlargest ↦ ?_
  obtain rfl := Except.ok.inj hlargest
  refine .ite (fun _ ↦ .lift _) fun _ ↦ .ite (fun _ ↦ .lift _) fun hoffset ↦ ?_
  refine .sub_bind (not_lt.1 hoffset) (.ite (fun _ ↦ .lift _) fun hroom ↦ ?_)
  have hsum : header.indexOffset + [header.indexSize, segmentFooterSize].sum < 2 ^ 64 := by
    simp only [List.sum_cons, List.sum_nil, segmentFooterSize] at hfileSize ⊢
    omega
  refine (Exact.addAll hsum).bind (s := fun _ ↦ _) fun expected hexpected ↦ ?_
  obtain rfl := Except.ok.inj hexpected
  rw [List.sum_cons, List.sum_singleton, ← Nat.add_assoc]
  refine .ite (fun _ ↦ .lift _) fun _ ↦ (Exact.lift _).bind fun indexBytes _ ↦ ?_
  refine (exact_decodeIndexWords _ _ (by omega)).bind fun index hindex ↦ ?_
  have hcounts := sum_sampleCount_lt (of_decodeHeader hheader).2.2 hindex
  refine (Exact.addAll (by rwa [Nat.zero_add])).bind (s := fun _ ↦ _) fun count hcount ↦ ?_
  obtain rfl := Except.ok.inj hcount
  rw [Nat.zero_add]
  exact .pure _

/-- The parts of a segment file: the header, the blocks, the index and the footer. -/
def SegmentReader.parts (reader : SegmentReader) (header : SegmentEnvelope) : List PositionRange :=
  ⟨0, segmentHeaderSize⟩ :: reader.index.map SegmentIndexEntry.range ++
    [⟨header.indexOffset, header.indexSize⟩,
      ⟨reader.fileSize - segmentFooterSize, segmentFooterSize⟩]

/-- **An opened segment tiles its file.** On no byte string does an addition or subtraction of the
constructor, of `decode_index` or of `validate_index` wrap around; and on every byte string that
opens, the header, the blocks as the index has them, the index and the footer are a tiling of the
file, and the header and the footer both count the entries of the index. -/
theorem segment_tiles_file (path content : Bytes) :
    Exact (SegmentReader.openWords path content)
        (SegmentReader.open path (.ok content.length) (readFileRange content)) ∧
      ∀ reader, SegmentReader.open path (.ok content.length : Except Error ℕ)
          (readFileRange content) = .ok reader →
        ∃ header footer, decodeHeader (content.take segmentHeaderSize) = .ok header ∧
          decodeFooter (content.drop (content.length - segmentFooterSize)) = .ok footer ∧
          decodeIndex ((content.drop header.indexOffset).take header.indexSize) header.blockCount
            header.indexOffset = .ok reader.index ∧
          Tiling (reader.parts header) content.length ∧
          reader.index.length = header.blockCount ∧ reader.index.length = footer.blockCount := by
  refine ⟨exact_openWords path content, fun reader hopen ↦ ?_⟩
  obtain ⟨_, header, hsize, hopened⟩ := SegmentReader.of_open hopen
  obtain rfl := Except.ok.inj hsize
  obtain ⟨headerBytes, hheader, hheader'⟩ := hopened.header
  obtain ⟨footerBytes, hfooter, hfooter'⟩ := hopened.footer
  obtain ⟨indexBytes, hindex, hindex'⟩ := hopened.index
  have hlarge := hopened.large
  have hend := hopened.size_eq
  have hfileSize := hopened.fileSize_eq
  obtain ⟨-, hcount, -, hvalid⟩ := of_decodeIndex hindex'
  obtain ⟨rfl, -⟩ := of_readFileRange hheader
  obtain ⟨rfl, -⟩ := of_readFileRange hfooter
  obtain ⟨rfl, -⟩ := of_readFileRange hindex
  rw [List.take_of_length_le (by rw [List.length_drop]; omega)] at hfooter'
  refine ⟨header, header, hheader', hfooter', hindex', Tiles.tiling ?_, hcount, hcount⟩
  rw [SegmentReader.parts, hfileSize]
  -- the running offset of `validate_index`, continued over the index and the footer
  have hblocks := (tiles_of_validateIndexFrom hvalid).1
  have hindexSize : 0 < header.indexSize := Nat.lt_of_lt_of_le (by decide) hopened.index_ge
  have hrest : Tiles header.indexOffset [⟨header.indexOffset, header.indexSize⟩,
      ⟨content.length - segmentFooterSize, segmentFooterSize⟩] content.length := by
    have hfooterSize : 0 < segmentFooterSize := by decide
    refine ⟨rfl, hindexSize, ?_, hfooterSize, ?_⟩
    · show content.length - segmentFooterSize = header.indexOffset + header.indexSize
      omega
    · show content.length - segmentFooterSize + segmentFooterSize = content.length
      omega
  have hheaderTile : Tiles 0 [⟨0, segmentHeaderSize⟩] segmentHeaderSize := ⟨rfl, by decide, rfl⟩
  exact (hheaderTile.append hblocks).append hrest

/-- Three blocks of two series. -/
theorem segment_tiles_file_storedBlocks :
    ∃ header, decodeHeader ((segmentBytes storedBlocks).take segmentHeaderSize) = .ok header ∧
      Tiling ((SegmentReader.of [] storedBlocks).parts header) (segmentBytes storedBlocks).length ∧
      header.blockCount = 3 := by
  obtain ⟨header, _, hheader, -, -, htiling, hcount, -⟩ :=
    (segment_tiles_file [] (segmentBytes storedBlocks)).2 _
      (open_segmentBytes segmentAccepts_storedBlocks [])
  exact ⟨header, hheader, htiling, hcount.symm⟩

end ChronoStore
