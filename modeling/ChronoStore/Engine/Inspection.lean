import ChronoStore.Codec.SegmentFormat
import ChronoStore.Codec.WalReplay
import ChronoStore.Engine.Layers

/-!
# Reading a directory of any content

What the reading programs of the engine compute when nothing at all is known about the files. Each
is related to a pure function of the directory — `loadManifestIn`, `openSegmentsIn`, `recoverIn` for
recovery, and one for each query — and the pure functions are then examined in three ways: which
names they look at, so that two directories that agree there give the same result; which exceptions
they throw; and which ranges of which files they read.
-/

namespace ChronoStore

open FaultyDisk

/-- The exceptions that say that a file is not one the store has written. -/
def Error.IsFormat : Error → Prop
  | .manifestFormatError _ => True
  | .segmentFormatError _ => True
  | .walFormatError _ _ => True
  | _ => False

/-! ### Pure instances -/

/-- `file_size_bytes` on what a name stands for. -/
def sizeIn (content : Option Bytes) : Except Error ℕ :=
  match content with
  | none => .error (.systemError "failed to inspect file size")
  | some content => .ok content.length

/-- `read_file_bytes` on what a name stands for. -/
def readIn (content : Option Bytes) (offset count : ℕ) : Except Error Bytes :=
  match content with
  | none => .error (.runtimeError "failed to open file")
  | some content => readFileRange content offset count

def loadManifestIn (f : Directory) : Except Error ManifestState :=
  match f.find? manifestName with
  | none => .ok {}
  | some content =>
    if content.length > maxManifestPayloadSize + manifestHeaderSize + manifestChecksumSize then
      rejectManifest "manifest file is too large"
    else decodeManifest content

def openSegmentIn (f : Directory) (name : Bytes) : Except Error SegmentReader :=
  SegmentReader.open name (sizeIn (f.find? (cString name))) (readIn (f.find? (cString name)))

def openSegmentsIn (f : Directory) (names : List Bytes) : Except Error (List SegmentReader × ℕ) :=
  names.foldlM (fun (segments, physical) filename ↦ do
    let reader ← openSegmentIn f filename
    return (segments ++ [reader], addU64 physical reader.sampleCount)) ([], 0)

def getIn (f : Directory) (series : SeriesKey) (t : Timestamp) :
    List SegmentReader → Except Error (Option Sample)
  | [] => return none
  | segment :: older => do
    let found ← segment.get (readIn (f.find? (cString segment.path))) series t
    if found.isSome then return found else getIn f series t older

def latestIn (f : Directory) (segments : List SegmentReader) (series : SeriesKey) :
    Except Error (Option Sample) :=
  segments.foldlM (fun best segment ↦ do
    let candidate ← segment.latest (readIn (f.find? (cString segment.path))) series
    return StorageEngine.later candidate best) none

def rangeIn (f : Directory) (segments : List SegmentReader) (series : SeriesKey)
    (start stop : Timestamp) : Except Error SamplesByTimestamp :=
  segments.foldlM (fun merged segment ↦ do
    let samples ← segment.range (readIn (f.find? (cString segment.path))) series start stop
    return StorageEngine.overlay merged samples) OrderedMap.empty

def containsIn (f : Directory) (memtable : MemTable) (segments : List SegmentReader)
    (series : SeriesKey) (t : Timestamp) : Except Error Bool :=
  if (memtable.get series t).isSome then pure true
  else Option.isSome <$> getIn f series t segments.reverse

def replayRecordIn (f : Directory) (segments : List SegmentReader) (acc : MemTable × ℕ)
    (record : WalPutRecord) : Except Error (MemTable × ℕ) := do
  let alreadyExists ← containsIn f acc.1 segments record.series record.sample.timestamp
  return (acc.1.put record.series record.sample, if alreadyExists then acc.2 else addU64 acc.2 1)

/-- The replay of a log, and the one exception that its repair may throw on purpose. -/
def replayIn (f : Directory) (segments : List SegmentReader) (content : Bytes)
    (acc : MemTable × ℕ) : Except Error ((MemTable × ℕ) × WalReplayResult) := do
  let (acc, result) ← replayStream walReadChunkSize (pure ())
    (replayRecordIn f segments) content acc
  if result.hadIncompleteTail = true ∧
      result.incompleteTailBytes > 2 ^ 64 - 1 - result.validBytes then
    .error (.overflowError "recovered WAL size would overflow")
  else return (acc, result)

/-- The directory without the names that recovery removes. -/
def cleaned (live : List Bytes) (f : Directory) : Directory := f.without (isObsolete live)

/-- What recovery computes from a directory. The log is replayed over what the clean-up has left. -/
def recoverIn (f : Directory) : Except Error RecoveryState := do
  let manifest ← loadManifestIn f
  let (segments, physicalSegmentSamples) ← openSegmentsIn f manifest.segmentFiles
  if manifest.logicalSampleCount > physicalSegmentSamples ∨
      segments.isEmpty = true ∧ manifest.logicalSampleCount ≠ 0 then
    rejectManifest "manifest logical sample count is inconsistent"
  else do
    match f.find? walName with
    | none => return ⟨.empty, manifest, segments, manifest.logicalSampleCount, 0⟩
    | some content =>
      let ((memtable, count), result) ← replayIn (cleaned manifest.segmentFiles f) segments content
        (MemTable.empty, manifest.logicalSampleCount)
      return ⟨memtable, manifest, segments, count, result.validBytes⟩

/-! ### The programs compute them -/

section Reads

variable {σ : Type} {S : List Event} {f : Directory}

/-- In a directory that is known as a whole, a program that reads gives what the function on
directories says. -/
theorem reads_fileSizeBytes_in (name : Bytes) : Reads S Error.IsIo (fun g ↦ g = f)
    (fileSizeBytes name : Prog σ ℕ) (sizeIn (f.find? (cString name))) := by
  refine (Reads.lookup (c := f.find? (cString name)) trivial (fun g hg ↦ hg ▸ rfl)).bind
    (g := fun _ ↦ sizeIn (f.find? (cString name))) fun content hc ↦ ?_
  obtain rfl := Except.ok.inj hc
  cases f.find? (cString name) with
  | none => exact Reads.throw _
  | some content => exact Reads.pure _

theorem reads_readFileBytes_in (name : Bytes) (offset count : ℕ) :
    Reads S Error.IsIo (fun g ↦ g = f) (readFileBytes name offset count : Prog σ Bytes)
      (readIn (f.find? (cString name)) offset count) := by
  refine (Reads.lookup (c := f.find? (cString name)) trivial (fun g hg ↦ hg ▸ rfl)).bind
    (g := fun _ ↦ readIn (f.find? (cString name)) offset count) fun content hc ↦ ?_
  obtain rfl := Except.ok.inj hc
  cases f.find? (cString name) with
  | none => exact Reads.throw _
  | some content =>
    exact (Reads.probe trivial).bind (g := fun _ ↦ readFileRange content offset count) fun _ _ ↦
      Reads.ofExcept _

theorem reads_loadManifest_in : Reads S Error.IsIo (fun g ↦ g = f)
    (loadManifest : Prog σ ManifestState) (loadManifestIn f) := by
  refine (Reads.lookup (c := f.find? manifestName) trivial (fun g hg ↦ hg ▸ rfl)).bind
    (g := fun _ ↦ loadManifestIn f) fun content hc ↦ ?_
  obtain rfl := Except.ok.inj hc
  cases hm : f.find? manifestName with
  | none =>
    rw [loadManifestIn, hm]
    exact Reads.pure _
  | some content =>
    have hsize := reads_fileSizeBytes_in (σ := σ) (S := S) (f := f) manifestName
    have hread := fun count ↦
      reads_readFileBytes_in (σ := σ) (S := S) (f := f) manifestName 0 count
    rw [cString_manifestName, hm] at hsize
    simp only [cString_manifestName, hm] at hread
    rw [loadManifestIn, hm]
    refine hsize.bind (g := fun size ↦ if size > _ then _ else _) fun size hs ↦ ?_
    obtain rfl := Except.ok.inj hs
    refine Reads.ite (fun _ ↦ Reads.throw _) fun hsmall ↦ ?_
    have hall : readIn (some content) 0 content.length = .ok content := by
      unfold maxManifestPayloadSize manifestHeaderSize manifestChecksumSize at hsmall
      rw [readIn, readFileRange, if_neg (by omega), if_neg (by omega), if_neg (by omega),
        List.drop_zero, List.take_length]
    have := hread content.length
    rw [hall] at this
    refine this.bind (g := fun _ ↦ decodeManifest content) fun bytes hb ↦ ?_
    obtain rfl := Except.ok.inj hb
    exact Reads.ofExcept _

theorem reads_openSegment_in (name : Bytes) : Reads S Error.IsIo (fun g ↦ g = f)
    (openSegment name : Prog σ SegmentReader) (openSegmentIn f name) :=
  reads_open (reads_readFileBytes_in name) (reads_fileSizeBytes_in name) name

theorem reads_openSegments_in (names : List Bytes) : Reads S Error.IsIo (fun g ↦ g = f)
    (openSegments names : Prog σ (List SegmentReader × ℕ)) (openSegmentsIn f names) :=
  Reads.foldlM (fun _ name _ ↦ (reads_openSegment_in name).bind fun _ _ ↦ Reads.pure _) _

theorem reads_getInSegments_in (series : SeriesKey) (t : Timestamp)
    (segments : List SegmentReader) : Reads S Error.IsIo (fun g ↦ g = f)
      (StorageEngine.getInSegments series t segments : Prog σ (Option Sample))
      (getIn f series t segments) := by
  induction segments with
  | nil => exact Reads.pure none
  | cons segment older ih =>
    refine (reads_get (reads_readFileBytes_in segment.path) segment series t).bind fun found _ ↦ ?_
    exact Reads.ite (fun _ ↦ Reads.pure _) fun _ ↦ ih

theorem reads_containsAnywhere_in (memtable : MemTable) (segments : List SegmentReader)
    (series : SeriesKey) (t : Timestamp) : Reads S Error.IsIo (fun g ↦ g = f)
      (containsAnywhere memtable segments series t : Prog σ Bool)
      (containsIn f memtable segments series t) := by
  refine Reads.ite (fun _ ↦ Reads.pure _) fun _ ↦ ?_
  rw [containsInSegments_eq]
  exact (reads_getInSegments_in series t _).map

theorem reads_latestInSegments_in (segments : List SegmentReader) (series : SeriesKey) :
    Reads S Error.IsIo (fun g ↦ g = f) (segments.foldlM (fun best segment ↦ do
      let candidate ← segment.latest (readFileBytes segment.path) series
      return StorageEngine.later candidate best) none : Prog σ (Option Sample))
      (latestIn f segments series) :=
  Reads.foldlM (fun _ segment _ ↦ (reads_latest (reads_readFileBytes_in segment.path) segment
    series).bind fun _ _ ↦ Reads.pure _) _

theorem reads_rangeInSegments_in (segments : List SegmentReader) (series : SeriesKey)
    (start stop : Timestamp) :
    Reads S Error.IsIo (fun g ↦ g = f) (segments.foldlM (fun merged segment ↦ do
      let samples ← segment.range (readFileBytes segment.path) series start stop
      return StorageEngine.overlay merged samples) OrderedMap.empty : Prog σ SamplesByTimestamp)
      (rangeIn f segments series start stop) :=
  Reads.foldlM (fun _ segment _ ↦ (reads_range (reads_readFileBytes_in segment.path) segment
    series start stop).bind fun _ _ ↦ Reads.pure _) _

theorem reads_replayRecord_in (segments : List SegmentReader) (acc : MemTable × ℕ)
    (record : WalPutRecord) : Reads S Error.IsIo (fun g ↦ g = f)
      (replayRecord segments acc record : Prog σ (MemTable × ℕ))
      (replayRecordIn f segments acc record) :=
  (reads_containsAnywhere_in acc.1 segments _ _).bind fun _ _ ↦ Reads.pure _

end Reads

/-! ### Which exceptions a segment throws -/

/-- A part that lies in a file of a possible size is read. -/
theorem readFileRange_of_le {content : Bytes} (hsize : content.length < 2 ^ 63) (offset count : ℕ)
    (h : offset + count ≤ content.length) :
    readFileRange content offset count = .ok ((content.drop offset).take count) := by
  rw [readFileRange, if_neg (by omega), if_neg (by omega), if_neg (by omega)]

/-- A block that does not agree with its entry is refused with a format error. -/
theorem checkBlock_formatErrorsOnly (entry : SegmentIndexEntry) (bytes : Bytes) :
    FormatErrorsOnly (checkBlock entry bytes) := by
  rw [checkBlock]
  split
  · split
    · exact formatErrorsOnly_reject _
    · exact formatErrorsOnly_ok _
  · exact formatErrorsOnly_reject _

/-- The blocks that the index of the reader names lie within the file. -/
structure Fits (content : Bytes) (reader : SegmentReader) : Prop where
  size_lt : content.length < 2 ^ 63
  bounds : ∀ entry ∈ reader.index, entry.blockOffset + entry.blockSize ≤ content.length

/-- The checks of the index keep every block in front of it. -/
theorem bounds_of_validateIndexFrom {indexOffset offset : ℕ} {previous : Option SegmentIndexEntry}
    {entries : List SegmentIndexEntry}
    (h : validateIndexFrom indexOffset previous offset entries = .ok ()) :
    ∀ entry ∈ entries, entry.blockOffset + entry.blockSize ≤ indexOffset := by
  induction entries generalizing previous offset with
  | nil => simp
  | cons entry entries ih =>
    rw [validateIndexFrom] at h
    split at h
    · cases h
    rename_i hentry
    split at h
    · cases h
    rename_i hsize
    split at h
    · cases h
    simp only [not_or, not_lt] at hentry
    refine List.forall_mem_cons.2 ⟨by omega, ih h⟩

section AnySegment

variable {content path : Bytes} {reader : SegmentReader} {series : SeriesKey}

/-- **A file of any content opens or is rejected.** -/
theorem open_formatErrorsOnly (hsize : content.length < 2 ^ 63) (path : Bytes) : FormatErrorsOnly
    (SegmentReader.open path (.ok content.length : Except Error ℕ) (readFileRange content)) := by
  refine (formatErrorsOnly_ok _).bind fun fileSize hfs ↦ ?_
  obtain rfl := Except.ok.inj hfs
  split
  · exact formatErrorsOnly_reject _
  rename_i hbig
  rw [readFileRange_of_le hsize 0 _ (by omega),
    readFileRange_of_le hsize _ segmentFooterSize (by omega)]
  refine (formatErrorsOnly_ok _).bind fun headerBytes _ ↦
    (formatErrorsOnly_ok _).bind fun footerBytes _ ↦ ?_
  refine (decodeHeader_formatErrorsOnly _).bind fun header _ ↦
    (decodeFooter_formatErrorsOnly _).bind fun footer _ ↦ ?_
  split
  · exact formatErrorsOnly_reject _
  split
  · exact formatErrorsOnly_reject _
  rename_i hbounds
  simp only [not_or, not_not, not_lt] at hbounds
  rw [readFileRange_of_le hsize header.indexOffset _ (by omega)]
  exact (formatErrorsOnly_ok _).bind fun indexBytes _ ↦
    (decodeIndex_formatErrorsOnly _ _ _).bind fun _ _ ↦ formatErrorsOnly_ok _

/-- **A reader fits the file it was opened on.** -/
theorem fits_of_open (hsize : content.length < 2 ^ 63)
    (h : SegmentReader.open path (.ok content.length : Except Error ℕ) (readFileRange content) =
      .ok reader) : Fits content reader := by
  obtain ⟨_, header, hfs, hopened⟩ := SegmentReader.of_open h
  obtain rfl := Except.ok.inj hfs
  obtain ⟨indexBytes, -, hindex⟩ := hopened.index
  have hend := hopened.size_eq
  refine ⟨hsize, fun entry hentry ↦ ?_⟩
  have := bounds_of_validateIndexFrom (of_decodeIndex hindex).2.2.2 entry hentry
  omega

namespace Fits

/-- In a file that the index fits, a block is read or refused with a format error. -/
theorem readBlock (h : Fits content reader) {entry : SegmentIndexEntry}
    (hentry : entry ∈ reader.index) :
    FormatErrorsOnly (SegmentReader.readBlock (readFileRange content) entry) := by
  rw [SegmentReader.readBlock, readFileRange_of_le h.size_lt _ _ (h.bounds entry hentry)]
  exact (formatErrorsOnly_ok _).bind fun _ _ ↦ checkBlock_formatErrorsOnly _ _

theorem latest (h : Fits content reader) (series : SeriesKey) :
    FormatErrorsOnly (reader.latest (readFileRange content) series) := by
  rw [SegmentReader.latest]
  split
  · exact formatErrorsOnly_ok _
  · rename_i entry hlast
    split
    · exact formatErrorsOnly_ok _
    · have hmem : entry ∈ reader.index :=
        (List.takeWhile_prefix _).subset (List.mem_of_getLast? hlast)
      exact (h.readBlock hmem).bind fun _ _ ↦ formatErrorsOnly_ok _

theorem getFrom (h : Fits content reader) (t : Timestamp) {entries : List SegmentIndexEntry}
    (hentries : ∀ entry ∈ entries, entry ∈ reader.index) :
    FormatErrorsOnly (SegmentReader.getFrom (readFileRange content) series t entries) := by
  induction entries with
  | nil => exact formatErrorsOnly_ok _
  | cons entry entries ih =>
    rw [SegmentReader.getFrom]
    split
    · exact formatErrorsOnly_ok _
    split
    · exact formatErrorsOnly_ok _
    split
    · exact ih fun e he ↦ hentries e (List.mem_cons_of_mem _ he)
    refine (h.readBlock (hentries entry List.mem_cons_self)).bind fun block _ ↦ ?_
    split
    · exact formatErrorsOnly_ok _
    split
    · exact formatErrorsOnly_ok _
    · exact formatErrorsOnly_ok _

theorem get (h : Fits content reader) (series : SeriesKey) (t : Timestamp) :
    FormatErrorsOnly (reader.get (readFileRange content) series t) :=
  h.getFrom t fun _ hentry ↦ (List.dropWhile_suffix _).subset hentry

theorem rangeFrom (h : Fits content reader) (start stop : Timestamp)
    {entries : List SegmentIndexEntry} (hentries : ∀ entry ∈ entries, entry ∈ reader.index)
    (result : List Sample) : FormatErrorsOnly
      (SegmentReader.rangeFrom (readFileRange content) series start stop entries result) := by
  induction entries generalizing result with
  | nil => exact formatErrorsOnly_ok _
  | cons entry entries ih =>
    have htail := ih fun e he ↦ hentries e (List.mem_cons_of_mem _ he)
    rw [SegmentReader.rangeFrom]
    split
    · exact formatErrorsOnly_ok _
    split
    · exact htail result
    split
    · exact formatErrorsOnly_ok _
    · exact (h.readBlock (hentries entry List.mem_cons_self)).bind fun _ _ ↦ htail _

theorem range (h : Fits content reader) (series : SeriesKey) {start stop : Timestamp}
    (hle : start ≤ stop) :
    FormatErrorsOnly (reader.range (readFileRange content) series start stop) := by
  rw [SegmentReader.range, if_neg (not_lt.2 hle)]
  split
  · exact formatErrorsOnly_ok _
  · exact h.rangeFrom start stop (fun _ hentry ↦ (List.dropWhile_suffix _).subset hentry) []

end Fits

end AnySegment

/-! ### Which exceptions a directory throws -/

/-- Every reader fits the file of its name. -/
def AllFit (f : Directory) (segments : List SegmentReader) : Prop :=
  ∀ segment ∈ segments, ∃ content, f.find? (cString segment.path) = some content ∧
    Fits content segment

section AnyDirectory

variable {f : Directory} {segments : List SegmentReader}

/-- If all indexes fit their files, the segments answer `get` or refuse with a format error. -/
theorem AllFit.get (h : AllFit f segments) (series : SeriesKey) (t : Timestamp) :
    FormatErrorsOnly (getIn f series t segments) := by
  induction segments with
  | nil => exact formatErrorsOnly_ok _
  | cons segment older ih =>
    obtain ⟨content, hfile, hfits⟩ := h segment List.mem_cons_self
    rw [getIn, hfile]
    refine (hfits.get series t).bind fun found _ ↦ ?_
    split
    · exact formatErrorsOnly_ok _
    · exact ih fun s hs ↦ h s (List.mem_cons_of_mem _ hs)

/-- A loop whose body throws nothing else. -/
theorem foldlM_formatErrorsOnly {α β : Type} {step : β → α → Except Error β} {l : List α}
    (h : ∀ b, ∀ a ∈ l, FormatErrorsOnly (step b a)) (b : β) :
    FormatErrorsOnly (l.foldlM step b) := by
  induction l generalizing b with
  | nil => exact formatErrorsOnly_ok b
  | cons a l ih =>
    rw [List.foldlM_cons]
    exact (h b a List.mem_cons_self).bind fun b' _ ↦
      ih (fun b a ha ↦ h b a (List.mem_cons_of_mem _ ha)) b'

theorem AllFit.latest (h : AllFit f segments) (series : SeriesKey) :
    FormatErrorsOnly (latestIn f segments series) := by
  refine foldlM_formatErrorsOnly (fun best segment hsegment ↦ ?_) none
  obtain ⟨content, hfile, hfits⟩ := h segment hsegment
  rw [hfile]
  exact (hfits.latest series).bind fun _ _ ↦ formatErrorsOnly_ok _

theorem AllFit.range (h : AllFit f segments) (series : SeriesKey) {start stop : Timestamp}
    (hle : start ≤ stop) : FormatErrorsOnly (rangeIn f segments series start stop) := by
  refine foldlM_formatErrorsOnly (fun merged segment hsegment ↦ ?_) _
  obtain ⟨content, hfile, hfits⟩ := h segment hsegment
  rw [hfile]
  exact (hfits.range series hle).bind fun _ _ ↦ formatErrorsOnly_ok _

theorem AllFit.replayRecord (h : AllFit f segments) (acc : MemTable × ℕ) (record : WalPutRecord) :
    FormatErrorsOnly (replayRecordIn f segments acc record) := by
  have hget := AllFit.get (f := f)
    (fun s hs ↦ h s (List.mem_reverse.1 hs)) record.series record.sample.timestamp
  refine FormatErrorsOnly.bind ?_ fun _ _ ↦ formatErrorsOnly_ok _
  rw [containsIn]
  split
  · exact formatErrorsOnly_ok _
  · rw [map_eq_pure_bind]
    exact hget.bind fun _ _ ↦ formatErrorsOnly_ok _

/-- Opening segments of any content: each is rejected or fits its file. -/
theorem openSegmentIn_cases {name content : Bytes} (hfile : f.find? (cString name) = some content)
    (hsize : content.length < 2 ^ 63) : FormatErrorsOnly (openSegmentIn f name) ∧
      ∀ reader, openSegmentIn f name = .ok reader → Fits content reader := by
  rw [openSegmentIn, hfile]
  exact ⟨open_formatErrorsOnly hsize name, fun _ ↦ fits_of_open hsize⟩

end AnyDirectory

end ChronoStore
