import ChronoStore.Engine.Blocks
import ChronoStore.Engine.FileIo

/-!
# The storage engine

`storage_engine.cpp`: recovery, the four operations that write, and the queries, as programs over a
faulty disk whose state is the engine. A `catch (...)` that poisons the engine is `guarded`; a call
made outside of one, such as the existence check of `put`, is outside of it here too.

The order in which the operating system lists a directory is not known to the program, so recovery
takes it as a parameter, a `Listing`.
-/

namespace ChronoStore

open FaultyDisk

/-- The members of the engine: the table of what the log holds, the manifest that was stored last,
the readers of its segments from the oldest to the newest, the writer of the log, the counter that
is kept beside them, and the flag that a failed change of the disk leaves behind. -/
structure StorageEngine where
  memtable : MemTable
  manifest : ManifestState
  segments : List SegmentReader
  walWriter : WalWriter
  logicalSampleCount : ℕ
  failed : Bool

/-- The numbers of `stats`, read from one state of the engine. -/
structure StorageEngineStats where
  logicalSampleCount : ℕ
  memtableSampleCount : ℕ
  segmentCount : ℕ
  walSizeBytes : ℕ
deriving DecidableEq

/-- What recovery hands to the constructor; `walSize` is the length that it leaves the log with,
which the writer that is opened afterwards has to find again. -/
structure RecoveryState where
  memtable : MemTable
  manifest : ManifestState
  segments : List SegmentReader
  logicalSampleCount : ℕ
  walSize : ℕ

/-- The order in which a directory is listed: some order, and nothing else is known of it. -/
structure Listing where
  order : List Bytes → List Bytes
  perm : ∀ names, (order names).Perm names

/-- Add to a 64-bit counter. -/
def addU64 (a b : ℕ) : ℕ := (a + b) % 2 ^ 64

variable {σ : Type}

/-- `contains_in_segments`: the newest segment is asked first. -/
def containsInSegments (segments : List SegmentReader) (series : SeriesKey) (t : Timestamp) :
    Prog σ Bool :=
  search segments.reverse
where
  search : List SegmentReader → Prog σ Bool
    | [] => return false
    | segment :: older => do
      let found ← segment.get (readFileBytes segment.path) series t
      if found.isSome then return true else search older

/-- The existence check of recovery and of `put`: the table is asked before the segments. -/
def containsAnywhere (memtable : MemTable) (segments : List SegmentReader) (series : SeriesKey)
    (t : Timestamp) : Prog σ Bool :=
  if (memtable.get series t).isSome then pure true else containsInSegments segments series t

/-! ### Recovery -/

/-- The names that recovery removes: segments that are not live, and temporary segments. -/
def isObsolete (live : List Bytes) (filename : Bytes) : Bool :=
  let orphanSegment := extension filename = ascii ".cst" &&
    (ascii "segment-").isPrefixOf filename && !live.contains filename
  let staleTemporary := (ascii "segment-").isPrefixOf filename && extension filename = ascii ".tmp"
  orphanSegment || staleTemporary

/-- The loop over the directory: a removal may fail unnoticed, moving on may not. What the directory
lists is compared with the names of the manifest as they are, not as they were handed over when the
segments were opened; and it is handed back whole, as no name of a directory holds a NUL byte. -/
def removeObsolete (listing : Listing) (live : List Bytes) : Prog σ Unit := do
  let names ← Act.list (.systemError "failed to inspect database directory")
  (listing.order names).forM fun filename ↦ do
    if isObsolete live filename then Act.tryStep (.remove filename) else pure ()
    Act.probe (.systemError "failed to inspect database directory")

/-- The loop that opens the live segments and sums up their samples. -/
def openSegments (segmentFiles : List Bytes) : Prog σ (List SegmentReader × ℕ) :=
  segmentFiles.foldlM (fun (segments, physical) filename ↦ do
    let reader ← openSegment filename
    return (segments ++ [reader], addU64 physical reader.sampleCount)) ([], 0)

/-- The callback of recovery, on the table and the counter. A record counts if neither the table of
the records before it nor a segment holds its timestamp, just as it counted when it was put. -/
def replayRecord (segments : List SegmentReader) (acc : MemTable × ℕ) (record : WalPutRecord) :
    Prog σ (MemTable × ℕ) := do
  let (memtable, count) := acc
  let alreadyExists ←
    containsAnywhere memtable segments record.series record.sample.timestamp
  return (memtable.put record.series record.sample, if alreadyExists then count else addU64 count 1)

/-- `replay_wal`: the records of the log, in their order, for as long as they are complete. A torn
record at the end is reported in the result, a record that is wrong throws. -/
def replayWal {α : Type} (replay : α → WalPutRecord → Prog σ α) (acc : α) :
    Prog σ (α × WalReplayResult) := do
  match ← Act.lookup walName (.systemError "failed to read WAL") with
  | none => Act.throw (.systemError "failed to read WAL")
  | some content =>
    replayStream walReadChunkSize (Act.probe (.systemError "failed to read WAL")) replay content acc

/-- `StorageEngine::recover`: open what the manifest names, remove the segments that it does not
name, compare its counter with the segments, and replay the log over them. A missing log is created
and synced at once; one with a torn end is cut to its last complete record, so that the writer can
append to it. Apart from that and the removals, nothing on the disk changes. -/
def recover (listing : Listing) : Prog σ RecoveryState := do
  let manifest ← loadManifest
  let (segments, physicalSegmentSamples) ← openSegments manifest.segmentFiles
  removeObsolete listing manifest.segmentFiles
  if manifest.logicalSampleCount > physicalSegmentSamples ∨
      segments.isEmpty = true ∧ manifest.logicalSampleCount ≠ 0 then
    Act.throw (.manifestFormatError "manifest logical sample count is inconsistent")
  else do
    match ← Act.lookup walName (.systemError "failed to inspect WAL") with
    | none =>
      let creator ← WalWriter.open .buffered
      creator.runHere WalWriter.sync
      return ⟨.empty, manifest, segments, manifest.logicalSampleCount, 0⟩
    | some _ =>
      let ((memtable, count), result) ← replayWal (replayRecord segments)
        (MemTable.empty, manifest.logicalSampleCount)
      repairWalTail result
      return ⟨memtable, manifest, segments, count, result.validBytes⟩

namespace StorageEngine

/-- The constructor: the writer opens the log again after recovery is done with it, and its size is
compared with the one that recovery has seen. -/
def «open» (listing : Listing) (durability : WalDurability) : Prog σ StorageEngine := do
  let recovered ← recover listing
  let walWriter ← WalWriter.open durability
  if walWriter.sizeBytes ≠ recovered.walSize then
    Act.throw (.runtimeError "WAL changed while opening storage engine")
  else
    return ⟨recovered.memtable, recovered.manifest, recovered.segments, walWriter,
      recovered.logicalSampleCount, false⟩

/-! ### Operations -/

/-- `StorageEngine::ensure_usable`: an engine whose last change of the disk failed refuses
everything. -/
def ensureUsable : Prog StorageEngine Unit := do
  if (← Act.state).failed then
    Act.throw (.runtimeError "storage engine is in a failed state; restart is required")
  else pure ()

/-- A usable engine passes the check. -/
theorem ensureUsable_bind {e : StorageEngine} (he : e.failed = false) {α : Type}
    (k : Unit → Prog StorageEngine α) (w : World Bytes UInt8) :
    (ensureUsable >>= k) (e, w) = k () (e, w) := by
  have hcheck : ensureUsable (e, w) = .ok () (e, w) := by
    show (if e.failed = true then _ else _ : Prog StorageEngine Unit) (e, w) = _
    rw [he]
    rfl
  rw [bind_apply, hcheck]

/-- Poison the engine. -/
def poison (e : StorageEngine) : StorageEngine := { e with failed := true }

/-- A `try` block whose handler poisons the engine and throws again. -/
def guarded {α : Type} (m : Prog StorageEngine α) : Prog StorageEngine α := Act.onException m poison

/-- A member function of the writer. -/
def onWriter {α : Type} (m : Prog WalWriter α) : Prog StorageEngine α :=
  Act.zoom StorageEngine.walWriter (fun w e ↦ { e with walWriter := w }) m

/-- `StorageEngine::contains`: the check that decides whether a put counts. -/
def contains (series : SeriesKey) (t : Timestamp) : Prog StorageEngine Bool := do
  let e ← Act.state
  containsAnywhere e.memtable e.segments series t

/-- `StorageEngine::put`: the record goes to the log before the table changes, so a put that throws
has not been seen by any query, and an engine that has it in its table finds it in the log again.
The check for an older sample reads segments and stands outside of the `try` block: if it throws,
the engine stays usable. -/
def put (series : SeriesKey) (sample : Sample) : Prog StorageEngine Unit := do
  ensureUsable
  let alreadyExists ← contains series sample.timestamp
  guarded do
    onWriter (WalWriter.append ⟨series, sample⟩)
    Act.update fun e ↦ { e with memtable := e.memtable.put series sample }
    if alreadyExists then pure ()
    else Act.update fun e ↦ { e with logicalSampleCount := addU64 e.logicalSampleCount 1 }

/-- `StorageEngine::sync`: whatever the durability of the writer is, the log is flushed to the disk.
-/
def sync : Prog StorageEngine Unit := do
  ensureUsable
  guarded (onWriter WalWriter.sync)

/-- `StorageEngine::make_memtable_blocks`: the samples of the table, cut into blocks. -/
def makeMemtableBlocks (e : StorageEngine) : Except Error (List SegmentBlock) :=
  blocksFromSnapshots e.memtable.snapshot

/-- `StorageEngine::next_segment_filename`: the generation of the manifest, plus one, is the number
of the file, so a name is never used again. -/
def nextSegmentFilename (e : StorageEngine) : Except Error Bytes :=
  if e.manifest.generation = 2 ^ 64 - 1 then
    .error (.overflowError "segment generation is exhausted")
  else .ok (segmentFilename (e.manifest.generation + 1))

/-- The part of `flush` inside its `try` block. The segment is on the disk and has been opened
before the manifest names it; storing the manifest is the moment at which the flush takes place, and
a log that is not emptied after it only repeats what the segment holds. -/
def publishMemtable : Prog StorageEngine Unit := do
  let e ← Act.state
  let blocks ← Act.ofExcept e.makeMemtableBlocks
  let filename ← Act.ofExcept e.nextSegmentFilename
  let _ ← writeSegmentFile filename blocks
  let reader ← openSegment filename
  let next : ManifestState := ⟨addU64 e.manifest.generation 1, e.logicalSampleCount,
    e.manifest.segmentFiles ++ [filename]⟩
  storeManifest next
  Act.update fun e ↦ { e with segments := e.segments ++ [reader], manifest := next }
  onWriter WalWriter.reset
  Act.update fun e ↦ { e with memtable := .empty }

/-- `StorageEngine::flush`: the table moves to a segment of its own and the log is emptied. With an
empty table no segment is written, and the log is synced instead. -/
def flush : Prog StorageEngine Unit := do
  ensureUsable
  if (← Act.state).memtable.isEmpty then guarded (onWriter WalWriter.sync)
  else guarded publishMemtable

/-- The merge loop of compaction: a later segment overwrites an earlier one. -/
def mergeSegments (segments : List SegmentReader) : Prog σ SeriesMap :=
  segments.foldlM (fun merged segment ↦ do
    let blocks ← segment.blocks (readFileBytes segment.path)
    return blocks.foldl mergeBlock merged) .empty

/-- The number of samples of snapshots, in a 64-bit counter. -/
def countSnapshots (snapshots : List MemTableSeriesSnapshot) : ℕ :=
  snapshots.foldl (fun count s ↦ addU64 count s.samples.length) 0

/-- The part of `compact` inside its `try` block. As in a flush, storing the manifest is the moment
at which the compaction takes place. The old files are removed after it, and a file that cannot be
removed is left to the next recovery. -/
def publishCompacted : Prog StorageEngine Unit := do
  let e ← Act.state
  let merged ← mergeSegments e.segments
  let snapshots := merged.snapshot
  if countSnapshots snapshots ≠ e.manifest.logicalSampleCount then
    Act.throw (.segmentFormatError "compacted segment count disagrees with manifest")
  else do
    let blocks ← Act.ofExcept (blocksFromSnapshots snapshots)
    let filename ← Act.ofExcept e.nextSegmentFilename
    let _ ← writeSegmentFile filename blocks
    let reader ← openSegment filename
    let next : ManifestState := ⟨addU64 e.manifest.generation 1, e.manifest.logicalSampleCount,
      [filename]⟩
    let obsolete := e.manifest.segmentFiles
    storeManifest next
    Act.update fun e ↦ { e with segments := [reader], manifest := next }
    obsolete.forM fun old ↦ Act.tryStep (.remove (cString old))

/-- `StorageEngine::compact`: all segments become one, and table and log stay as they are. One
segment alone is not written again. -/
def compact : Prog StorageEngine Unit := do
  ensureUsable
  if (← Act.state).segments.length ≤ 1 then pure () else guarded publishCompacted

/-! ### Queries -/

/-- Is the candidate at least as late as the best sample so far? -/
def later (candidate best : Option Sample) : Option Sample :=
  match candidate, best with
  | some c, some b => if b.timestamp ≤ c.timestamp then some c else some b
  | some c, none => some c
  | none, best => best

/-- `StorageEngine::latest`: the segments from the oldest to the newest and then the table, each of
which replaces a sample that is not later than its own. -/
def latest (series : SeriesKey) : Prog StorageEngine (Option Sample) := do
  ensureUsable
  let e ← Act.state
  let result ← e.segments.foldlM (fun best segment ↦ do
    let candidate ← segment.latest (readFileBytes segment.path) series
    return later candidate best) none
  return later (e.memtable.latest series) result

/-- The search of `get` in the segments, the newest first. -/
def getInSegments (series : SeriesKey) (t : Timestamp) : List SegmentReader → Prog σ (Option Sample)
  | [] => return none
  | segment :: older => do
    let found ← segment.get (readFileBytes segment.path) series t
    if found.isSome then return found else getInSegments series t older

/-- `StorageEngine::get`: the table and then the segments, the newest first; the first sample found
is the answer. -/
def get (series : SeriesKey) (t : Timestamp) : Prog StorageEngine (Option Sample) := do
  ensureUsable
  let e ← Act.state
  if (e.memtable.get series t).isSome then return e.memtable.get series t
  else getInSegments series t e.segments.reverse

/-- Write samples into a map. -/
def overlay (merged : SamplesByTimestamp) (samples : List Sample) : SamplesByTimestamp :=
  samples.foldl (fun acc x ↦ acc.insert x.timestamp x.value) merged

/-- `StorageEngine::range`: the samples of the segments and then of the table are written into one
map, whose order is that of the answer. The bounds are compared before a segment is read. -/
def range (series : SeriesKey) (start stop : Timestamp) : Prog StorageEngine (List Sample) := do
  ensureUsable
  if stop < start then Act.throw (.invalidArgument "range end must not precede range start") else do
  let e ← Act.state
  let merged ← e.segments.foldlM (fun merged segment ↦ do
    let samples ← segment.range (readFileBytes segment.path) series start stop
    return overlay merged samples) OrderedMap.empty
  let recent ← Act.ofExcept (e.memtable.range series start stop)
  return (overlay merged recent).entries.map sampleOf

/-- Insert keys into a set. -/
def uniqueSeries (set : OrderedMap SeriesKey Unit) (keys : List SeriesKey) :
    OrderedMap SeriesKey Unit :=
  keys.foldl (fun acc s ↦ acc.insert s ()) set

/-- `StorageEngine::series`: the index of every segment and the keys of the table, as one ordered
set; no segment is read for it. -/
def series : Prog StorageEngine (List SeriesKey) := do
  ensureUsable
  let e ← Act.state
  let fromSegments := e.segments.foldl
    (fun set segment ↦ uniqueSeries set (segment.index.map SegmentIndexEntry.series)) .empty
  return (uniqueSeries fromSegments e.memtable.seriesKeys).keys

/-- `StorageEngine::sample_count`; `std::size_t` is as wide as the counter. -/
def sampleCount : Prog StorageEngine ℕ := do
  ensureUsable
  let e ← Act.state
  if e.logicalSampleCount > 2 ^ 64 - 1 then
    Act.throw (.overflowError "logical sample count exceeds size_t")
  else return e.logicalSampleCount

/-- `StorageEngine::memtable_sample_count`: what the next flush would write. -/
def memtableSampleCount : Prog StorageEngine ℕ := do
  ensureUsable
  return (← Act.state).memtable.sampleCount

/-- `StorageEngine::empty`: the counter is asked, not the table and the segments. -/
def empty : Prog StorageEngine Bool := do
  ensureUsable
  return (← Act.state).logicalSampleCount = 0

/-- `StorageEngine::segment_count`: the readers that are open. -/
def segmentCount : Prog StorageEngine ℕ := do
  ensureUsable
  return (← Act.state).segments.length

/-- `StorageEngine::wal_size_bytes`: the writer's counter; the file is not asked. -/
def walSizeBytes : Prog StorageEngine ℕ := do
  ensureUsable
  return (← Act.state).walWriter.sizeBytes

/-- `StorageEngine::stats`: the counters at one moment. -/
def stats : Prog StorageEngine StorageEngineStats := do
  ensureUsable
  let e ← Act.state
  if e.logicalSampleCount > 2 ^ 64 - 1 then
    Act.throw (.overflowError "logical sample count exceeds size_t")
  else
    return ⟨e.logicalSampleCount, e.memtable.sampleCount, e.segments.length, e.walWriter.sizeBytes⟩

end StorageEngine

end ChronoStore
