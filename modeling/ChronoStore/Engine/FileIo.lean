import ChronoStore.Codec.Manifest
import ChronoStore.Codec.SegmentReader
import ChronoStore.Codec.WalRecovery
import ChronoStore.Foundation.DiskLogic
import Mathlib.Data.List.TakeWhile

/-!
# File operations

`file_io.cpp`, `wal_file.cpp`, the file side of `manifest.cpp` and `segment_file.cpp`, and the
repair of the log, as programs over a faulty disk. Each call that the source makes to the operating
system is one `probe` or one `step`, with the exception it throws when the call fails.

The second half relates the programs that only read to their pure instances.
-/

namespace ChronoStore

open FaultyDisk

/-- Programs of the store that keep a state `σ`. -/
abbrev Prog (σ : Type) : Type → Type := EStateM (Stop Error) (σ × World Bytes UInt8)

/-- The files of a database directory. -/
abbrev Directory := Files Bytes UInt8

def manifestName : Bytes := ascii "MANIFEST"
def walName : Bytes := ascii "chronostore.wal"

/-- The name of the temporary file of an atomic write. -/
def temporaryName (name : Bytes) : Bytes := name ++ ascii ".tmp"

/-- What the operating system makes of a name: it is handed over by `c_str()`, and the first NUL
byte ends it. A manifest may list names that hold one; a directory does not. -/
def cString (name : Bytes) : Bytes := name.takeWhile (· ≠ 0)

/-- A name without a NUL byte is handed over whole. -/
theorem cString_eq_self {name : Bytes} (h : 0 ∉ name) : cString name = name := by
  rw [cString, List.takeWhile_eq_self_iff]
  intro c hc
  rw [decide_eq_true_eq]
  rintro rfl
  exact h hc

@[simp] theorem cString_segmentFilename (n : ℕ) : cString (segmentFilename n) = segmentFilename n :=
  cString_eq_self (notMem_segmentFilename (Or.inl (by decide)) n)

@[simp] theorem cString_manifestName : cString manifestName = manifestName := by decide

variable {σ : Type}

/-- `file_size_bytes`: a missing file is an error of the system. -/
def fileSizeBytes (name : Bytes) : Prog σ ℕ := do
  match ← Act.lookup (cString name) (.systemError "failed to inspect file size") with
  | none => Act.throw (.systemError "failed to inspect file size")
  | some content => return content.length

/-- `read_file_bytes`: a part of a file. What is missing here is a runtime error, whatever the
system has said. -/
def readFileBytes (name : Bytes) (offset count : ℕ) : Prog σ Bytes := do
  match ← Act.lookup (cString name) (.runtimeError "failed to open file") with
  | none => Act.throw (.runtimeError "failed to open file")
  | some content =>
    Act.probe (.runtimeError "failed to read complete file range")
    Act.ofExcept (readFileRange content offset count)

/-- `sync_file`: the file is opened again to be synced. -/
def syncFile (name : Bytes) : Prog σ Unit := do
  Act.probe (.systemError "failed to open file for synchronization")
  Act.step (.fsync name) (.systemError "failed to synchronize file")
  Act.probe (.systemError "failed to close file")

/-- `replace_file`: the rename, and then a sync of the directory, without which a loss of power may
undo it. The name is replaced even if the sync fails. -/
def replaceFile (temporary final : Bytes) : Prog σ Unit := do
  Act.step (.rename temporary final) (.systemError "failed to publish atomic file")
  Act.probe (.systemError "failed to open parent directory for synchronization")
  Act.step .fsyncDir (.systemError "failed to synchronize parent directory")
  Act.probe (.systemError "failed to close file")

/-- `atomic_write_file`: the bytes go to a temporary file, which is synced before it takes the name,
so the name stands for the old content or for the new one at any time. -/
def atomicWriteFile (name bytes : Bytes) : Prog σ Unit := do
  let temporary := temporaryName name
  Act.step (.createTrunc temporary) (.runtimeError "failed to open temporary file")
  if bytes.length > 2 ^ 63 - 1 then Act.throw (.runtimeError "atomic write is too large") else do
  Act.writeAll temporary bytes (.runtimeError "failed to write temporary file")
    (.runtimeError "failed to write temporary file")
  syncFile temporary
  replaceFile temporary name

/-! ### Segments and the manifest -/

/-- `write_segment_file`: the file is encoded as a whole before any of it is written. -/
def writeSegmentFile (name : Bytes) (blocks : List SegmentBlock) : Prog σ SegmentFileMetadata := do
  let (bytes, metadata) ← Act.ofExcept (encodeSegmentFile blocks)
  atomicWriteFile name bytes
  return metadata

/-- The constructor of `SegmentReader` on a file of the directory. -/
def openSegment (name : Bytes) : Prog σ SegmentReader :=
  SegmentReader.open name (fileSizeBytes name) (readFileBytes name)

/-- `load_manifest`: without a manifest the store is empty; its size is checked before it is read.
-/
def loadManifest : Prog σ ManifestState := do
  match ← Act.lookup manifestName (.systemError "failed to inspect manifest") with
  | none => return {}
  | some _ =>
    let size ← fileSizeBytes manifestName
    if size > maxManifestPayloadSize + manifestHeaderSize + manifestChecksumSize then
      Act.throw (.manifestFormatError "manifest file is too large") else do
    let bytes ← readFileBytes manifestName 0 size
    Act.ofExcept (decodeManifest bytes)

/-- `store_manifest`: the only writer of the manifest. -/
def storeManifest (state : ManifestState) : Prog σ Unit := do
  let encoded ← Act.ofExcept (encodeManifest state)
  atomicWriteFile manifestName encoded

/-! ### The log -/

inductive WalDurability
  | buffered
  | syncOnAppend
deriving DecidableEq, Repr

/-- An open log; the descriptor is the file of the directory. -/
structure WalWriter where
  durability : WalDurability
  sizeBytes : ℕ
  failed : Bool
deriving DecidableEq

namespace WalWriter

/-- The constructor. -/
def «open» (durability : WalDurability) : Prog σ WalWriter := do
  Act.openAppend walName (.systemError "failed to open WAL")
  let content ← Act.lookup walName (.systemError "failed to inspect WAL")
  return ⟨durability, (content.getD []).length, false⟩

/-- `WalWriter::ensure_usable`: the writer has a flag of its own. -/
def ensureUsable : Prog WalWriter Unit := do
  if (← Act.state).failed then Act.throw (.runtimeError "WAL writer is in a failed state")
  else pure ()

/-- What a handler of the writer does: mark it failed. -/
def fail (w : WalWriter) : WalWriter := { w with failed := true }

/-- `WalWriter::sync`: a sync that fails leaves it open what is on the disk, so the writer is done.
-/
def sync : Prog WalWriter Unit := do
  ensureUsable
  Act.onException (Act.step (.fsync walName) (.systemError "failed to synchronize WAL")) fail

/-- `WalWriter::append`: the record is encoded before the file is touched. Every partial write
counts as one step, and one that fails leaves a torn record behind and a writer that is done. -/
def append (record : WalPutRecord) : Prog WalWriter Unit := do
  ensureUsable
  let encoded ← Act.ofExcept (encodeWalRecord record)
  if encoded.length > 2 ^ 64 - 1 - (← Act.state).sizeBytes then
    Act.throw (.lengthError "WAL size would overflow")
  else
    Act.onException (do
      Act.writeAll walName encoded (.systemError "failed to append WAL")
        (.runtimeError "zero-byte write while appending WAL")
      Act.update fun w ↦ { w with sizeBytes := w.sizeBytes + encoded.length }
      if (← Act.state).durability = .syncOnAppend then sync else pure ()) fail

/-- `WalWriter::reset`: the log is cut to nothing, and synced. -/
def reset : Prog WalWriter Unit := do
  ensureUsable
  Act.onException (do
    Act.step (.truncate walName 0) (.systemError "failed to reset WAL")
    Act.step (.fsync walName) (.systemError "failed to reset WAL")) fail
  Act.update fun w ↦ { w with sizeBytes := 0 }

/-- Run a program of a writer that lives only here. -/
def runHere (writer : WalWriter) (m : Prog WalWriter Unit) : Prog σ Unit :=
  Act.zoom (fun _ ↦ writer) (fun _ s ↦ s) m

end WalWriter

/-- `repair_wal_tail`: the log is cut to the records that replay has found, if their bytes and the
tail are still all there is. Without a tail the file is not touched. -/
def repairWalTail (result : WalReplayResult) : Prog σ Unit :=
  if result.hadIncompleteTail = false then pure ()
  else if result.incompleteTailBytes > 2 ^ 64 - 1 - result.validBytes then
    Act.throw (.overflowError "recovered WAL size would overflow")
  else do
    match ← Act.lookup walName (.systemError "failed to inspect WAL before repair") with
    | none => Act.throw (.systemError "failed to inspect WAL before repair")
    | some content =>
      if content.length ≠ result.validBytes + result.incompleteTailBytes then
        Act.throw (.runtimeError "WAL changed after recovery")
      else do
        Act.step (.truncate walName result.validBytes) (.systemError "failed to truncate WAL")
        let writer ← WalWriter.open .buffered
        if writer.sizeBytes ≠ result.validBytes then
          Act.throw (.runtimeError "WAL size mismatch after repair")
        else writer.runHere WalWriter.sync

/-! ### Programs that only read -/

section Reads

variable {S : List Event} {F : Directory → Prop}

theorem reads_fileSizeBytes {name content : Bytes}
    (h : ∀ f, F f → f.find? (cString name) = some content) :
    Reads S Error.IsIo F (fileSizeBytes name : Prog σ ℕ) (.ok content.length) :=
  (Reads.lookup (c := some content) trivial h).bind (g := fun _ ↦ .ok content.length) fun a ha ↦ by
    cases ha
    exact Reads.pure _

theorem reads_readFileBytes {name content : Bytes}
    (h : ∀ f, F f → f.find? (cString name) = some content) (offset count : ℕ) :
    Reads S Error.IsIo F (readFileBytes name offset count : Prog σ Bytes)
      (readFileRange content offset count) :=
  (Reads.lookup (c := some content) trivial h).bind
    (g := fun _ ↦ readFileRange content offset count) fun a ha ↦ by
      cases ha
      exact (Reads.probe trivial).bind (g := fun _ ↦ readFileRange content offset count) fun _ _ ↦
        Reads.ofExcept _

section SegmentReads

variable {read : ℕ → ℕ → Prog σ Bytes} {read' : ℕ → ℕ → Except Error Bytes}
  (hread : ∀ offset count, Reads S Error.IsIo F (read offset count) (read' offset count))

include hread

theorem reads_readBlock (entry : SegmentIndexEntry) :
    Reads S Error.IsIo F (SegmentReader.readBlock read entry)
      (SegmentReader.readBlock read' entry) :=
  (hread _ _).bind fun _ _ ↦ Reads.ofExcept _

theorem reads_latest (reader : SegmentReader) (series : SeriesKey) :
    Reads S Error.IsIo F (reader.latest read series) (reader.latest read' series) := by
  rw [SegmentReader.latest, SegmentReader.latest]
  split
  · exact Reads.pure _
  · exact Reads.ite (fun _ ↦ Reads.pure _) fun _ ↦
      (reads_readBlock hread _).bind fun _ _ ↦ Reads.pure _

theorem reads_getFrom (series : SeriesKey) (t : Timestamp) (entries : List SegmentIndexEntry) :
    Reads S Error.IsIo F (SegmentReader.getFrom read series t entries)
      (SegmentReader.getFrom read' series t entries) := by
  induction entries with
  | nil => exact Reads.pure _
  | cons entry entries ih =>
    rw [SegmentReader.getFrom, SegmentReader.getFrom]
    refine Reads.ite (fun _ ↦ Reads.pure _) fun _ ↦ Reads.ite (fun _ ↦ Reads.pure _) fun _ ↦
      Reads.ite (fun _ ↦ ih) fun _ ↦ (reads_readBlock hread entry).bind fun block _ ↦ ?_
    split
    · exact Reads.pure _
    · exact Reads.ite (fun _ ↦ Reads.pure _) fun _ ↦ Reads.pure _

theorem reads_get (reader : SegmentReader) (series : SeriesKey) (t : Timestamp) :
    Reads S Error.IsIo F (reader.get read series t) (reader.get read' series t) :=
  reads_getFrom hread series t _

theorem reads_rangeFrom (series : SeriesKey) (start stop : Timestamp)
    (entries : List SegmentIndexEntry) (result : List Sample) :
    Reads S Error.IsIo F (SegmentReader.rangeFrom read series start stop entries result)
      (SegmentReader.rangeFrom read' series start stop entries result) := by
  induction entries generalizing result with
  | nil => exact Reads.pure _
  | cons entry entries ih =>
    rw [SegmentReader.rangeFrom, SegmentReader.rangeFrom]
    exact Reads.ite (fun _ ↦ Reads.pure _) fun _ ↦ Reads.ite (fun _ ↦ ih result) fun _ ↦
      Reads.ite (fun _ ↦ Reads.pure _) fun _ ↦ (reads_readBlock hread entry).bind fun _ _ ↦ ih _

theorem reads_range (reader : SegmentReader) (series : SeriesKey) (start stop : Timestamp) :
    Reads S Error.IsIo F (reader.range read series start stop)
      (reader.range read' series start stop) :=
  Reads.ite (fun _ ↦ Reads.ofExcept _) fun _ ↦ Reads.ite (fun _ ↦ Reads.pure _) fun _ ↦
    reads_rangeFrom hread series start stop _ _

theorem reads_blocks (reader : SegmentReader) :
    Reads S Error.IsIo F (reader.blocks read) (reader.blocks read') :=
  Reads.mapM fun entry _ ↦ reads_readBlock hread entry

theorem reads_open {size : Prog σ ℕ} {size' : Except Error ℕ}
    (hsize : Reads S Error.IsIo F size size')
    (path : Bytes) :
    Reads S Error.IsIo F (SegmentReader.open path size read)
      (SegmentReader.open path size' read') := by
  refine hsize.bind fun fileSize _ ↦ Reads.ite (fun _ ↦ Reads.ofExcept _) fun _ ↦ ?_
  refine (hread _ _).bind fun headerBytes _ ↦ (hread _ _).bind fun footerBytes _ ↦ ?_
  refine (Reads.ofExcept _).bind fun header _ ↦ (Reads.ofExcept _).bind fun footer _ ↦ ?_
  refine Reads.ite (fun _ ↦ Reads.ofExcept _) fun _ ↦
    Reads.ite (fun _ ↦ Reads.ofExcept _) fun _ ↦ ?_
  exact (hread _ _).bind fun indexBytes _ ↦ (Reads.ofExcept _).bind fun index _ ↦ Reads.pure _

end SegmentReads

/-- **Opening a segment that is there.** -/
theorem reads_openSegment {name : Bytes} {blocks : List SegmentBlock} (hacc : SegmentAccepts blocks)
    (h : ∀ f, F f → f.find? (cString name) = some (segmentBytes blocks)) :
    Reads S Error.IsIo F (openSegment name : Prog σ SegmentReader)
      (.ok (SegmentReader.of name blocks)) := by
  rw [← open_segmentBytes hacc name]
  exact reads_open (reads_readFileBytes h) (reads_fileSizeBytes h) name

/-- **Loading the manifest that is there**, or the default when there is none. -/
theorem reads_loadManifest {state : ManifestState}
    (h : (∀ f, F f → f.find? manifestName = none) ∧ state = {} ∨
      (∀ f, F f → f.find? manifestName = some (manifestBytes state)) ∧ ManifestAccepts state ∧
        state.generation < 2 ^ 64 ∧ state.logicalSampleCount < 2 ^ 64) :
    Reads S Error.IsIo F (loadManifest : Prog σ ManifestState) (.ok state) := by
  rcases h with ⟨h, rfl⟩ | ⟨h, hacc, hgen, hcount⟩
  · refine (Reads.lookup (c := none) trivial h).bind (g := fun _ ↦ .ok ({} : ManifestState))
      fun a ha ↦ ?_
    cases ha
    exact Reads.pure _
  · refine (Reads.lookup (c := some (manifestBytes state)) trivial h).bind (g := fun _ ↦ .ok state)
      fun a ha ↦ ?_
    cases ha
    have hcut : ∀ f, F f → f.find? (cString manifestName) = some (manifestBytes state) :=
      fun f hf ↦ by
      rw [cString_manifestName, h f hf]
    refine (reads_fileSizeBytes hcut).bind (g := fun _ ↦ .ok state) fun size hsize ↦ ?_
    obtain rfl := Except.ok.inj hsize
    have hlen := length_manifestBytes state
    have hpay := hacc.payload_le
    have hread : readFileRange (manifestBytes state) 0 (manifestBytes state).length =
        .ok (manifestBytes state) := by
      have := readFileRange_append [] (manifestBytes state) []
        (by simp) (by
          unfold maxManifestPayloadSize at hpay
          unfold manifestHeaderSize manifestChecksumSize at hlen
          omega)
      rwa [List.nil_append, List.append_nil, List.length_nil] at this
    rw [if_neg (by omega)]
    have hbytes := reads_readFileBytes (σ := σ) (S := S) hcut 0 (manifestBytes state).length
    rw [hread] at hbytes
    refine hbytes.bind (g := fun _ ↦ .ok state) fun bytes hb ↦ ?_
    obtain rfl := Except.ok.inj hb
    rw [decodeManifest_manifestBytes hacc hgen hcount]
    exact Reads.ofExcept _

end Reads

end ChronoStore
