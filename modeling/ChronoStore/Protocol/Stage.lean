import Mathlib.Algebra.Order.BigOperators.Group.List
import Mathlib.Algebra.Group.Action.Defs
import ChronoStore.Engine.Layers

/-!
# The publication protocol

What the store does to its directory, without the program that does it. A **stage** says what the
files mean: the catalog of live layers that the manifest lists, the records of the log with an
interrupted append behind them, and how far a publication has come. A **move** is one file-system
step together with the change of meaning it makes, and the conditions of the moves are the protocol:
a temporary file is synchronized before it is renamed, a layer is in its place before a manifest
names it, the log is emptied only when the layers say what it says, and nothing that a manifest
names is touched.

`Holds files st` says that a directory has the meaning `st`. Moves preserve it (`Move.holds`), so
whatever a program does through moves leaves a directory that can be recovered, at every step.

The engine, which is code, makes only such moves; that is the subject of `Protocol.Operations`.
-/

namespace ChronoStore

open FaultyDisk WriteHistory

/-! ### Names -/

/-- Segments and their temporary files, by their names. -/
def IsSegmentName (name : Bytes) : Prop := ascii "segment-" <+: name

theorem isSegmentName_segmentFilename (n : ℕ) : IsSegmentName (segmentFilename n) :=
  List.prefix_append _ _

/-- The temporary file of a segment is one of the segments' files. -/
theorem isSegmentName_temporaryName {name : Bytes} (h : IsSegmentName name) :
    IsSegmentName (temporaryName name) :=
  h.trans (List.prefix_append _ _)

theorem not_isSegmentName_manifestName : ¬IsSegmentName manifestName := by
  rw [IsSegmentName, ← List.isPrefixOf_iff_prefix]
  decide

theorem not_isSegmentName_walName : ¬IsSegmentName walName := by
  rw [IsSegmentName, ← List.isPrefixOf_iff_prefix]
  decide

/-- A segment is no temporary file. -/
theorem segmentFilename_ne_temporaryName (n : ℕ) (name : Bytes) :
    segmentFilename n ≠ temporaryName name := by
  intro h
  have hsegment : (segmentFilename n).getLast? = some 116 := by
    rw [segmentFilename, ← List.append_assoc, List.getLast?_append]
    rfl
  have htemporary : (temporaryName name).getLast? = some 112 := by
    rw [temporaryName, List.getLast?_append]
    rfl
  rw [h, htemporary] at hsegment
  exact absurd hsegment (by decide)

/-! ### What the files mean -/

/-- The log: its complete records, the start of one more, and how many records are known to be
synchronized. A process that died between cutting the log and synchronizing it leaves a file that,
until the next synchronization, a loss of power may turn back into what it was; `older` are the
records that may then be found. -/
@[ext]
structure WalLog where
  records : List WalPutRecord
  tail : Bytes
  synced : ℕ
  older : List WalPutRecord → Prop
  accepted : ∀ r ∈ records, WalAccepts r
  incomplete : IncompleteTail tail
  small : (walBytes records ++ tail).length < 2 ^ 64
  synced_le : synced ≤ records.length

namespace WalLog

def bytes (log : WalLog) : Bytes := walBytes log.records ++ log.tail

def entries (log : WalLog) : List (Key × Value) := log.records.map WalPutRecord.entry

/-- The log without records. -/
def empty : WalLog :=
  ⟨[], [], 0, fun _ ↦ False, by simp, incompleteTail_nil, by decide, le_refl _⟩

/-- The log without the interrupted append. -/
def trimmed (log : WalLog) : WalLog where
  records := log.records
  tail := []
  synced := log.synced
  older := log.older
  accepted := log.accepted
  incomplete := incompleteTail_nil
  small := by
    have := log.small
    rw [List.length_append] at this
    rw [List.append_nil]
    omega
  synced_le := log.synced_le

/-- The log after a synchronization. -/
def synchronized (log : WalLog) : WalLog :=
  { log with synced := log.records.length, older := fun _ ↦ False, synced_le := le_refl _ }

/-- The records that may be found after a loss of power: what is synchronized is among them, unless
the file is found as it was before it was last cut. -/
def MayLeave (log : WalLog) (records : List WalPutRecord) : Prop :=
  log.older records ∨ ∃ j, log.synced ≤ j ∧ records = log.records.take j

/-- The log of a process that died before it synchronized the cut. -/
def remember (log previous : WalLog) : WalLog :=
  { log with older := fun records ↦ log.older records ∨ previous.MayLeave records }

@[simp] theorem records_trimmed (log : WalLog) : log.trimmed.records = log.records := rfl

@[simp] theorem records_synchronized (log : WalLog) : log.synchronized.records = log.records := rfl

@[simp] theorem bytes_synchronized (log : WalLog) : log.synchronized.bytes = log.bytes := rfl

/-- Everything is synchronized. -/
structure Durable (log : WalLog) : Prop where
  synced_eq : log.synced = log.records.length
  older : ∀ records, ¬log.older records

/-- A log that has been synced is durable. -/
theorem durable_synchronized (log : WalLog) : log.synchronized.Durable := ⟨rfl, fun _ ↦ id⟩

theorem bytes_trimmed (log : WalLog) : log.trimmed.bytes = walBytes log.records := List.append_nil _

/-- Records take up space, so a log does not hold too many of them. -/
theorem length_records_lt (log : WalLog) : walHeaderSize * log.records.length < 2 ^ 64 := by
  have h₁ := length_le_walBytes log.records
  have h₂ := log.small
  rw [List.length_append] at h₂
  omega

end WalLog

/-- The records of a log that may not exist yet. -/
def recordsOf (log : Option WalLog) : List WalPutRecord := (log.map WalLog.records).getD []

/-- The number of records of a log known to be synchronized. -/
def syncedOf (log : Option WalLog) : ℕ := (log.map WalLog.synced).getD 0

/-- The records that may be found in the place of those of the log. -/
def olderOf : Option WalLog → List WalPutRecord → Prop
  | none, _ => False
  | some log, records => log.older records

/-- What was synchronized in the one log is so in the other, and nothing more may be found in its
place. -/
structure AsDurable (log log' : Option WalLog) : Prop where
  synced_le : syncedOf log ≤ syncedOf log'
  older : ∀ records, olderOf log' records → olderOf log records

theorem AsDurable.refl (log : Option WalLog) : AsDurable log log := ⟨le_refl _, fun _ ↦ id⟩

/-- To be as durable as another log is transitive. -/
theorem AsDurable.trans {log log' log'' : Option WalLog} (h : AsDurable log log')
    (h' : AsDurable log' log'') : AsDurable log log'' :=
  ⟨h.synced_le.trans h'.synced_le,
    fun records hrecords ↦ h.older records (h'.older records hrecords)⟩

theorem AsDurable.synchronized (log : WalLog) : AsDurable (some log) (some log.synchronized) :=
  ⟨log.synced_le, fun _ ↦ False.elim⟩

/-- What a manifest lists: layers under increasing numbers up to the generation. A process that died
between renaming a manifest and synchronizing the directory leaves a name that, until the next
synchronization, a loss of power may turn back into an older manifest; `older` are the catalogs that
may then be found. -/
@[ext]
structure Catalog where
  generation : ℕ
  layers : List Layer
  older : List Catalog
  increasing : layers.Pairwise fun a b ↦ a.number < b.number
  numbered : ∀ l ∈ layers, 1 ≤ l.number ∧ l.number ≤ generation
  generation_lt : generation < 2 ^ 64
  length_le : layers.length ≤ maxManifestSegments

namespace Catalog

/-- The catalog of a directory without manifest. -/
def empty : Catalog :=
  ⟨0, [], [], List.Pairwise.nil, by simp, by decide, by simp [maxManifestSegments]⟩

/-- The catalog once its manifest is durable. -/
def settled (c : Catalog) : Catalog := { c with older := [] }

/-- The catalog of a process that died before it synchronized the directory. -/
def remember (c previous : Catalog) : Catalog := { c with older := previous :: c.older }

/-- The catalogs that may be found after a loss of power. -/
def MayLeave (c p : Catalog) : Prop := p = c ∨ p ∈ c.older

def entries (c : Catalog) : List (Key × Value) := layeredEntries c.layers

/-- The manifest of a catalog counts the keys of its layers. -/
def manifest (c : Catalog) : ManifestState :=
  ⟨c.generation, (keys c.entries).card, c.layers.map Layer.name⟩

@[simp] theorem manifest_empty : empty.manifest = {} := rfl

/-- A durable catalog has settled. -/
theorem settled_of_durable {c : Catalog} (h : c.older = []) : c.settled = c := by
  obtain ⟨generation, layers, older, increasing, numbered, hgeneration, hlength⟩ := c
  obtain rfl : older = [] := h
  rfl

/-- A catalog is bounded by the sizes of its segments. -/
theorem length_layeredEntries_le (layers : List Layer) :
    (layeredEntries layers).length ≤
      layers.length * (maxSegmentBlockCount * maxSamplesPerSegmentBlock) := by
  have hlayer : ∀ n ∈ layers.map fun l ↦ l.entries.length,
      n ≤ maxSegmentBlockCount * maxSamplesPerSegmentBlock := by
    intro n hn
    obtain ⟨l, -, rfl⟩ := List.mem_map.1 hn
    have hblock : ∀ n ∈ l.blocks.map SegmentBlock.sampleCount, n ≤ maxSamplesPerSegmentBlock := by
      intro n hn
      obtain ⟨b, -, rfl⟩ := List.mem_map.1 hn
      exact b.length_le
    have hsum := List.sum_le_card_nsmul _ _ hblock
    rw [List.length_map, smul_eq_mul] at hsum
    rw [Layer.entries, length_entriesOf, countSamples]
    exact hsum.trans (Nat.mul_le_mul_right _ l.accepted.length_le)
  have hsum := List.sum_le_card_nsmul _ _ hlayer
  rwa [List.length_map, smul_eq_mul, ← List.length_flatMap] at hsum

/-- A catalog has far fewer entries than its counter can count. -/
theorem length_entries_le (c : Catalog) : c.entries.length ≤ 2 ^ 45 := by
  have h₁ := length_layeredEntries_le c.layers
  have h₂ := c.length_le
  rw [entries]
  unfold maxManifestSegments at h₂
  unfold maxSegmentBlockCount maxSamplesPerSegmentBlock at h₁
  omega

/-- Layers and log together hold fewer samples than a counter can count, even with one more. -/
theorem length_add_length_lt (c : Catalog) (log : WalLog) :
    c.entries.length + log.records.length + 1 < 2 ^ 64 := by
  have h₁ := c.length_entries_le
  have h₂ := log.length_records_lt
  unfold walHeaderSize at h₂
  omega

theorem logicalSampleCount_lt (c : Catalog) : c.manifest.logicalSampleCount < 2 ^ 64 := by
  have h₁ := c.length_entries_le
  have h₂ := card_keys_le_length c.entries
  show (keys c.entries).card < 2 ^ 64
  omega

/-- No two layers have the same name. -/
theorem names_nodup (c : Catalog) : (c.layers.map Layer.name).Nodup :=
  List.pairwise_map.2 (c.increasing.imp fun h heq ↦ h.ne (segmentFilename_injective heq))

/-- **Every catalog can be written** to a manifest and read back. -/
theorem accepts (c : Catalog) : ManifestAccepts c.manifest where
  length_le := by
    show (c.layers.map Layer.name).length ≤ _
    rw [List.length_map]
    exact c.length_le
  valid := by
    intro name hname
    obtain ⟨l, -, rfl⟩ := List.mem_map.1 hname
    exact validSegmentFilename_segmentFilename _
  nodup := c.names_nodup
  payload_le := by
    have hname : ∀ n ∈ (c.layers.map Layer.name).map fun name ↦ (stringBytes name).length,
        n ≤ 36 := by
      intro n hn
      rw [List.map_map] at hn
      obtain ⟨l, hl, rfl⟩ := List.mem_map.1 hn
      have hlen : l.name.length = 32 :=
        length_segmentFilename (lt_of_le_of_lt (c.numbered l hl).2 c.generation_lt)
      simp [stringBytes, hlen]
    have hsum := List.sum_le_card_nsmul _ _ hname
    rw [List.length_map, List.length_map, smul_eq_mul, ← List.length_flatMap] at hsum
    have hle := c.length_le
    unfold maxManifestSegments at hle
    show ((c.layers.map Layer.name).flatMap stringBytes).length ≤ _
    unfold maxManifestPayloadSize
    omega

/-- The physical sample count that recovery sums up does not wrap around. -/
theorem physicalSamples (c : Catalog) :
    c.layers.foldl (fun physical l ↦ addU64 physical (countSamples l.blocks)) 0 =
      c.entries.length := by
  have hle := c.length_entries_le
  rw [entries] at hle ⊢
  generalize c.layers = layers at hle ⊢
  induction layers using List.reverseRecOn with
  | nil => rfl
  | append_singleton layers l ih =>
    rw [layeredEntries_concat, List.length_append] at hle ⊢
    rw [List.foldl_append, ih (by omega), List.foldl_cons, List.foldl_nil, addU64, Layer.entries,
      length_entriesOf, Nat.mod_eq_of_lt]
    rw [Layer.entries, length_entriesOf] at hle
    omega

end Catalog

/-! ### Stages and moves -/

/-- The two kinds of files that are written atomically. -/
inductive Target
  | segment
  | manifest
deriving DecidableEq

/-- The name a target gets; the next segment takes the next number. -/
def Catalog.pathOf (c : Catalog) : Target → Bytes
  | .segment => segmentFilename (c.generation + 1)
  | .manifest => manifestName

/-- How far an atomic write or a truncation of the log has come. -/
inductive Phase
  /-- Nothing is under way. -/
  | idle
  /-- The log was cut, and is not synchronized yet. -/
  | truncated (previous : WalLog)
  /-- The temporary file holds these bytes. -/
  | staging (target : Target) (content : Bytes)
  /-- The temporary file holds these bytes and is synchronized. -/
  | sealed (target : Target) (content : Bytes)
  /-- The temporary file was renamed, and the directory is not synchronized yet. -/
  | renamed (previous : Catalog)

/-- The meaning of a directory. -/
@[ext]
structure Stage where
  catalog : Catalog
  log : Option WalLog
  /-- A layer in its place that no manifest names yet. -/
  ready : Option Layer
  phase : Phase

/-- Whatever is under way is given up: an exception was thrown, or the process died. What is not
synchronized then stays so. -/
def Stage.abandoned (st : Stage) : Stage :=
  match st.phase with
  | .renamed previous => ⟨st.catalog.remember previous, st.log, none, .idle⟩
  | .truncated previous => ⟨st.catalog, st.log.map fun log ↦ log.remember previous, none, .idle⟩
  | _ => ⟨st.catalog, st.log, none, .idle⟩

/-- Then nothing is under way. -/
theorem Stage.abandoned_eq (st : Stage) :
    st.abandoned = ⟨st.abandoned.catalog, st.abandoned.log, none, .idle⟩ := by
  obtain ⟨c, log, ready, phase⟩ := st
  cases phase <;> rfl

/-- The two ways in which a new catalog may say what the old one and the log say. -/
def Republishes (c : Catalog) (log : Option WalLog) (c' : Catalog) : Prop :=
  (∀ k, lastWrite c'.entries k = lastWrite c.entries k) ∨
    ∀ k, lastWrite c'.entries k =
      lastWrite (c.entries ++ (recordsOf log).map WalPutRecord.entry) k

/-- One step of the protocol. -/
inductive Move : Stage → Step Bytes UInt8 → Stage → Prop
  | createWal {c} :
    Move ⟨c, none, none, .idle⟩ (.create walName) ⟨c, some .empty, none, .idle⟩
  | appendWal {c ready log log' piece} (hbytes : log'.bytes = log.bytes ++ piece)
    (hrecords : log.records <+: log'.records) (hsynced : log'.synced = log.synced)
    (holder : log'.older = log.older) :
    Move ⟨c, some log, ready, .idle⟩ (.append walName piece) ⟨c, some log', ready, .idle⟩
  | syncWal {c ready log} :
    Move ⟨c, some log, ready, .idle⟩ (.fsync walName) ⟨c, some log.synchronized, ready, .idle⟩
  | trimWal {c ready log} :
    Move ⟨c, some log, ready, .idle⟩ (.truncate walName (walBytes log.records).length)
      ⟨c, some log.trimmed, ready, .truncated log⟩
  | resetWal {c ready log} (hdurable : c.older = [])
    (habsorbed : ∀ k, lastWrite (c.entries ++ log.entries) k = lastWrite c.entries k) :
    Move ⟨c, some log, ready, .idle⟩ (.truncate walName 0) ⟨c, some .empty, ready, .truncated log⟩
  | settleWal {c ready log previous} :
    Move ⟨c, some log, ready, .truncated previous⟩ (.fsync walName)
      ⟨c, some log.synchronized, ready, .idle⟩
  | stageFile {c log ready} (target : Target) :
    Move ⟨c, log, ready, .idle⟩ (.createTrunc (temporaryName (c.pathOf target)))
      ⟨c, log, ready, .staging target []⟩
  | fillFile {c log ready target content piece} :
    Move ⟨c, log, ready, .staging target content⟩
      (.append (temporaryName (c.pathOf target)) piece)
      ⟨c, log, ready, .staging target (content ++ piece)⟩
  | sealFile {c log ready target content} :
    Move ⟨c, log, ready, .staging target content⟩ (.fsync (temporaryName (c.pathOf target)))
      ⟨c, log, ready, .sealed target content⟩
  | placeSegment {c log ready} (l : Layer) (hnumber : l.number = c.generation + 1) :
    Move ⟨c, log, ready, .sealed .segment (segmentBytes l.blocks)⟩
      (.rename (temporaryName (c.pathOf .segment)) (c.pathOf .segment))
      ⟨c, log, some l, .renamed c⟩
  | publishManifest {c log l} (c' : Catalog) (hgeneration : c'.generation = c.generation + 1)
    (hlayers : c'.layers = c.layers ++ [l] ∨ c'.layers = [l]) (hsame : Republishes c (some log) c')
    (hdurable : c.older = []) (hdurable' : c'.older = []) :
    Move ⟨c, some log, some l, .sealed .manifest (manifestBytes c'.manifest)⟩
      (.rename (temporaryName (c.pathOf .manifest)) (c.pathOf .manifest))
      ⟨c', some log, none, .renamed c⟩
  | syncDirectory {c log ready previous} :
    Move ⟨c, log, ready, .renamed previous⟩ .fsyncDir ⟨c.settled, log, ready, .idle⟩
  | removeFile {c log name} (hname : IsSegmentName name) (hdead : name ∉ c.manifest.segmentFiles) :
    Move ⟨c, log, none, .idle⟩ (.remove name) ⟨c, log, none, .idle⟩

/-! ### Directories with a meaning -/

/-- The file, or its absence, lists the catalog. -/
def Catalog.IsManifest (c : Catalog) (x : Option Bytes) : Prop :=
  x = none ∧ c.settled = .empty ∨ x = some (manifestBytes c.manifest)

/-- The directory means the stage. -/
structure Holds (files : Directory) (st : Stage) : Prop where
  manifest_file : st.catalog.IsManifest (files.find? manifestName)
  layer_files : ∀ l ∈ st.catalog.layers, l.In files
  wal_file : files.find? walName = st.log.map WalLog.bytes
  ready_file : ∀ l, st.ready = some l → l.number = st.catalog.generation + 1 ∧ l.In files
  staged_file : ∀ target content,
    st.phase = .staging target content ∨ st.phase = .sealed target content →
      files.find? (temporaryName (st.catalog.pathOf target)) = some content

/-- The files do not change when a process is gone. -/
theorem Holds.abandoned {files : Directory} {st : Stage} (h : Holds files st) :
    Holds files st.abandoned := by
  obtain ⟨c, log, ready, phase⟩ := st
  have hwal : ∀ previous : WalLog, files.find? walName =
      (log.map fun log ↦ log.remember previous).map WalLog.bytes := fun previous ↦ by
    rw [Option.map_map]
    exact h.wal_file
  cases phase with
  | truncated previous =>
    exact ⟨h.manifest_file, h.layer_files, hwal previous, by simp [Stage.abandoned],
      by simp [Stage.abandoned]⟩
  | idle | staging | sealed | renamed =>
    exact ⟨h.manifest_file, h.layer_files, h.wal_file, by simp [Stage.abandoned],
      by simp [Stage.abandoned]⟩

/-- The files do not show what is durable. -/
theorem Holds.durable {files : Directory} {c : Catalog} {log : Option WalLog} {ready : Option Layer}
    {phase : Phase} (h : Holds files ⟨c, log, ready, phase⟩) :
    Holds files ⟨c.settled, log.map WalLog.synchronized, ready, phase⟩ := by
  refine ⟨h.manifest_file, h.layer_files, ?_, h.ready_file, h.staged_file⟩
  rw [Option.map_map]
  exact h.wal_file

theorem Layer.name_ne {l : Layer} {name : Bytes} (h : ¬IsSegmentName name) : l.name ≠ name :=
  fun heq ↦ h (heq ▸ isSegmentName_segmentFilename l.number)

theorem Layer.name_ne_temporaryName (l : Layer) (name : Bytes) : l.name ≠ temporaryName name :=
  segmentFilename_ne_temporaryName _ _

theorem Catalog.temporaryName_pathOf_ne (c : Catalog) (target : Target) :
    temporaryName (c.pathOf target) ≠ walName ∧ temporaryName (c.pathOf target) ≠ manifestName := by
  cases target with
  | segment =>
    have h : IsSegmentName (temporaryName (c.pathOf .segment)) :=
      isSegmentName_temporaryName (isSegmentName_segmentFilename _)
    exact ⟨fun heq ↦ not_isSegmentName_walName (heq ▸ h),
      fun heq ↦ not_isSegmentName_manifestName (heq ▸ h)⟩
  | manifest =>
    show temporaryName manifestName ≠ walName ∧ temporaryName manifestName ≠ manifestName
    decide

section Preservation

variable {files : Directory} {st : Stage} {step : Step Bytes UInt8}

/-- A step on the log alone. -/
theorem Holds.wal_step (h : Holds files st) (htouch : ∀ n ∈ step.touches, n = walName)
    {log : Option WalLog} (hlog : (step.apply files).find? walName = log.map WalLog.bytes)
    {phase : Phase} (hphase : phase = .idle ∨ ∃ previous, phase = .truncated previous) :
    Holds (step.apply files) ⟨st.catalog, log, st.ready, phase⟩ := by
  have hframe : ∀ name, name ≠ walName → (step.apply files).find? name = files.find? name :=
    fun name hne ↦ Step.find?_apply_of_notMem fun hmem ↦ hne (htouch name hmem)
  have hlayer : ∀ l : Layer, l.In files → l.In (step.apply files) := fun l hl ↦
    (hframe _ (Layer.name_ne not_isSegmentName_walName)).trans hl
  refine ⟨?_, fun l hl ↦ hlayer l (h.layer_files l hl), hlog,
    fun l hl ↦ ⟨(h.ready_file l hl).1, hlayer l (h.ready_file l hl).2⟩, ?_⟩
  · rw [hframe _ (by decide)]
    exact h.manifest_file
  · rcases hphase with rfl | ⟨previous, rfl⟩ <;> simp

/-- A step on the temporary file of a target alone. -/
theorem Holds.temporary_step (h : Holds files st) (target : Target)
    (htouch : ∀ n ∈ step.touches, n = temporaryName (st.catalog.pathOf target)) {phase : Phase}
    (hphase : ∀ target' content, phase = .staging target' content ∨
      phase = .sealed target' content →
      (step.apply files).find? (temporaryName (st.catalog.pathOf target')) = some content) :
    Holds (step.apply files) ⟨st.catalog, st.log, st.ready, phase⟩ := by
  have hframe : ∀ name, name ≠ temporaryName (st.catalog.pathOf target) →
      (step.apply files).find? name = files.find? name :=
    fun name hne ↦ Step.find?_apply_of_notMem fun hmem ↦ hne (htouch name hmem)
  have hne := st.catalog.temporaryName_pathOf_ne target
  have hlayer : ∀ l : Layer, l.In files → l.In (step.apply files) := fun l hl ↦
    (hframe _ (l.name_ne_temporaryName _)).trans hl
  refine ⟨?_, fun l hl ↦ hlayer l (h.layer_files l hl), ?_,
    fun l hl ↦ ⟨(h.ready_file l hl).1, hlayer l (h.ready_file l hl).2⟩, hphase⟩
  · rw [hframe _ hne.2.symm]
    exact h.manifest_file
  · rw [hframe _ hne.1.symm]
    exact h.wal_file

/-- **Moves preserve meaning.** -/
theorem Move.holds {st' : Stage} (hmove : Move st step st') (h : Holds files st) :
    Holds (step.apply files) st' := by
  cases hmove with
  | @createWal c =>
    refine h.wal_step (by simp [Step.touches]) ?_ (Or.inl rfl)
    have hnone : files.find? walName = none := h.wal_file
    simp only [Step.apply, hnone, Option.isSome_none, Bool.false_eq_true, if_false,
      OrderedMap.find?_insert, if_true]
    rfl
  | @appendWal c ready log log' piece hbytes hrecords hsynced holder =>
    refine h.wal_step (by simp [Step.touches]) ?_ (Or.inl rfl)
    have hsome : files.find? walName = some log.bytes := h.wal_file
    simp only [Step.apply, hsome, OrderedMap.find?_insert, if_true, Option.map_some, hbytes]
  | @syncWal c ready log =>
    refine h.wal_step (by simp [Step.touches]) ?_ (Or.inl rfl)
    exact h.wal_file
  | @trimWal c ready log =>
    refine h.wal_step (by simp [Step.touches]) ?_ (Or.inr ⟨_, rfl⟩)
    have hsome : files.find? walName = some log.bytes := h.wal_file
    simp only [Step.apply, hsome, OrderedMap.find?_insert, if_true, Option.map_some, WalLog.bytes,
      List.take_left, WalLog.trimmed, List.append_nil]
  | @resetWal c ready log hdurable habsorbed =>
    refine h.wal_step (by simp [Step.touches]) ?_ (Or.inr ⟨_, rfl⟩)
    have hsome : files.find? walName = some log.bytes := h.wal_file
    simp only [Step.apply, hsome, OrderedMap.find?_insert, if_true, List.take_zero]
    rfl
  | @settleWal c ready log previous =>
    refine h.wal_step (by simp [Step.touches]) ?_ (Or.inl rfl)
    exact h.wal_file
  | @stageFile c log ready target =>
    refine h.temporary_step target (by simp [Step.touches]) fun target' content hc ↦ ?_
    obtain ⟨rfl, rfl⟩ : target = target' ∧ [] = content := by simpa using hc
    simp only [Step.apply, OrderedMap.find?_insert, if_true]
  | @fillFile c log ready target old piece =>
    refine h.temporary_step target (by simp [Step.touches]) fun target' content hc ↦ ?_
    obtain ⟨rfl, rfl⟩ : target = target' ∧ old ++ piece = content := by simpa using hc
    have hsome := h.staged_file target old (Or.inl rfl)
    simp only [Step.apply, hsome, OrderedMap.find?_insert, if_true]
  | @sealFile c log ready target old =>
    refine h.temporary_step target (by simp [Step.touches]) fun target' content hc ↦ ?_
    obtain ⟨rfl, rfl⟩ : target = target' ∧ old = content := by simpa using hc
    exact h.staged_file target old (Or.inl rfl)
  | @placeSegment c log ready l hnumber =>
    have hsome := h.staged_file .segment _ (Or.inr rfl)
    have hne := c.temporaryName_pathOf_ne .segment
    have hname : l.name = c.pathOf .segment := by rw [Layer.name, hnumber]; rfl
    have hframe : ∀ name, name ≠ temporaryName (c.pathOf .segment) → name ≠ l.name →
        (Step.apply files (.rename (temporaryName (c.pathOf .segment)) (c.pathOf .segment))).find?
          name = files.find? name := fun name h₁ h₂ ↦
      Step.find?_apply_of_notMem (by rw [hname] at h₂; simp [Step.touches, h₁, h₂])
    refine ⟨?_, fun k hk ↦ ?_, ?_, fun k hk ↦ ?_, by simp⟩
    · rw [hframe _ hne.2.symm (Layer.name_ne not_isSegmentName_manifestName).symm]
      exact h.manifest_file
    · have hlt : k.name ≠ l.name := by
        intro heq
        have hk' := (c.numbered k hk).2
        have := segmentFilename_injective heq
        omega
      exact (hframe _ (k.name_ne_temporaryName _) hlt).trans (h.layer_files k hk)
    · rw [hframe _ hne.1.symm (Layer.name_ne not_isSegmentName_walName).symm]
      exact h.wal_file
    · obtain rfl : l = k := by simpa using hk
      refine ⟨hnumber, ?_⟩
      rw [Layer.In, hname]
      simp only [Step.apply, hsome, OrderedMap.find?_insert, if_true]
  | @publishManifest c log l c' hgeneration hlayers hsame hdurable hdurable' =>
    have hsome := h.staged_file .manifest _ (Or.inr rfl)
    have hready := h.ready_file l rfl
    have hframe : ∀ name, name ≠ temporaryName manifestName → name ≠ manifestName →
        (Step.apply files (.rename (temporaryName (c.pathOf .manifest)) (c.pathOf .manifest))).find?
          name = files.find? name := fun name h₁ h₂ ↦
      Step.find?_apply_of_notMem (by simp [Step.touches, Catalog.pathOf, h₁, h₂])
    have hlayer : ∀ k : Layer, k.In files → k.In (Step.apply files
        (.rename (temporaryName (c.pathOf .manifest)) (c.pathOf .manifest))) := fun k hk ↦
      (hframe _ (k.name_ne_temporaryName _) (Layer.name_ne not_isSegmentName_manifestName)).trans hk
    refine ⟨Or.inr ?_, fun k hk ↦ hlayer k ?_, ?_, by simp, by simp⟩
    · simp only [Step.apply, hsome]
      simp only [Catalog.pathOf, OrderedMap.find?_insert, if_true]
    · rcases hlayers with hl | hl
      · rw [hl, List.mem_append, List.mem_singleton] at hk
        rcases hk with hk | rfl
        · exact h.layer_files k hk
        · exact hready.2
      · rw [hl, List.mem_singleton] at hk
        exact hk ▸ hready.2
    · rw [hframe _ (by decide) (by decide)]
      exact h.wal_file
  | syncDirectory =>
    exact ⟨h.manifest_file, h.layer_files, h.wal_file, h.ready_file, by simp⟩
  | @removeFile c log name hname hdead =>
    have hframe : ∀ other, other ≠ name →
        (Step.apply files (.remove name)).find? other = files.find? other := fun other hne ↦
      Step.find?_apply_of_notMem (by simpa [Step.touches] using hne)
    refine ⟨?_, fun k hk ↦ ?_, ?_, by simp, by simp⟩
    · rw [hframe manifestName fun heq ↦ not_isSegmentName_manifestName (heq ▸ hname)]
      exact h.manifest_file
    · exact (hframe _ fun heq ↦ hdead (heq ▸ List.mem_map_of_mem hk)).trans (h.layer_files k hk)
    · rw [hframe walName fun heq ↦ not_isSegmentName_walName (heq ▸ hname)]
      exact h.wal_file

end Preservation

end ChronoStore
