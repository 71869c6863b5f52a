import ChronoStore.Protocol.Refinement

/-!
# Counters and live segments

Two invariants of every session, with failing calls and crashes anywhere.

* The three counters of a usable engine count what they say they count, so the checks that compare
  them never fail (`counters_agree`).
* A segment that the manifest on disk lists is never touched, whatever step is made, and every
  publication has a larger generation than the one before (`live_segments_untouched`).

Both are read off the stage of the directory: the first from the engine of a catalog and a log, the
second from the moves.
-/

namespace ChronoStore

open FaultyDisk WriteHistory

variable {f files : Directory} {history : List Entry} {m : Machine} {o : Origin} {st st' : Stage}
  {step : Step Bytes UInt8}

/-- The manifest of a catalog is the one that is loaded. -/
theorem Catalog.IsManifest.loadManifestIn_eq {c : Catalog}
    (h : c.IsManifest (files.find? manifestName)) : loadManifestIn files = .ok c.manifest := by
  rcases h with ⟨hnone, hempty⟩ | hsome
  · have hmanifest : c.manifest = {} := congrArg Catalog.manifest hempty
    rw [loadManifestIn, hnone, hmanifest]
  · exact loadManifestIn_of_decodes hsome (decodeManifest_manifestBytes c.accepts c.generation_lt
      c.logicalSampleCount_lt)

/-- The manifest of a stage is the one that is loaded. -/
theorem Holds.loadManifestIn_eq (h : Holds files st) :
    loadManifestIn files = .ok st.catalog.manifest :=
  h.manifest_file.loadManifestIn_eq

/-! ### Counters -/

/-- The live segments of the engine are those that the manifest on disk lists, and these blocks are
what is stored in them. -/
structure StorageEngine.Stores (e : StorageEngine) (files : Directory)
    (stored : List (List SegmentBlock)) : Prop where
  manifest_eq : loadManifestIn files = .ok e.manifest
  paths_eq : e.segments.map SegmentReader.path = e.manifest.segmentFiles
  blocks_eq : List.Forall₂ (fun (segment : SegmentReader) blocks ↦
    segment.blocks (readIn (files.find? segment.path)) = .ok blocks) e.segments stored

/-- The reader of a layer returns its blocks. -/
theorem Layer.blocks_reader {l : Layer} (h : l.In files) :
    l.reader.blocks (readIn (files.find? l.reader.path)) = .ok l.blocks := by
  have hfile : files.find? l.reader.path = some (segmentBytes l.blocks) := h
  rw [hfile]
  exact blocks_eq (describes_segmentBytes l.accepted)

theorem entriesOf_flatten_layers (layers : List Layer) :
    entriesOf (layers.map Layer.blocks).flatten = layeredEntries layers := by
  induction layers with
  | nil => rfl
  | cons l layers ih =>
    rw [List.map_cons, List.flatten_cons, entriesOf_append, ih]
    rfl

/-- The engine of a catalog and a log stores the layers of the catalog. -/
theorem Holds.stores {c : Catalog} {log : WalLog} {durability : WalDurability}
    (h : Holds files ⟨c, some log, none, .idle⟩) :
    (engineOf c log durability).Stores files (c.layers.map Layer.blocks) where
  manifest_eq := h.loadManifestIn_eq
  paths_eq := by
    show (c.layers.map Layer.reader).map SegmentReader.path = c.layers.map Layer.name
    rw [List.map_map]
    rfl
  blocks_eq := by
    show List.Forall₂ _ (c.layers.map Layer.reader) (c.layers.map Layer.blocks)
    rw [List.forall₂_map_left_iff, List.forall₂_map_right_iff, List.forall₂_same]
    exact fun l hl ↦ Layer.blocks_reader (h.layer_files l hl)

/-- What the counters of an engine count. -/
structure StorageEngine.Counts (e : StorageEngine) (stored : List (List SegmentBlock)) : Prop where
  manifest_count : e.manifest.logicalSampleCount = (keys (entriesOf stored.flatten)).card
  logical_count : e.logicalSampleCount =
    (keys (entriesOf stored.flatten ++ e.memtable.series.pairs)).card
  memtable_count : e.memtable.sampleCount = (keys e.memtable.series.pairs).card

/-- The counters of the engine that a catalog and a log determine. -/
theorem counts_engineOf (c : Catalog) (log : WalLog) (durability : WalDurability) :
    (engineOf c log durability).Counts (c.layers.map Layer.blocks) where
  manifest_count := by
    rw [entriesOf_flatten_layers]
    rfl
  logical_count := by
    have hpairs : ∀ k, lastWrite (MemTable.ofRecords log.records).series.pairs k =
        lastWrite log.entries k := by
      intro k
      rw [SeriesMap.lastWrite_pairs, MemTable.find_ofRecords]
      rfl
    rw [entriesOf_flatten_layers]
    exact congrArg Finset.card (keys_congr (lastWrite_append_congr (fun _ ↦ rfl) hpairs)).symm
  memtable_count := by
    have hlen := log.length_records_lt
    unfold walHeaderSize at hlen
    show (MemTable.ofRecords log.records).sampleCount = _
    rw [MemTable.sampleCount_ofRecords (by omega)]
    refine congrArg Finset.card (keys_congr fun k ↦ ?_)
    show _ = lastWrite (MemTable.ofRecords log.records).series.pairs k
    rw [SeriesMap.lastWrite_pairs, MemTable.find_ofRecords]

/-- **Recovery** of a directory that the engine has left behind throws only when a call fails. -/
theorem Standing.isIo_of_recover {puts : List WalPutRecord} {n : ℕ} (h : Standing o puts n m)
    {listing : Listing} {sched : List Event} {err : Error} {s : Unit} {w : World Bytes UInt8}
    (hrun : recover listing ((), ⟨m.disk, sched⟩) = .error (.exn err) (s, w)) :
    Failing sched ∧ err.IsIo := by
  obtain ⟨st, hat, -⟩ := h.reaches
  have hspec := @spec_recover o Unit sched (fun _ _ ↦ True) () (fun _ ↦ False)
    st.abandoned.catalog st.abandoned.log listing (fun _ _ _ ↦ trivial) () ⟨m.disk, sched⟩
    ⟨rfl, hat.abandon⟩ (List.suffix_refl _)
  rw [hrun] at hspec
  exact hspec.2.resolve_right id

/-- **The counters agree.** In every session, with failing calls and crashes anywhere, the manifest
of a usable engine counts the keys of the live segments, the engine counts the keys of the live
segments and the table together, and the table counts its own. So a compaction never finds that the
segments disagree with the manifest, and no recovery of the directory finds the manifest
inconsistent. -/
theorem counters_agree (hf : Fresh f) (h : Session f history m) :
    (∀ e, m.engine = some e → e.failed = false →
      ∃ stored, e.Stores m.disk.files stored ∧ e.Counts stored) ∧
    (∀ e, m.engine = some e → ∀ sched err e' w,
      StorageEngine.compact (e, ⟨m.disk, sched⟩) = .error (.exn err) (e', w) →
        err ≠ .segmentFormatError "compacted segment count disagrees with manifest") ∧
    ∀ listing sched err s w,
      recover listing ((), ⟨m.disk, sched⟩) = .error (.exn err) (s, w) →
        err ≠ .manifestFormatError "manifest logical sample count is inconsistent" := by
  obtain ⟨effects, -, hnow⟩ := h.standing_now hf
  refine ⟨fun e he hfailed ↦ ?_, fun e he sched err e' w hrun ↦ ?_,
    fun listing sched err s w hrun ↦ ?_⟩
  · obtain ⟨durability, c, log, -, -, rfl, hat⟩ := hnow.usable he hfailed
    exact ⟨_, hat.holds.stores, counts_engineOf c log durability⟩
  · cases hfailed : e.failed with
    | false =>
      obtain ⟨durability, husable⟩ := hnow.usable he hfailed
      have hspec := spec_compact (S := sched) e e ⟨m.disk, sched⟩
        ⟨rfl, husable⟩ (List.suffix_refl _)
      rw [hrun] at hspec
      rintro rfl
      exact hspec.2.2.elim (fun h ↦ h.2) id
    | true =>
      have hrefused := Request.run_of_failed hfailed .compact ⟨m.disk, sched⟩
      rw [Request.run, hrun] at hrefused
      rintro rfl
      cases hrefused
  · rintro rfl
    exact (hnow.isIo_of_recover hrun).2

/-- After crashes in a flush, in a put and in an opening, with two segments. -/
theorem counters_agree_crashedSession : ∃ m, Session OrderedMap.empty crashedSession m ∧
    ∃ e, m.engine = some e ∧ e.segments.length = 2 ∧
      ∃ stored, e.Stores m.disk.files stored ∧ e.Counts stored := by
  obtain ⟨m, h, e, he, hfailed, hsegments⟩ := exists_crashedSession
  exact ⟨m, h, e, he, hsegments, (counters_agree fresh_empty h).1 e he hfailed⟩

/-! ### Live segments -/

/-- The names that a catalog lists are those of increasing numbers up to its generation. -/
theorem Catalog.exists_numbers (c : Catalog) : ∃ numbers : List ℕ,
    c.manifest.segmentFiles = numbers.map segmentFilename ∧ numbers.Pairwise (· < ·) ∧
      ∀ n ∈ numbers, 1 ≤ n ∧ n ≤ c.generation := by
  refine ⟨c.layers.map Layer.number, ?_, List.pairwise_map.2 c.increasing, fun n hn ↦ ?_⟩
  · show c.layers.map Layer.name = _
    rw [List.map_map]
    rfl
  · obtain ⟨l, hl, rfl⟩ := List.mem_map.1 hn
    exact c.numbered l hl

theorem Catalog.notMem_of_not_isSegmentName (c : Catalog) {name : Bytes} (h : ¬IsSegmentName name) :
    name ∉ c.manifest.segmentFiles := by
  intro hmem
  obtain ⟨l, -, rfl⟩ := List.mem_map.1 hmem
  exact h (isSegmentName_segmentFilename l.number)

theorem Catalog.temporaryName_notMem (c : Catalog) (name : Bytes) :
    temporaryName name ∉ c.manifest.segmentFiles := by
  intro hmem
  obtain ⟨l, -, hl⟩ := List.mem_map.1 hmem
  exact l.name_ne_temporaryName name hl

/-- **The next number is free.** -/
theorem Catalog.next_notMem (c : Catalog) :
    segmentFilename (c.generation + 1) ∉ c.manifest.segmentFiles := by
  intro hmem
  obtain ⟨l, hl, heq⟩ := List.mem_map.1 hmem
  have hle := (c.numbered l hl).2
  have hnumber : l.number = c.generation + 1 := segmentFilename_injective heq
  omega

/-- **A move touches no live segment.** -/
theorem Move.notMem_live (hmove : Move st step st') {name : Bytes} (hname : name ∈ step.touches) :
    name ∉ st.catalog.manifest.segmentFiles := by
  cases hmove with
  | createWal | appendWal | trimWal | resetWal =>
    rw [List.mem_singleton.1 hname]
    exact Catalog.notMem_of_not_isSegmentName _ not_isSegmentName_walName
  | stageFile | fillFile =>
    rw [List.mem_singleton.1 hname]
    exact Catalog.temporaryName_notMem _ _
  | @placeSegment c =>
    rcases List.mem_pair.1 hname with rfl | rfl
    · exact c.temporaryName_notMem _
    · exact c.next_notMem
  | @publishManifest c =>
    rcases List.mem_pair.1 hname with rfl | rfl
    · exact c.temporaryName_notMem _
    · exact c.notMem_of_not_isSegmentName not_isSegmentName_manifestName
  | removeFile _ hdead =>
    rw [List.mem_singleton.1 hname]
    exact hdead
  | syncWal | settleWal | sealFile | syncDirectory => simp [Step.touches] at hname

/-- **A move that touches the manifest** publishes a larger generation; every other move keeps the
manifest. -/
theorem Move.generation (hmove : Move st step st') :
    manifestName ∈ step.touches ∧ st.catalog.generation < st'.catalog.generation ∨
      manifestName ∉ step.touches ∧ st'.catalog.manifest = st.catalog.manifest := by
  have hsegment : ∀ {name : Bytes}, IsSegmentName name → manifestName ≠ name := fun h heq ↦
    not_isSegmentName_manifestName (heq ▸ h)
  cases hmove with
  | @publishManifest c _ _ c' hgeneration =>
    refine Or.inl ⟨List.mem_pair.2 (Or.inr rfl), ?_⟩
    show c.generation < c'.generation
    omega
  | @stageFile c _ _ target | @fillFile c _ _ target =>
    refine Or.inr ⟨fun hmem ↦ ?_, rfl⟩
    exact (c.temporaryName_pathOf_ne target).2 (List.mem_singleton.1 hmem).symm
  | placeSegment =>
    refine Or.inr ⟨fun hmem ↦ ?_, rfl⟩
    rcases List.mem_pair.1 hmem with heq | heq
    · exact hsegment (isSegmentName_temporaryName (isSegmentName_segmentFilename _)) heq
    · exact hsegment (isSegmentName_segmentFilename _) heq
  | removeFile hname =>
    exact Or.inr ⟨fun hmem ↦ hsegment hname (List.mem_singleton.1 hmem), rfl⟩
  | createWal | appendWal | trimWal | resetWal =>
    exact Or.inr ⟨fun hmem ↦ absurd (List.mem_singleton.1 hmem) (by decide), rfl⟩
  | syncWal | settleWal | sealFile | syncDirectory => exact Or.inr ⟨by simp [Step.touches], rfl⟩

/-- **Live segments are immutable.** Take any session, with failing calls and crashes anywhere, and
any step that was made in it. The manifest on disk before the step lists the names of distinct
numbers between 1 and its generation. The step — a write, a renaming, a removal — touches no file
that this manifest lists. If it touches the manifest, then the generation grows, and otherwise the
manifest stays. And the name that the engine would give to the next segment is never one of those
listed. -/
theorem live_segments_untouched (hf : Fresh f) (h : Session f history m) :
    m.disk.files = applyAll f m.disk.log ∧
    (∀ before step after, m.disk.log = before ++ step :: after →
      ∃ state state', loadManifestIn (applyAll f before) = .ok state ∧
        loadManifestIn (applyAll f (before ++ [step])) = .ok state' ∧
        (∃ numbers : List ℕ, state.segmentFiles = numbers.map segmentFilename ∧
          numbers.Pairwise (· < ·) ∧ ∀ n ∈ numbers, 1 ≤ n ∧ n ≤ state.generation) ∧
        (∀ name ∈ step.touches, name ∉ state.segmentFiles) ∧
        (manifestName ∈ step.touches ∧ state.generation < state'.generation ∨
          manifestName ∉ step.touches ∧ state' = state)) ∧
    ∀ e, m.engine = some e → e.failed = false → ∃ state, loadManifestIn m.disk.files = .ok state ∧
      ∀ name, e.nextSegmentFilename = .ok name → name ∉ state.segmentFiles := by
  obtain ⟨effects, -, hnow⟩ := h.standing_now hf
  obtain ⟨st, hat, -⟩ := hnow.reaches
  refine ⟨hat.files_eq, fun before step after hlog ↦ ?_, fun e he hfailed ↦ ?_⟩
  · obtain ⟨st₁, st₂, hbefore, hmove⟩ := hat.follows.move_of_mem hlog
    refine ⟨_, _, hbefore.holds.loadManifestIn_eq, (hbefore.move hmove).holds.loadManifestIn_eq,
      st₁.catalog.exists_numbers, fun name hname ↦ hmove.notMem_live hname, ?_⟩
    exact hmove.generation
  · obtain ⟨durability, c, log, -, -, rfl, hat⟩ := hnow.usable he hfailed
    refine ⟨_, hat.holds.loadManifestIn_eq, fun name hname ↦ ?_⟩
    rw [StorageEngine.nextSegmentFilename] at hname
    split at hname
    · cases hname
    · obtain rfl := Except.ok.inj hname
      exact c.next_notMem

/-- A session that publishes a second segment while the first is live. -/
theorem live_segments_untouched_crashedSession : ∃ m, Session OrderedMap.empty crashedSession m ∧
    (∃ e, m.engine = some e ∧ e.segments.length = 2) ∧
    ∀ before step after, m.disk.log = before ++ step :: after →
      ∃ state state', loadManifestIn (applyAll OrderedMap.empty before) = .ok state ∧
        loadManifestIn (applyAll OrderedMap.empty (before ++ [step])) = .ok state' ∧
        (∃ numbers : List ℕ, state.segmentFiles = numbers.map segmentFilename ∧
          numbers.Pairwise (· < ·) ∧ ∀ n ∈ numbers, 1 ≤ n ∧ n ≤ state.generation) ∧
        (∀ name ∈ step.touches, name ∉ state.segmentFiles) ∧
        (manifestName ∈ step.touches ∧ state.generation < state'.generation ∨
          manifestName ∉ step.touches ∧ state' = state) := by
  obtain ⟨m, h, e, he, -, hsegments⟩ := exists_crashedSession
  exact ⟨m, h, ⟨e, he, hsegments⟩, (live_segments_untouched fresh_empty h).2.1⟩

end ChronoStore
