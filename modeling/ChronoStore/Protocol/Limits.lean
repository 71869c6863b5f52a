import ChronoStore.Protocol.Invariants

/-!
# The limits of publication

Each file format has limits of its own, and nothing ties them together: the log accepts a record by
itself, a flush publishes all records since the last one, and a compaction publishes all segments at
once. So a put that was accepted does not promise that the next flush is.

Where no call fails, a flush returns exactly when its blocks fit one segment (`flush_returns_iff`),
and a compaction exactly when the merged blocks do (`compact_returns_iff`). Five records with series
keys close to the limit of the log show that the conditions are needed: each can be put and flushed
alone, but the index of a segment does not hold all five (`flush_of_longRecords`,
`compact_of_longRecords`).
-/

namespace ChronoStore

open FaultyDisk WriteHistory

variable {f : Directory} {history : List Entry} {m : Machine} {o : Origin}
    {puts : List WalPutRecord}
  {n : ℕ} {durability : WalDurability} {e : StorageEngine} {d : Disk Bytes UInt8}

/-! ### Returned or refused -/

/-- What a flush makes of the engine. -/
structure StorageEngine.Flushed (e₀ e : StorageEngine) : Prop where
  table_empty : e.memtable.isEmpty = true
  published : e₀.memtable.isEmpty = true ∧ e₀.SameContents e ∨
    e.manifest.generation = e₀.manifest.generation + 1 ∧ e.segments.length = e₀.segments.length + 1

/-- A flush without failing calls returns, or is refused. -/
theorem Usable.flush_cases (h : Usable o puts n durability e d) {sched : List Event}
    (hfail : ¬Failing sched) (hcrash : ¬Crashing sched) :
    (e.memtable.isEmpty = true ∨ e.Publishable) ∧
        (∃ e' w, StorageEngine.flush (e, ⟨d, sched⟩) = .ok () (e', w) ∧ e.Flushed e' ∧
          Usable o puts puts.length durability e' w.toDisk) ∨
      ¬(e.memtable.isEmpty = true ∨ e.Publishable) ∧
        ∃ err e' w, StorageEngine.flush (e, ⟨d, sched⟩) = .error (.exn err) (e', w) ∧
          err.IsRefusal ∧ e'.failed = true := by
  have hspec := spec_flush (S := sched) e e ⟨d, sched⟩ ⟨rfl, h⟩ (List.suffix_refl _)
  revert hspec
  rcases StorageEngine.flush (e, ⟨d, sched⟩) with ⟨_, e', w⟩ | ⟨err | -, e', w⟩
  · rintro ⟨⟨hwhy, hempty, husable⟩, -⟩
    exact Or.inl ⟨hwhy.imp And.left And.left, e', w, rfl, ⟨hempty, hwhy.imp_right And.right⟩,
      husable⟩
  · rintro ⟨hfailed, -, ⟨hS, -⟩ | ⟨hne, hnot, herr⟩⟩
    · exact absurd hS hfail
    · refine Or.inr ⟨?_, err, e', w, rfl, herr, hfailed⟩
      rintro (hempty | hpub)
      · rw [hne] at hempty
        cases hempty
      · exact hnot hpub
  · rintro ⟨hc, -⟩
    exact absurd hc hcrash

/-- The encoders accept what a compaction would publish: the segments are merged, the later ones
overwriting the earlier ones, and cut into blocks again. -/
def StorageEngine.Compactable (e : StorageEngine) (files : Directory) : Prop :=
  e.manifest.generation < 2 ^ 64 - 1 ∧ ∃ stored blocks, e.Stores files stored ∧
    blocksFromSnapshots (SeriesMap.snapshot (stored.flatten.foldl mergeBlock .empty)) = .ok blocks ∧
      SegmentAccepts blocks

/-- Layers are merged block by block. -/
theorem mergeLayers_eq (layers : List Layer) :
    mergeLayers layers = (layers.map Layer.blocks).flatten.foldl mergeBlock .empty := by
  rw [mergeLayers, List.foldl_flatten, List.foldl_map]

/-- What is stored is determined by the files. -/
theorem StorageEngine.Stores.unique {files : Directory} {stored stored' : List (List SegmentBlock)}
    (h : e.Stores files stored) (h' : e.Stores files stored') : stored = stored' := by
  have hblocks := h.blocks_eq
  have hblocks' := h'.blocks_eq
  clear h h'
  generalize e.segments = segments at hblocks hblocks'
  induction hblocks generalizing stored' with
  | nil =>
    cases hblocks'
    rfl
  | cons hhead _ ih =>
    cases hblocks' with
    | cons hhead' htail' =>
      rw [hhead] at hhead'
      rw [Except.ok.inj hhead', ih htail']

/-- Whether an engine can be compacted depends on its catalog. -/
theorem Holds.compactable_iff {files : Directory} {c : Catalog} {log : WalLog}
    (h : Holds files ⟨c, some log, none, .idle⟩) :
    (engineOf c log durability).Compactable files ↔ c.Compactable := by
  constructor
  · rintro ⟨hgen, stored, blocks, hstores, hblocks, hacc⟩
    refine ⟨hgen, blocks, ?_, hacc⟩
    rw [mergeLayers_eq, ← hstores.unique h.stores, hblocks]
  · rintro ⟨hgen, blocks, hblocks, hacc⟩
    exact ⟨hgen, _, blocks, h.stores, by rw [← mergeLayers_eq, hblocks], hacc⟩

/-- A compaction without failing calls returns, or is refused. -/
theorem Usable.compact_cases (h : Usable o puts n durability e d) {sched : List Event}
    (hfail : ¬Failing sched) (hcrash : ¬Crashing sched) :
    (e.segments.length ≤ 1 ∨ e.Compactable d.files) ∧
        (∃ e' w, StorageEngine.compact (e, ⟨d, sched⟩) = .ok () (e', w)) ∨
      ¬(e.segments.length ≤ 1 ∨ e.Compactable d.files) ∧
        ∃ err e' w, StorageEngine.compact (e, ⟨d, sched⟩) = .error (.exn err) (e', w) ∧
          err.IsRefusal ∧ e'.failed = true := by
  obtain ⟨c, log, -, htracks, rfl, hat⟩ := h
  have hlength : (engineOf c log durability).segments.length = c.layers.length := List.length_map _
  rw [hlength, hat.holds.compactable_iff]
  have hspec := spec_compactAt (S := sched) htracks
    (engineOf c log durability) ⟨d, sched⟩ ⟨rfl, hat⟩ (List.suffix_refl _)
  revert hspec
  rcases StorageEngine.compact (engineOf c log durability, ⟨d, sched⟩) with
    ⟨_, e', w⟩ | ⟨err | -, e', w⟩
  · rintro ⟨⟨_, hwhy, -⟩, -⟩
    exact Or.inl ⟨hwhy.imp And.left Catalog.Compacted.compactable, e', w, rfl⟩
  · rintro ⟨hfailed, -, ⟨hS, -⟩ | ⟨hmany, hnot, herr⟩⟩
    · exact absurd hS hfail
    · exact Or.inr ⟨not_or.2 ⟨hmany, hnot⟩, err, e', w, rfl, herr, hfailed⟩
  · rintro ⟨hc, -⟩
    exact absurd hc hcrash

/-! ### Sessions that put and flush -/

/-- The engine of a new store. -/
def newEngine : StorageEngine := ⟨.empty, {}, [], ⟨.buffered, 0, false⟩, 0, false⟩

/-- An engine that has just been opened. -/
theorem exists_opened : ∃ d durability, Session OrderedMap.empty [openCall] ⟨some newEngine, d⟩ ∧
    Usable fresh_empty.origin [] 0 durability newEngine d := by
  have hopen : Session OrderedMap.empty ([] ++ [openCall]) ⟨some newEngine, _⟩ :=
    Session.start.call rfl
  obtain ⟨durability, husable⟩ := hopen.usable_of_no_puts fresh_empty (by
    intro x hx
    rw [List.mem_singleton.1 hx]
    rfl) rfl rfl
  exact ⟨_, durability, hopen, husable⟩

/-- A record fits the log as long as the frames of all puts do. -/
theorem Usable.loggable (h : Usable o puts n durability e d) {r : WalPutRecord}
    (hacc : WalAccepts r)
    (hsmall : (walBytes (puts ++ [r])).length < 2 ^ 64) : e.Loggable r := by
  have hsize := h.sizeBytes_le
  simp only [walBytes, List.flatMap_append, List.length_append,
    List.flatMap_singleton] at hsize hsmall
  exact ⟨hacc, by omega⟩

/-- A session goes on with a put. -/
theorem Session.put (h : Session f history ⟨some e, d⟩) (husable : Usable o puts n durability e d)
    {r : WalPutRecord} (hr : e.Loggable r) :
    ∃ e' d', Session f (history ++ [putCall r]) ⟨some e', d'⟩ ∧ e.Grown r e' ∧
      Usable o (puts ++ [r]) 0 durability e' d' := by
  obtain ⟨e', w, hrun, hgrown, husable'⟩ := husable.exists_put hr
  refine ⟨e', w.toDisk, h.call ?_, hgrown, husable'.mono (Nat.zero_le _)⟩
  rw [putCall, Machine.perform, Option.map_some]
  dsimp only [Request.run]
  rw [hrun]

/-- A session goes on with a flush that fits. -/
theorem Session.flush (h : Session f history ⟨some e, d⟩) (husable : Usable o puts n durability e d)
    (hpub : e.Publishable) :
    ∃ e' d', Session f (history ++ [flushCall]) ⟨some e', d'⟩ ∧ e.Flushed e' ∧
      Usable o puts 0 durability e' d' := by
  rcases husable.flush_cases not_failing_nil not_crashing_nil with
    ⟨-, e', w, hrun, hflushed, husable'⟩ | ⟨hnot, -⟩
  · refine ⟨e', w.toDisk, h.call ?_, hflushed, husable'.mono (Nat.zero_le _)⟩
    rw [flushCall, Machine.perform, Option.map_some]
    dsimp only [Request.run]
    rw [hrun]
  · exact absurd (Or.inr hpub) hnot

/-- A session that only puts, into a new store. -/
theorem exists_puts (records : List WalPutRecord) (hacc : ∀ r ∈ records, WalAccepts r)
    (hsmall : (walBytes records).length < 2 ^ 64) :
    ∃ e d durability, Session OrderedMap.empty (openCall :: records.map putCall) ⟨some e, d⟩ ∧
      Usable fresh_empty.origin records 0 durability e d ∧
      e.memtable = .ofRecords records ∧ e.manifest = {} := by
  induction records using List.reverseRecOn with
  | nil =>
    obtain ⟨d, durability, hsession, husable⟩ := exists_opened
    exact ⟨newEngine, d, durability, hsession, husable, rfl, rfl⟩
  | append_singleton records r ih =>
    have hless : (walBytes records).length < 2 ^ 64 := by
      simp only [walBytes, List.flatMap_append, List.length_append] at hsmall ⊢
      omega
    obtain ⟨e, d, durability, hsession, husable, hmem, hman⟩ :=
      ih (fun r' hr' ↦ hacc r' (List.mem_append_left _ hr')) hless
    obtain ⟨e', d', hsession', hgrown, husable'⟩ :=
      hsession.put husable (husable.loggable (hacc r (by simp)) hsmall)
    refine ⟨e', d', durability, ?_, husable', ?_, hgrown.manifest_eq.trans hman⟩
    · rwa [List.map_append]
    · rw [hgrown.memtable_eq, hmem, MemTable.ofRecords_concat]

theorem Usable.memtable_eq_empty (h : Usable o puts n durability e d)
    (hempty : e.memtable.isEmpty = true) : e.memtable = .empty := by
  obtain ⟨c, log, -, -, rfl, -⟩ := h
  have hlen := log.length_records_lt
  unfold walHeaderSize at hlen
  have hrecords : log.records = [] := (MemTable.isEmpty_ofRecords (by omega)).1 hempty
  show MemTable.ofRecords log.records = .empty
  rw [hrecords, MemTable.ofRecords_nil]

/-- Where the table is empty, the segments alone say what was put. -/
theorem Tracks.contents_of_empty {c : Catalog} {log : WalLog} (h : Tracks puts n c (some log))
    (hempty : MemTable.ofRecords log.records = .empty) (k : Key) :
    lastWrite c.entries k = lastWrite (historyOf puts) k := by
  have hnone : lastWrite (historyOf log.records) k = none := by
    have hfind := MemTable.find_ofRecords log.records k
    rw [hempty] at hfind
    exact hfind.symm
  rw [← h.contents k, lastWrite_append]
  show _ = (lastWrite (historyOf log.records) k).or _
  rw [hnone, Option.none_or]

/-- The manifest names the segments that are open. -/
theorem Usable.length_segmentFiles (h : Usable o puts n durability e d) :
    e.manifest.segmentFiles.length = e.segments.length := by
  obtain ⟨c, log, -, -, rfl, -⟩ := h
  show (c.layers.map Layer.name).length = (c.layers.map Layer.reader).length
  rw [List.length_map, List.length_map]

/-- The block of a single record. -/
def WalPutRecord.block (r : WalPutRecord) : SegmentBlock where
  series := r.series
  samples := [r.sample]
  samples_ne_nil := List.cons_ne_nil _ _
  length_le := by
    rw [List.length_singleton]
    decide
  sorted := List.pairwise_singleton _ _

/-- One record makes one block. -/
theorem blocksFromSnapshots_single (r : WalPutRecord) :
    blocksFromSnapshots [⟨r.series, [r.sample]⟩] = .ok [r.block] := by
  have hmake : SegmentBlock.make r.series [r.sample] = .ok r.block :=
    SegmentBlock.make_of r.series r.block.samples_ne_nil r.block.length_le r.block.sorted
  have hsamples : blocksFromSamples r.series 1 [r.sample] = .ok [r.block] := by
    rw [blocksFromSamples, if_neg (List.cons_ne_nil _ _)]
    show (do
      let block ← SegmentBlock.make r.series [r.sample]
      let rest ← blocksFromSamples r.series 0 []
      return block :: rest) = _
    rw [hmake]
    rfl
  show (do
    let blocks ← blocksFromSamples r.series 1 [r.sample]
    let rest ← blocksFromSnapshots []
    return blocks ++ rest) = _
  rw [hsamples]
  rfl

/-- **A record that the log accepts fits a segment of its own.** -/
theorem WalAccepts.block {r : WalPutRecord} (h : WalAccepts r) : SegmentAccepts [r.block] := by
  have hpayload := length_walPayload r
  unfold WalAccepts walMaxPayloadSize at h
  refine ⟨List.cons_ne_nil _ _, ?_, List.pairwise_singleton _ _, fun block hblock ↦ ?_, ?_⟩
  · rw [List.length_singleton]
    decide
  · rw [List.mem_singleton.1 hblock]
    have hlen : (blockPayload r.block).length = (seriesKeyBytes r.series).length + 16 :=
      length_blockPayload r.block
    unfold BlockAccepts maxSegmentBlockPayloadSize
    omega
  · have hlen : (indexPayload (segmentIndex [r.block])).length =
        32 + (seriesKeyBytes r.series).length := length_indexPayload_segmentIndex [r.block]
    unfold IndexAccepts maxIndexPayloadSize
    omega

/-- A session that flushes after every put, into a new store. -/
theorem exists_rounds (records : List WalPutRecord) (hacc : ∀ r ∈ records, WalAccepts r)
    (hsmall : (walBytes records).length < 2 ^ 64) (hcount : records.length < maxManifestSegments) :
    ∃ e d durability,
      Session OrderedMap.empty (openCall :: records.flatMap fun r ↦ [putCall r, flushCall])
        ⟨some e, d⟩ ∧
      Usable fresh_empty.origin records 0 durability e d ∧ e.memtable = .empty ∧
      e.manifest.generation = records.length ∧ e.segments.length = records.length := by
  induction records using List.reverseRecOn with
  | nil =>
    obtain ⟨d, durability, hsession, husable⟩ := exists_opened
    exact ⟨newEngine, d, durability, hsession, husable, rfl, rfl, rfl⟩
  | append_singleton records r ih =>
    have hless : (walBytes records).length < 2 ^ 64 := by
      simp only [walBytes, List.flatMap_append, List.length_append] at hsmall ⊢
      omega
    rw [List.length_append, List.length_singleton] at hcount
    obtain ⟨e, d, durability, hsession, husable, hempty, hgen, hlen⟩ :=
      ih (fun r' hr' ↦ hacc r' (List.mem_append_left _ hr')) hless (by omega)
    obtain ⟨e', d', hsession', hgrown, husable'⟩ :=
      hsession.put husable (husable.loggable (hacc r (by simp)) hsmall)
    have hmem : e'.memtable = MemTable.empty.put r.series r.sample := by
      rw [hgrown.memtable_eq, hempty]
    have hpub : e'.Publishable := by
      refine ⟨?_, ?_, [r.block], ?_, (hacc r (by simp)).block⟩
      · rw [hgrown.manifest_eq, hgen]
        unfold maxManifestSegments at hcount
        omega
      · rw [husable'.length_segmentFiles, hgrown.segments_eq, hlen]
        omega
      · rw [StorageEngine.makeMemtableBlocks, hmem]
        exact blocksFromSnapshots_single r
    obtain ⟨e'', d'', hsession'', hflushed, husable''⟩ := hsession'.flush husable' hpub
    rcases hflushed.published with ⟨hnone, -⟩ | ⟨hgen', hlen'⟩
    · rw [hmem] at hnone
      cases hnone
    refine ⟨e'', d'', durability, ?_, husable'',
      husable''.memtable_eq_empty hflushed.table_empty, ?_, ?_⟩
    · rw [List.flatMap_append, List.flatMap_singleton]
      rwa [List.cons_append, List.cons_append, List.append_assoc] at hsession''
    · rw [hgen', hgrown.manifest_eq, hgen, List.length_append, List.length_singleton]
    · rw [hlen', hgrown.segments_eq, hlen, List.length_append, List.length_singleton]

/-! ### Series keys that are too long together -/

/-- A series whose key is almost as long as the log allows. -/
def longSeries (i : ℕ) : SeriesKey :=
  { cpuSeries with
    measurement := ascii "cpu" ++ List.replicate (16776997 + i) (UInt8.ofNat 0x61)
    measurement_ne_nil := List.append_ne_nil_of_left_ne_nil cpuSeries.measurement_ne_nil _ }

theorem length_longSeries (i : ℕ) : (seriesKeyBytes (longSeries i)).length = 16777008 + i := by
  rw [length_seriesKeyBytes]
  show 8 + (ascii "cpu" ++ List.replicate (16776997 + i) _).length + 0 = _
  have hcpu : (ascii "cpu").length = 3 := by decide
  rw [List.length_append, List.length_replicate, hcpu]
  omega

/-- The series are different. -/
theorem longSeries_injective : Function.Injective longSeries := by
  intro i j h
  have hlen := length_longSeries i
  rw [h, length_longSeries j] at hlen
  omega

/-- Five records with long keys. -/
def longRecords : List WalPutRecord := (List.range 5).map fun i ↦ ⟨longSeries i, cpuSample⟩

/-- Each of the records fits into the log. -/
theorem walAccepts_of_mem_longRecords : ∀ r ∈ longRecords, WalAccepts r := by
  intro r hr
  obtain ⟨i, hi, rfl⟩ := List.mem_map.1 hr
  have hlt := List.mem_range.1 hi
  have hlen := length_walPayload ⟨longSeries i, cpuSample⟩
  rw [length_longSeries] at hlen
  unfold WalAccepts walMaxPayloadSize
  omega

/-- All of them together are no longer than a log can be. -/
theorem length_walBytes_longRecords : (walBytes longRecords).length < 2 ^ 64 := by
  have hframe : ∀ n ∈ longRecords.map fun r ↦ (walFrame r).length, n ≤ 2 ^ 25 := by
    intro n hn
    obtain ⟨r, hr, rfl⟩ := List.mem_map.1 hn
    have hacc := walAccepts_of_mem_longRecords r hr
    have hlen := length_walFrame r
    unfold WalAccepts walMaxPayloadSize at hacc
    unfold walHeaderSize walChecksumSize at hlen
    omega
  have hsum := List.sum_le_card_nsmul _ _ hframe
  rw [List.length_map, ← List.length_flatMap, longRecords, List.length_map,
    List.length_range] at hsum
  exact lt_of_le_of_lt hsum (by decide)

/-- The index of a segment holds the keys of all its series. -/
theorem SegmentAccepts.sum_le {blocks : List SegmentBlock} (h : SegmentAccepts blocks)
    {series : List SeriesKey} (hnodup : series.Nodup)
    (hsub : ∀ s ∈ series, s ∈ blocks.map SegmentBlock.series) :
    (series.map fun s ↦ 32 + (seriesKeyBytes s).length).sum ≤ maxIndexPayloadSize := by
  have hindex := h.index_accepted
  rw [IndexAccepts, length_indexPayload_segmentIndex] at hindex
  obtain ⟨sub, hperm, hsublist⟩ := List.subperm_of_subset hnodup hsub
  have hle := (hsublist.map fun s ↦ 32 + (seriesKeyBytes s).length).sum_le_sum fun _ _ ↦
    Nat.zero_le _
  rw [(hperm.map _).sum_eq, List.map_map] at hle
  exact hle.trans hindex

/-- **No segment holds the five series.** -/
theorem not_segmentAccepts_longRecords {blocks : List SegmentBlock}
    (hsame : ∀ k, lastWrite (entriesOf blocks) k = lastWrite (historyOf longRecords) k) :
    ¬SegmentAccepts blocks := by
  intro hacc
  have hsub : ∀ s ∈ (List.range 5).map longSeries, s ∈ blocks.map SegmentBlock.series := by
    intro s hs
    obtain ⟨i, hi, rfl⟩ := List.mem_map.1 hs
    have hkey : (longSeries i, cpuSample.timestamp) ∈ keys (historyOf longRecords) := by
      refine List.mem_toFinset.2
        (List.mem_map.2 ⟨WalPutRecord.entry ⟨longSeries i, cpuSample⟩, ?_, rfl⟩)
      exact List.mem_map_of_mem (List.mem_map.2 ⟨i, hi, rfl⟩)
    rw [← keys_congr hsame] at hkey
    obtain ⟨⟨k, v⟩, hentry, hk⟩ := List.mem_map.1 (List.mem_toFinset.1 hkey)
    obtain rfl : k = (longSeries i, cpuSample.timestamp) := hk
    obtain ⟨block, hblock, hin⟩ := List.mem_flatMap.1 hentry
    exact List.mem_map.2 ⟨block, hblock, (mem_blockEntries hin).1.symm⟩
  have hsum := hacc.sum_le (List.nodup_range.map longSeries_injective) hsub
  simp only [length_longSeries, List.range_succ, List.range_zero,
    List.nil_append, List.cons_append, List.map_cons, List.map_nil, List.sum_cons, List.sum_nil,
    maxIndexPayloadSize] at hsum
  omega

/-! ### When a flush returns -/

/-- **When a flush returns.** Take any session, and a flush that meets no failing call and no crash.
It returns if and only if there is nothing to publish, or a number and a place in the manifest are
left and the blocks that are cut from the table fit one segment. Otherwise it throws one of the
exceptions of the encoders, and the engine has failed. -/
theorem flush_returns_iff (hf : Fresh f) (h : Session f history m) (he : m.engine = some e)
    (hfailed : e.failed = false) {sched : List Event} (hfail : ¬Failing sched)
    (hcrash : ¬Crashing sched) :
    ((∃ e' w, StorageEngine.flush (e, ⟨m.disk, sched⟩) = .ok () (e', w)) ↔
        e.memtable.isEmpty = true ∨ e.Publishable) ∧
      (¬(e.memtable.isEmpty = true ∨ e.Publishable) →
        ∃ err e' w, StorageEngine.flush (e, ⟨m.disk, sched⟩) = .error (.exn err) (e', w) ∧
          err.IsRefusal ∧ e'.failed = true) := by
  obtain ⟨puts, durability, husable⟩ := h.usable hf he hfailed
  rcases husable.flush_cases hfail hcrash with
    ⟨hfit, e', w, hrun, -⟩ | ⟨hnot, err, e', w, hrun, hrefused⟩
  · exact ⟨⟨fun _ ↦ hfit, fun _ ↦ ⟨e', w, hrun⟩⟩, fun hnot ↦ absurd hfit hnot⟩
  · refine ⟨⟨fun hreturns ↦ ?_, fun hfit ↦ absurd hfit hnot⟩, fun _ ↦ ⟨err, e', w, hrun, hrefused⟩⟩
    obtain ⟨e'', w', hreturns⟩ := hreturns
    rw [hrun] at hreturns
    cases hreturns

/-- A flush of three records of two series. -/
theorem flush_returns_iff_cpu : ∃ e d,
    Session OrderedMap.empty (openCall :: [cpuRecord, laterRecord, ioRecord].map putCall)
      ⟨some e, d⟩ ∧
      e.memtable.isEmpty = false ∧
      ∃ e' w, StorageEngine.flush (e, ⟨d, []⟩) = .ok () (e', w) := by
  have hacc : ∀ r ∈ [cpuRecord, laterRecord, ioRecord], WalAccepts r := by decide +kernel
  obtain ⟨e, d, durability, hsession, husable, hmem, hman⟩ :=
    exists_puts [cpuRecord, laterRecord, ioRecord] hacc (by decide +kernel)
  refine ⟨e, d, hsession, by rw [hmem]; rfl, ?_⟩
  have hpub : e.Publishable := by
    refine ⟨by rw [hman]; decide, by rw [hman]; decide,
      [⟨cpuSeries, [cpuSample, laterSample], by simp, by decide, by decide⟩,
        ⟨ioSeries, [laterSample], by simp, by decide, by decide⟩], ?_, by decide +kernel⟩
    rw [StorageEngine.makeMemtableBlocks, hmem]
    rfl
  exact (flush_returns_iff fresh_empty hsession rfl husable.failed_eq not_failing_nil
    not_crashing_nil).1.2 (Or.inr hpub)

/-- **Five accepted puts that cannot be published**, although nothing fails. -/
theorem flush_of_longRecords : ∃ e d,
    Session OrderedMap.empty (openCall :: longRecords.map putCall) ⟨some e, d⟩ ∧
      (∀ x ∈ openCall :: longRecords.map putCall, x.outcome = .returned) ∧
      ∃ err e' w, StorageEngine.flush (e, ⟨d, []⟩) = .error (.exn err) (e', w) ∧
        err.IsRefusal ∧ e'.failed = true := by
  obtain ⟨e, d, durability, hsession, husable, hmem, -⟩ :=
    exists_puts longRecords walAccepts_of_mem_longRecords length_walBytes_longRecords
  refine ⟨e, d, hsession, by simp [openCall, putCall], ?_⟩
  rcases husable.flush_cases not_failing_nil not_crashing_nil with ⟨hfit, -⟩ | ⟨-, hrefused⟩
  · exfalso
    rcases hfit with hempty | ⟨-, -, blocks, hblocks, hacc⟩
    · rw [hmem, MemTable.isEmpty_ofRecords (by decide)] at hempty
      cases hempty
    · have hcut : blocksFromSnapshots e.memtable.series.snapshot = .ok blocks := hblocks
      refine not_segmentAccepts_longRecords (fun k ↦ ?_) hacc
      rw [entriesOf_of_blocksFromSnapshots hcut, SeriesMap.lastWrite_pairs, hmem,
        MemTable.find_ofRecords]
      rfl
  · exact hrefused

/-! ### When a compaction returns -/

/-- **When a compaction returns.** Take any session, and a compaction that meets no failing call and
no crash. It returns if and only if there is at most one segment, or a number is left and the blocks
that are cut from all segments together fit one segment. Otherwise it throws one of the exceptions
of the encoders, and the engine has failed. -/
theorem compact_returns_iff (hf : Fresh f) (h : Session f history m) (he : m.engine = some e)
    (hfailed : e.failed = false) {sched : List Event} (hfail : ¬Failing sched)
    (hcrash : ¬Crashing sched) :
    ((∃ e' w, StorageEngine.compact (e, ⟨m.disk, sched⟩) = .ok () (e', w)) ↔
        e.segments.length ≤ 1 ∨ e.Compactable m.disk.files) ∧
      (¬(e.segments.length ≤ 1 ∨ e.Compactable m.disk.files) →
        ∃ err e' w, StorageEngine.compact (e, ⟨m.disk, sched⟩) = .error (.exn err) (e', w) ∧
          err.IsRefusal ∧ e'.failed = true) := by
  obtain ⟨puts, durability, husable⟩ := h.usable hf he hfailed
  rcases husable.compact_cases hfail hcrash with
    ⟨hfit, hreturns⟩ | ⟨hnot, err, e', w, hrun, hrefused⟩
  · exact ⟨⟨fun _ ↦ hfit, fun _ ↦ hreturns⟩, fun hnot ↦ absurd hfit hnot⟩
  · refine ⟨⟨fun hreturns ↦ ?_, fun hfit ↦ absurd hfit hnot⟩, fun _ ↦ ⟨err, e', w, hrun, hrefused⟩⟩
    obtain ⟨e'', w', hreturns⟩ := hreturns
    rw [hrun] at hreturns
    cases hreturns

/-- A compaction of two segments, of which the second replaces a sample of the first. -/
theorem compact_returns_iff_cpu : ∃ m e,
    Session OrderedMap.empty [openCall, putCall cpuRecord, putCall laterRecord, flushCall,
        putCall replacingRecord, flushCall] m ∧
      m.engine = some e ∧ e.segments.length = 2 ∧
      (∃ e' w, StorageEngine.compact (e, ⟨m.disk, []⟩) = .ok () (e', w)) ∧
      e.Compactable m.disk.files := by
  obtain ⟨m, h, hend⟩ := @exists_session OrderedMap.empty (compactedSession.take 6)
    (fun m ↦ (m.engine.any fun e ↦ e.failed = false ∧ e.segments.length = 2) &&
      (m.runs [compactCall]).isSome) (by decide +kernel)
  obtain ⟨hengine, hruns⟩ := Bool.and_eq_true_iff.1 hend
  obtain ⟨e, he, hcounts⟩ := (Option.any_eq_true _ _).1 hengine
  obtain ⟨hfailed, hsegments⟩ := of_decide_eq_true hcounts
  obtain ⟨m', hcompact⟩ := Option.isSome_iff_exists.1 hruns
  obtain ⟨e₁, e', w, he₁, hrun⟩ := Machine.run_of_returned (Machine.runs_singleton.1 hcompact)
  obtain rfl : e₁ = e := Option.some.inj (he₁.symm.trans he)
  have hreturns : ∃ e' w, StorageEngine.compact (e₁, ⟨m.disk, []⟩) = .ok () (e', w) := ⟨e', w, hrun⟩
  refine ⟨m, e₁, h, he, hsegments, hreturns, ?_⟩
  exact ((compact_returns_iff fresh_empty h he hfailed not_failing_nil
    not_crashing_nil).1.1 hreturns).resolve_left (by omega)

/-- **Five segments that cannot be compacted**, although nothing fails. -/
theorem compact_of_longRecords : ∃ e d,
    Session OrderedMap.empty (openCall :: longRecords.flatMap fun r ↦ [putCall r, flushCall])
        ⟨some e, d⟩ ∧
      (∀ x ∈ openCall :: longRecords.flatMap fun r ↦ [putCall r, flushCall],
        x.outcome = .returned) ∧
      ∃ err e' w, StorageEngine.compact (e, ⟨d, []⟩) = .error (.exn err) (e', w) ∧
        err.IsRefusal ∧ e'.failed = true := by
  obtain ⟨e, d, durability, hsession, husable, hempty, -, hlen⟩ := exists_rounds longRecords
    walAccepts_of_mem_longRecords length_walBytes_longRecords (by decide)
  refine ⟨e, d, hsession, ?_, ?_⟩
  · intro x hx
    rcases List.mem_cons.1 hx with rfl | hx
    · rfl
    · obtain ⟨r, -, hx⟩ := List.mem_flatMap.1 hx
      rcases List.mem_pair.1 hx with rfl | rfl <;> rfl
  · rcases husable.compact_cases not_failing_nil not_crashing_nil with ⟨hfit, -⟩ | ⟨-, hrefused⟩
    · exfalso
      rcases hfit with hfew | hcomp
      · rw [hlen] at hfew
        exact absurd hfew (by decide)
      · obtain ⟨c, log, -, htracks, rfl, hat⟩ := husable
        obtain ⟨-, blocks, hblocks, hacc⟩ := hat.holds.compactable_iff.1 hcomp
        refine not_segmentAccepts_longRecords (fun k ↦ ?_) hacc
        rw [lastWrite_compacted (entriesOf_of_blocksFromSnapshots hblocks)]
        exact htracks.contents_of_empty hempty k
    · exact hrefused

end ChronoStore
