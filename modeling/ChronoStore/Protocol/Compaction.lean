import ChronoStore.Engine.Splitting
import ChronoStore.Protocol.Limits

/-!
# What a compaction does

A compaction that returns leaves a single segment, and nothing but the segments has changed. The
segment is the overlay of the old ones (`IsOverlay`): each key that any of them holds, once, with
the value from the newest that holds it, cut into blocks anew. Every query answers as before
(`SameAnswers`), because the engine before and the engine after answer for the same history.

The engine after is known from the specification of `compact` at a stage (`spec_compactAt`); what
the layer holds that replaces the others follows from the map that was cut (`SeriesMap.SplitInto`).
-/

namespace ChronoStore

open FaultyDisk WriteHistory

/-! ### The same answers -/

/-- A history determines the last sample of a series. -/
theorem IsLatest.unique {h : List (Key × Value)} {s : SeriesKey} {r r' : Option Sample}
    (hr : IsLatest h s r) (hr' : IsLatest h s r') : r = r' := by
  cases r with
  | none =>
    cases r' with
    | none => rfl
    | some x =>
      have := hr x.timestamp
      rw [hr'.1] at this
      cases this
  | some x =>
    cases r' with
    | none =>
      have := hr' x.timestamp
      rw [hr.1] at this
      cases this
    | some y =>
      have hxy : x.timestamp ≤ y.timestamp := hr'.2 _ (by rw [hr.1]; simp)
      have hyx : y.timestamp ≤ x.timestamp := hr.2 _ (by rw [hr'.1]; simp)
      have ht := le_antisymm hxy hyx
      have hv := hr.1
      rw [ht, hr'.1] at hv
      exact congrArg some (Sample.ext ht (Option.some.inj hv).symm)

/-- A history determines the samples of an interval. -/
theorem IsRange.unique {h : List (Key × Value)} {s : SeriesKey} {start stop : Timestamp}
    {r r' : List Sample} (hr : IsRange h s start stop r) (hr' : IsRange h s start stop r') :
    r = r' :=
  SortedList.eq_of_mem_iff hr.sorted hr'.sorted fun x ↦ (hr.mem_iff x).trans (hr'.mem_iff x).symm

/-- A history determines the list of series. -/
theorem IsSeries.unique {h : List (Key × Value)} {r r' : List SeriesKey} (hr : IsSeries h r)
    (hr' : IsSeries h r') : r = r' :=
  SortedList.eq_of_mem_iff (f := id) hr.sorted hr'.sorted
    fun s ↦ (hr.mem_iff s).trans (hr'.mem_iff s).symm

theorem isSeries_singleton (k : Key) (v : Value) : IsSeries [(k, v)] [k.1] where
  sorted := List.pairwise_singleton _ _
  mem_iff s := by
    simp only [List.mem_singleton, lastWrite_singleton]
    constructor
    · rintro rfl
      exact ⟨k.2, by simp⟩
    · rintro ⟨t, ht⟩
      by_contra hne
      exact ht (if_neg fun hk ↦ hne (by rw [hk]))

/-- A query gives the same answer at both engines. -/
def SameAnswer {α : Type} (query : Prog StorageEngine α) (e : StorageEngine) (d : Disk Bytes UInt8)
    (e' : StorageEngine) (d' : Disk Bytes UInt8) : Prop :=
  ∃ r, Returns query e d r ∧ Returns query e' d' r

/-- Both engines give the same answer to every query; to a range whose end precedes its start, that
is an exception. -/
structure SameAnswers (e : StorageEngine) (d : Disk Bytes UInt8) (e' : StorageEngine)
    (d' : Disk Bytes UInt8) : Prop where
  get : ∀ s t, SameAnswer (StorageEngine.get s t) e d e' d'
  latest : ∀ s, SameAnswer (StorageEngine.latest s) e d e' d'
  range : ∀ s start stop, start ≤ stop → SameAnswer (StorageEngine.range s start stop) e d e' d'
  range_refused : ∀ s start stop, stop < start → ∃ err, ∀ sched,
    StorageEngine.range s start stop (e, ⟨d, sched⟩) = .error (.exn err) (e, ⟨d, sched⟩) ∧
      StorageEngine.range s start stop (e', ⟨d', sched⟩) = .error (.exn err) (e', ⟨d', sched⟩)
  series : SameAnswer StorageEngine.series e d e' d'
  sampleCount : SameAnswer StorageEngine.sampleCount e d e' d'
  memtableSampleCount : SameAnswer StorageEngine.memtableSampleCount e d e' d'
  empty : SameAnswer StorageEngine.empty e d e' d'
  walSizeBytes : SameAnswer StorageEngine.walSizeBytes e d e' d'

/-- A reversed interval is refused before anything is read. -/
theorem range_of_lt {e : StorageEngine} (he : e.failed = false) (s : SeriesKey)
    {start stop : Timestamp} (h : stop < start) (w : World Bytes UInt8) :
    StorageEngine.range s start stop (e, w) =
      .error (.exn (.invalidArgument "range end must not precede range start")) (e, w) := by
  rw [StorageEngine.range, StorageEngine.ensureUsable_bind he, if_pos h]
  rfl

/-- A query that only looks at the engine. -/
theorem returns_of_state {α : Type} {e : StorageEngine} (he : e.failed = false)
    (d : Disk Bytes UInt8)
    (g : StorageEngine → α) :
    Returns (do
      StorageEngine.ensureUsable
      return g (← Act.state)) e d (g e) :=
  Returns.usable_bind he fun sched _ _ ↦ ⟨sched, rfl⟩

/-- **Engines that answer for the same history** give the same answers. -/
theorem Answers.same {e e' : StorageEngine} {d d' : Disk Bytes UInt8} {history : List (Key × Value)}
    (h : Answers e d history) (h' : Answers e' d' history) (he : e.failed = false)
    (he' : e'.failed = false) (hmem : e'.memtable = e.memtable)
    (hcount : e'.logicalSampleCount = e.logicalSampleCount) (hwal : e'.walWriter = e.walWriter) :
    SameAnswers e d e' d' where
  get s t := ⟨_, h.get s t, h'.get s t⟩
  latest s := by
    obtain ⟨r, hr, hlatest⟩ := h.latest s
    obtain ⟨r', hr', hlatest'⟩ := h'.latest s
    obtain rfl := hlatest.unique hlatest'
    exact ⟨r, hr, hr'⟩
  range s start stop hle := by
    obtain ⟨r, hr, hrange⟩ := h.range s start stop hle
    obtain ⟨r', hr', hrange'⟩ := h'.range s start stop hle
    obtain rfl := hrange.unique hrange'
    exact ⟨r, hr, hr'⟩
  range_refused s start stop hlt :=
    ⟨_, fun _ ↦ ⟨range_of_lt he s hlt _, range_of_lt he' s hlt _⟩⟩
  series := by
    obtain ⟨r, hr, hseries⟩ := h.series
    obtain ⟨r', hr', hseries'⟩ := h'.series
    obtain rfl := hseries.unique hseries'
    exact ⟨r, hr, hr'⟩
  sampleCount := ⟨_, h.sampleCount, h'.sampleCount⟩
  memtableSampleCount := ⟨_, returns_of_state he d fun e ↦ e.memtable.sampleCount, by
    rw [← hmem]
    exact returns_of_state he' d' fun e ↦ e.memtable.sampleCount⟩
  empty := ⟨_, returns_of_state he d fun e ↦ decide (e.logicalSampleCount = 0), by
    rw [← hcount]
    exact returns_of_state he' d' fun e ↦ decide (e.logicalSampleCount = 0)⟩
  walSizeBytes := ⟨_, returns_of_state he d fun e ↦ e.walWriter.sizeBytes, by
    rw [← hwal]
    exact returns_of_state he' d' fun e ↦ e.walWriter.sizeBytes⟩

/-! ### The overlay of segments -/

/-- The blocks hold each key of the segments, given from the oldest to the newest, once and with the
value from the newest segment that holds it, in canonical order, and in full blocks up to the last
of each series. -/
structure IsOverlay (segments : List (List SegmentBlock)) (blocks : List SegmentBlock) : Prop where
  once : ((entriesOf blocks).map Prod.fst).Nodup
  newest : ∀ k v, (k, v) ∈ entriesOf blocks ↔ ∃ older segment newer,
    segments = older ++ segment :: newer ∧ (k, v) ∈ entriesOf segment ∧
      ∀ s ∈ newer, k ∉ keys (entriesOf s)
  ordered : blocks.Pairwise SegmentBlock.Before
  sizes : ∀ b ∈ blocks, 1 ≤ b.sampleCount ∧ b.sampleCount ≤ maxSamplesPerSegmentBlock
  full : ∀ s, ∀ b ∈ (blocks.filter fun b ↦ b.series = s).dropLast,
    b.sampleCount = maxSamplesPerSegmentBlock

/-- The entries of layers, from the oldest to the newest. -/
theorem layeredEntries_eq_flatten (layers : List Layer) :
    layeredEntries layers = ((layers.map Layer.blocks).map entriesOf).flatten := by
  rw [layeredEntries, List.flatMap, List.map_map]
  rfl

/-- **What is cut from the merged layers** is their overlay. -/
theorem isOverlay_of_mergeLayers {layers : List Layer} {l : Layer}
    (h : blocksFromSnapshots (mergeLayers layers).snapshot = .ok l.blocks) :
    IsOverlay (layers.map Layer.blocks) l.blocks := by
  obtain ⟨blocks', hok', hsplit⟩ := (mergeLayers layers).exists_splitInto
  obtain rfl : l.blocks = blocks' := Except.ok.inj (h.symm.trans hok')
  have hnodup : ∀ entries ∈ (layers.map Layer.blocks).map entriesOf,
      (entries.map Prod.fst).Nodup := by
    intro entries hmem
    obtain ⟨blocks, hblocks, rfl⟩ := List.mem_map.1 hmem
    obtain ⟨l', -, rfl⟩ := List.mem_map.1 hblocks
    exact entriesOf_nodup l'.accepted.ordered
  refine ⟨entriesOf_nodup l.accepted.ordered, fun k v ↦ ?_, l.accepted.ordered, hsplit.sizes,
    hsplit.full⟩
  rw [← lastWrite_eq_some_iff (entriesOf_nodup l.accepted.ordered),
    entriesOf_of_blocksFromSnapshots h, SeriesMap.lastWrite_pairs, find_mergeLayers,
    layeredEntries_eq_flatten, lastWrite_flatten_eq_some_iff hnodup]
  constructor
  · rintro ⟨older, segment, newer, heq, hmem, hnew⟩
    obtain ⟨older', rest, hsplit, rfl, hrest⟩ := List.map_eq_append_iff.1 heq
    obtain ⟨segment', newer', rfl, rfl, rfl⟩ := List.map_eq_cons_iff.1 hrest
    exact ⟨older', segment', newer', hsplit, hmem, fun s hs ↦ hnew _ (List.mem_map_of_mem hs)⟩
  · rintro ⟨older, segment, newer, heq, hmem, hnew⟩
    refine ⟨older.map entriesOf, entriesOf segment, newer.map entriesOf, ?_, hmem,
      List.forall_mem_map.2 hnew⟩
    rw [heq, List.map_append, List.map_cons]

/-! ### Compaction -/

/-- What a compaction makes of an engine and a disk, when the live segments were `segments`. -/
structure StorageEngine.CompactedTo (segments : List (List SegmentBlock)) (e : StorageEngine)
    (d : Disk Bytes UInt8) (e' : StorageEngine) (d' : Disk Bytes UInt8) : Prop where
  single : ∃ reader blocks, e'.segments = [reader] ∧ e'.Stores d'.files [blocks] ∧
    IsOverlay segments blocks ∧ reader.sampleCount = e'.manifest.logicalSampleCount
  generation_eq : e'.manifest.generation = e.manifest.generation + 1
  memtable_eq : e'.memtable = e.memtable
  logicalSampleCount_eq : e'.logicalSampleCount = e.logicalSampleCount
  walWriter_eq : e'.walWriter = e.walWriter
  wal_eq : d'.files.find? walName = d.files.find? walName
  usable : e'.failed = false
  answers : SameAnswers e d e' d'

/-- The sample count of the only layer is the count of its catalog. -/
theorem Layer.sampleCount_reader {l : Layer} {c : Catalog} (h : c.layers = [l]) :
    l.reader.sampleCount = c.manifest.logicalSampleCount := by
  have hentries : c.entries = entriesOf l.blocks := by
    rw [Catalog.entries, h]
    exact List.append_nil _
  show countSamples l.blocks = (keys c.entries).card
  rw [hentries, card_keys_of_nodup (entriesOf_nodup l.accepted.ordered), length_entriesOf]

/-- A compacted catalog says what the catalog said. -/
theorem Catalog.Compacted.lastWrite_eq {c c' : Catalog} (h : c.Compacted c') (k : Key) :
    lastWrite c'.entries k = lastWrite c.entries k := by
  obtain ⟨l, hl, hblocks⟩ := h.single
  have hc' : c'.entries = entriesOf l.blocks := by
    rw [Catalog.entries, hl]
    exact List.append_nil _
  rw [hc', lastWrite_compacted (entriesOf_of_blocksFromSnapshots hblocks)]

/-- A single segment is not compacted. -/
theorem compact_of_single {e : StorageEngine} (he : e.failed = false) (hone : e.segments.length ≤ 1)
    (w : World Bytes UInt8) : StorageEngine.compact (e, w) = .ok () (e, w) := by
  rw [StorageEngine.compact, StorageEngine.ensureUsable_bind he]
  show (if e.segments.length ≤ 1 then _ else _ : Prog StorageEngine Unit) (e, w) = _
  rw [if_pos hone]
  rfl

variable {f : Directory} {history : List Entry} {m : Machine} {e : StorageEngine}

/-- **Compaction leaves one segment and touches nothing else.** Take any session, with failing calls
and crashes anywhere, an engine that is usable with two or more live segments, and a compaction that
returns, whatever calls it meets. Afterwards there is a single live segment: the overlay of the old
ones, whose sample count is the one of the manifest. The generation has grown by one; the table, the
log, the count of samples and all answers are what they were. And a compaction that follows changes
nothing. -/
theorem compact_single_segment (hf : Fresh f) (h : Session f history m) (he : m.engine = some e)
    (hfailed : e.failed = false) (hmany : 2 ≤ e.segments.length) {sched : List Event}
    {e' : StorageEngine} {w : World Bytes UInt8}
    (hrun : StorageEngine.compact (e, ⟨m.disk, sched⟩) = .ok () (e', w)) :
    (∃ segments, e.Stores m.disk.files segments ∧ e.CompactedTo segments m.disk e' w.toDisk) ∧
      ∀ sched', StorageEngine.compact (e', ⟨w.toDisk, sched'⟩) = .ok ()
        (e', ⟨w.toDisk, sched'⟩) := by
  obtain ⟨puts, durability, husable⟩ := h.usable hf he hfailed
  obtain ⟨c, log, htail, htracks, rfl, hat⟩ := id husable
  have hspec := spec_compactAt (S := sched) htracks
    (engineOf c log durability) ⟨m.disk, sched⟩ ⟨rfl, hat⟩ (List.suffix_refl _)
  rw [hrun] at hspec
  obtain ⟨⟨c', ⟨hfew, -⟩ | hcomp, htracks', rfl, hat'⟩, -⟩ := hspec
  · have hlength : (engineOf c log durability).segments.length = c.layers.length :=
      List.length_map _
    omega
  obtain ⟨l, hl, hblocks⟩ := hcomp.single
  have hsegments : (engineOf c' log durability).segments = [l.reader] := by
    show c'.layers.map Layer.reader = _
    rw [hl]
    rfl
  have hstores : (engineOf c' log durability).Stores w.toDisk.files [l.blocks] := by
    have hstores : (engineOf c' log durability).Stores w.toDisk.files
        (c'.layers.map Layer.blocks) :=
      hat'.holds.stores
    rwa [hl] at hstores
  have hcount : (engineOf c' log durability).logicalSampleCount =
      (engineOf c log durability).logicalSampleCount :=
    congrArg Finset.card (keys_congr (lastWrite_append_congr hcomp.lastWrite_eq fun _ ↦ rfl))
  have hafter : Usable hf.origin puts 0 durability
      (engineOf c' log durability) w.toDisk := ⟨c', log, htail, htracks', rfl, hat'⟩
  refine ⟨⟨_, hat.holds.stores, ?_⟩, fun sched' ↦ compact_of_single rfl ?_ _⟩
  · exact ⟨⟨l.reader, l.blocks, hsegments, hstores, isOverlay_of_mergeLayers hblocks,
      Layer.sampleCount_reader hl⟩, hcomp.generation_eq, rfl, hcount, rfl,
      hat'.holds.wal_file.trans hat.holds.wal_file.symm, rfl,
      husable.answers.same hafter.answers rfl rfl rfl hcount rfl⟩
  · rw [hsegments]
    exact le_refl _

/-- A map with a single entry is cut into a single block. -/
theorem blocksFromSnapshots_of_single {map : SeriesMap} {r : WalPutRecord}
    (h : ∀ k, map.find k = lastWrite [r.entry] k) :
    blocksFromSnapshots map.snapshot = .ok [r.block] := by
  obtain ⟨blocks, hok, hentries, -⟩ := blocksFromSnapshots_snapshot map
  have hpairs : map.pairs = [r.entry] := by
    refine List.perm_singleton.1 ((List.perm_ext_iff_of_nodup (.of_map _ map.pairs_nodup)
      (List.nodup_singleton _)).2 fun ⟨k, v⟩ ↦ ?_)
    rw [SeriesMap.mem_pairs_iff_find, h]
    exact lastWrite_eq_some_iff (h := [r.entry]) (List.nodup_singleton r.entry.1)
  rw [hpairs] at hentries
  have hlen : countSamples blocks = 1 := by rw [← length_entriesOf, hentries]; rfl
  cases blocks with
  | nil => cases hlen
  | cons b blocks =>
    have hb := b.sampleCount_pos
    rw [countSamples, List.map_cons, List.sum_cons] at hlen
    cases blocks with
    | nil =>
      have hone : b.samples.length = 1 := hlen
      obtain ⟨x, hx⟩ := List.length_eq_one_iff.1 hone
      have hentry : ((b.series, x.timestamp), x.value) = r.entry := by
        simpa [entriesOf, SegmentBlock.blockEntries, hx] using hentries
      have hkey := congrArg Prod.fst hentry
      rw [hok, show b = r.block from SegmentBlock.ext_iff.2 ⟨congrArg Prod.fst hkey, by
        rw [hx]
        exact congrArg (· :: []) (Sample.ext (congrArg Prod.snd hkey) (congrArg Prod.snd hentry))⟩]
    | cons b' blocks =>
      have hb' := b'.sampleCount_pos
      rw [List.map_cons, List.sum_cons] at hlen
      omega

/-- Two flushes of the same key, and a compaction. -/
theorem compact_single_segment_cpu : ∃ e d,
    Session OrderedMap.empty ([openCall] ++ [cpuRecord, cpuRecord].flatMap
      fun r ↦ [putCall r, flushCall]) ⟨some e, d⟩ ∧ e.segments.length = 2 ∧
    ∃ e' w, StorageEngine.compact (e, ⟨d, []⟩) = .ok () (e', w) ∧
      ∃ segments, e.Stores d.files segments ∧ e.CompactedTo segments d e' w.toDisk := by
  obtain ⟨e, d, durability, hsession, husable, hempty, hgen, hlen⟩ :=
    exists_rounds [cpuRecord, cpuRecord] (by
      intro r hr
      obtain rfl : r = cpuRecord := by simpa using hr
      decide +kernel) (by decide +kernel) (by decide)
  refine ⟨e, d, hsession, hlen, ?_⟩
  rcases husable.compact_cases not_failing_nil not_crashing_nil with ⟨-, e', w, hrun⟩ | ⟨hnot, -⟩
  · exact ⟨e', w, hrun, (compact_single_segment fresh_empty hsession rfl husable.failed_eq hlen.ge
      hrun).1⟩
  · -- both segments hold the same sample
    refine absurd (Or.inr ?_) hnot
    obtain ⟨c, log, -, htracks, rfl, hat⟩ := husable
    have hacc : WalAccepts cpuRecord := by decide +kernel
    refine hat.holds.compactable_iff.2 ⟨?_, [cpuRecord.block], ?_, hacc.block⟩
    · show (engineOf c log durability).manifest.generation < _
      rw [hgen]
      decide
    · refine blocksFromSnapshots_of_single fun k ↦ ?_
      rw [find_mergeLayers]
      exact (htracks.contents_of_empty hempty k).trans
        (lastWrite_append_self [] [cpuRecord.entry] k)

end ChronoStore
