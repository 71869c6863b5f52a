import ChronoStore.Protocol.Operations

/-!
# The queries of a usable engine

Every query of the engine merges the table and the layers by a rule of its own.
`Answers e d history` says that all of them agree with one map, the one that the history denotes: it
is the specification of the store as its users see it, and it mentions neither layers nor logs. A
usable engine satisfies it for its own history (`Usable.answers`).
-/

namespace ChronoStore

open FaultyDisk WriteHistory

/-- Whenever no call fails, the program returns the value and leaves engine and disk as they are. -/
def Returns {α : Type} (m : Prog StorageEngine α) (e : StorageEngine) (d : Disk Bytes UInt8)
    (a : α) :
    Prop :=
  ∀ sched, ¬Failing sched → ¬Crashing sched → ∃ rest, m (e, ⟨d, sched⟩) = .ok a (e, ⟨d, rest⟩)

/-- All queries agree with the map that the history denotes. -/
structure Answers (e : StorageEngine) (d : Disk Bytes UInt8) (history : List (Key × Value)) :
    Prop where
  get : ∀ s t, Returns (StorageEngine.get s t) e d (sampleAt t (lastWrite history (s, t)))
  latest : ∀ s, ∃ r, Returns (StorageEngine.latest s) e d r ∧ IsLatest history s r
  range : ∀ s start stop, start ≤ stop →
    ∃ r, Returns (StorageEngine.range s start stop) e d r ∧ IsRange history s start stop r
  series : ∃ r, Returns StorageEngine.series e d r ∧ IsSeries history r
  sampleCount : Returns StorageEngine.sampleCount e d (keys history).card

/-- Histories that denote the same map have the same answers. -/
theorem Answers.congr {e : StorageEngine} {d : Disk Bytes UInt8} {a b : List (Key × Value)}
    (h : ∀ k, lastWrite a k = lastWrite b k) (ha : Answers e d a) : Answers e d b where
  get s t := by
    rw [← h]
    exact ha.get s t
  latest s := by
    obtain ⟨r, hr, hlatest⟩ := ha.latest s
    exact ⟨r, hr, hlatest.congr h⟩
  range s start stop hle := by
    obtain ⟨r, hr, hrange⟩ := ha.range s start stop hle
    exact ⟨r, hr, hrange.sorted, fun x ↦ by rw [hrange.mem_iff, h]⟩
  series := by
    obtain ⟨r, hr, hseries⟩ := ha.series
    exact ⟨r, hr, hseries.sorted, fun s ↦ by simp only [hseries.mem_iff, h]⟩
  sampleCount := by
    rw [← keys_congr h]
    exact ha.sampleCount

/-! ### Running a query -/

section Running

variable {α β : Type} {e : StorageEngine} {d : Disk Bytes UInt8}

/-- A program that reads what is there returns it. -/
theorem returns_of_reads {F : Directory → Prop} {m : Prog StorageEngine α} {a : α}
    (h : ∀ S, Reads S Error.IsIo F m (.ok a)) (hF : F d.files) : Returns m e d a := by
  intro sched hfail hcrash
  have := h sched e ⟨d, sched⟩ hF (List.suffix_refl _)
  revert this
  rcases m (e, ⟨d, sched⟩) with ⟨a', e', w⟩ | ⟨err | -, e', w⟩
  · rintro ⟨⟨ha, rfl, hd⟩, -⟩
    obtain rfl := Except.ok.inj ha
    have hd' : w.toDisk = d := hd
    exact ⟨w.sched, by rw [← hd']⟩
  · rintro ⟨herr | ⟨hS, -⟩, -⟩
    · cases herr
    · exact absurd hS hfail
  · rintro ⟨hS, -⟩
    exact absurd hS hcrash

theorem Returns.state_bind {k : StorageEngine → Prog StorageEngine α} {a : α}
    (h : Returns (k e) e d a) : Returns (Act.state >>= k) e d a := h

/-- A usable engine gets past the check. -/
theorem Returns.usable_bind (he : e.failed = false) {k : Unit → Prog StorageEngine α} {a : α}
    (h : Returns (k ()) e d a) : Returns (StorageEngine.ensureUsable >>= k) e d a := by
  intro sched hfail hcrash
  obtain ⟨rest, hr⟩ := h sched hfail hcrash
  exact ⟨rest, (StorageEngine.ensureUsable_bind he k _).trans hr⟩

end Running

/-! ### The answers of a usable engine -/

section Answering

variable {c : Catalog} {log : WalLog} {durability : WalDurability} {d : Disk Bytes UInt8}
  (hd : ∀ l ∈ c.layers, l.In d.files)

include hd

/-- `get` returns the last write of the key. -/
theorem returns_get (s : SeriesKey) (t : Timestamp) :
    Returns (StorageEngine.get s t) (engineOf c log durability) d
      (sampleAt t (lastWrite (c.entries ++ log.entries) (s, t))) := by
  refine Returns.usable_bind rfl (Returns.state_bind ?_)
  have hmem : (engineOf c log durability).memtable.get s t =
      sampleAt t (lastWrite log.entries (s, t)) := by
    rw [engineOf, MemTable.get_eq, MemTable.find_ofRecords]
    rfl
  rw [hmem, isSome_sampleAt, lastWrite_append]
  refine returns_of_reads (F := fun f ↦ ∀ l ∈ c.layers, l.In f) (fun S ↦ ?_) hd
  cases lastWrite log.entries (s, t) with
  | some v => exact Reads.pure _
  | none => exact reads_getInSegments (fun f hf ↦ hf) s t

omit hd in
/-- The samples of a series in the table of a log. -/
theorem mem_samplesOf_ofRecords {s : SeriesKey} (x : Sample) :
    lastWrite log.entries (s, x.timestamp) = some x.value ↔
      x ∈ (MemTable.ofRecords log.records).samplesOf s := by
  rw [MemTable.mem_samplesOf, MemTable.find_ofRecords]
  rfl

/-- `latest` returns the last sample of the series. -/
theorem returns_latest (s : SeriesKey) :
    ∃ r, Returns (StorageEngine.latest s) (engineOf c log durability) d r ∧
      IsLatest (c.entries ++ log.entries) s r := by
  obtain ⟨r, hr, hreads⟩ := reads_latestInSegments (σ := StorageEngine)
    (F := fun f ↦ ∀ l ∈ c.layers, l.In f) (fun f hf ↦ hf) s
  refine ⟨StorageEngine.later ((MemTable.ofRecords log.records).latest s) r, ?_, ?_⟩
  · refine Returns.usable_bind rfl (Returns.state_bind ?_)
    refine returns_of_reads (F := fun f ↦ ∀ l ∈ c.layers, l.In f) (fun S ↦ ?_) hd
    refine (hreads S).bind (g := fun _ ↦ .ok _) fun r' hr' ↦ ?_
    obtain rfl := Except.ok.inj hr'
    exact Reads.pure _
  · rw [MemTable.latest_eq]
    exact hr.append (isLatest_getLast? (MemTable.samplesOf_sorted _ _) mem_samplesOf_ofRecords)

/-- `range` returns the samples of the interval. -/
theorem returns_range (s : SeriesKey) {start stop : Timestamp} (hle : start ≤ stop) :
    ∃ r, Returns (StorageEngine.range s start stop) (engineOf c log durability) d r ∧
      IsRange (c.entries ++ log.entries) s start stop r := by
  obtain ⟨merged, hmerged, hreads⟩ := reads_rangeInSegments (σ := StorageEngine)
    (F := fun f ↦ ∀ l ∈ c.layers, l.In f) (fun f hf ↦ hf) s hle
  have hrecent := (MemTable.ofRecords log.records).range_eq s hle
  have hfind := fun t ↦ overlay_filter (h := log.entries) (s := s)
    ((MemTable.ofRecords log.records).samplesOf_sorted s) mem_samplesOf_ofRecords (hmerged t)
  generalize hall : StorageEngine.overlay merged
    (((MemTable.ofRecords log.records).samplesOf s).filter fun x ↦
      start ≤ x.timestamp ∧ x.timestamp < stop) = all at hfind
  refine ⟨all.entries.map sampleOf, ?_, List.pairwise_map.2 all.sorted, fun x ↦ ?_⟩
  · refine Returns.usable_bind rfl ?_
    rw [if_neg (not_lt.2 hle)]
    refine Returns.state_bind (returns_of_reads (F := fun f ↦ ∀ l ∈ c.layers, l.In f)
      (fun S ↦ ?_) hd)
    refine (hreads S).bind (g := fun _ ↦ .ok _) fun merged' hm ↦ ?_
    obtain rfl := Except.ok.inj hm
    rw [show (engineOf c log durability).memtable.range s start stop = _ from hrecent,
      Act.ofExcept_ok, pure_bind, hall]
    exact Reads.pure _
  · have hmem : x ∈ all.entries.map sampleOf ↔ all.find? x.timestamp = some x.value := by
      rw [OrderedMap.find?_eq_some_iff, List.mem_map]
      constructor
      · rintro ⟨entry, hentry, rfl⟩
        exact hentry
      · exact fun h ↦ ⟨_, h, rfl⟩
    rw [hmem, hfind, lastWrite_append, ← Catalog.entries]
    by_cases hbounds : start ≤ x.timestamp ∧ x.timestamp < stop
    · simp [hbounds]
    · simp [hbounds]

omit hd in
/-- The set has its old keys and the new ones. -/
theorem mem_keys_uniqueSeries (set : OrderedMap SeriesKey Unit) (names : List SeriesKey)
    (s : SeriesKey) :
    s ∈ (StorageEngine.uniqueSeries set names).keys ↔ s ∈ set.keys ∨ s ∈ names := by
  rw [StorageEngine.uniqueSeries]
  induction names generalizing set with
  | nil => simp
  | cons name names ih =>
    rw [List.foldl_cons, ih, ← OrderedMap.find?_isSome_iff, OrderedMap.find?_insert,
      ← OrderedMap.find?_isSome_iff, List.mem_cons]
    by_cases hs : s = name
    · simp [hs]
    · simp [hs]

omit hd in
/-- A segment lists the series of which it holds samples. -/
theorem Layer.mem_index_series (l : Layer) (s : SeriesKey) :
    s ∈ l.reader.index.map SegmentIndexEntry.series ↔ ∃ t, lastWrite l.entries (s, t) ≠ none := by
  rw [Layer.reader, SegmentReader.of, segmentIndex, map_series_indexOf, List.mem_map]
  constructor
  · rintro ⟨b, hb, rfl⟩
    refine ⟨b.firstTimestamp, ?_⟩
    have hmem : b.samples.head b.samples_ne_nil ∈ ChronoStore.samplesOf b.series l.blocks :=
      List.mem_flatMap.2 ⟨b, List.mem_filter.2 ⟨hb, by simp⟩, List.head_mem _⟩
    rw [show lastWrite l.entries (b.series, b.firstTimestamp) = _ from
      (lastWrite_entriesOf l.accepted.ordered).2 hmem]
    simp
  · rintro ⟨t, ht⟩
    obtain ⟨v, hv⟩ := Option.ne_none_iff_exists'.1 ht
    have hmem := (lastWrite_entriesOf l.accepted.ordered (x := ⟨t, v⟩)).1 hv
    obtain ⟨b, hb, -⟩ := List.mem_flatMap.1 hmem
    rw [List.mem_filter, decide_eq_true_eq] at hb
    exact ⟨b, hb.1, hb.2⟩

omit hd in
/-- `series` returns the series of the history. -/
theorem returns_series : ∃ r, Returns StorageEngine.series (engineOf c log durability) d r ∧
    IsSeries (c.entries ++ log.entries) r := by
  refine ⟨_, Returns.usable_bind rfl (Returns.state_bind
    (returns_of_reads (F := fun _ ↦ True) (fun S ↦ Reads.pure _) trivial)),
      OrderedMap.keys_sorted _, fun s ↦ ?_⟩
  have hsegments : ∀ layers : List Layer, s ∈ ((layers.map Layer.reader).foldl
      (fun set segment ↦ StorageEngine.uniqueSeries set
        (segment.index.map SegmentIndexEntry.series)) OrderedMap.empty).keys ↔
          ∃ t, lastWrite (layeredEntries layers) (s, t) ≠ none := by
    intro layers
    induction layers using List.reverseRecOn with
    | nil => simp [OrderedMap.keys, OrderedMap.empty, layeredEntries]
    | append_singleton layers l ih =>
      rw [List.map_append, List.foldl_append, List.map_singleton, List.foldl_cons, List.foldl_nil,
        mem_keys_uniqueSeries, ih, Layer.mem_index_series, layeredEntries_concat, ← exists_or]
      simp only [lastWrite_append, Ne, Option.or_eq_none_iff, not_and_or, or_comm]
  have hmemory : s ∈ (MemTable.ofRecords log.records).seriesKeys ↔
      ∃ t, lastWrite log.entries (s, t) ≠ none := by
    simp only [MemTable.mem_seriesKeys, MemTable.find_ofRecords, Option.isSome_iff_ne_none]
    rfl
  rw [mem_keys_uniqueSeries]
  refine (or_congr (hsegments c.layers) hmemory).trans ?_
  rw [← exists_or]
  simp only [lastWrite_append, Ne, Option.or_eq_none_iff, not_and_or, or_comm]
  rfl

omit hd in
/-- `sample_count` returns the number of different keys. -/
theorem returns_sampleCount : Returns StorageEngine.sampleCount (engineOf c log durability) d
    (keys (c.entries ++ log.entries)).card := by
  have hle := card_keys_le_length (c.entries ++ log.entries)
  have hlt := c.length_add_length_lt log
  rw [List.length_append, WalLog.entries, List.length_map, ← WalLog.entries] at hle
  refine Returns.usable_bind rfl (Returns.state_bind ?_)
  rw [if_neg (by simp only [engineOf]; omega)]
  exact returns_of_reads (F := fun _ ↦ True) (fun S ↦ Reads.pure _) trivial

end Answering

/-- **A usable engine answers for its history.** -/
theorem Usable.answers {o : Origin} {history : List WalPutRecord} {n : ℕ}
    {durability : WalDurability} {e : StorageEngine} {d : Disk Bytes UInt8}
    (h : Usable o history n durability e d) : Answers e d (historyOf history) := by
  obtain ⟨c, log, htail, htracks, rfl, hat⟩ := h
  have hlayers : ∀ l ∈ c.layers, l.In d.files := hat.holds.layer_files
  exact Answers.congr htracks.contents
    ⟨returns_get hlayers, returns_latest hlayers, fun s start stop ↦ returns_range hlayers s,
      returns_series, returns_sampleCount⟩

end ChronoStore
