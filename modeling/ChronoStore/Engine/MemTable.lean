import ChronoStore.Codec.WalRecord
import ChronoStore.Foundation.OrderedMap
import ChronoStore.Foundation.WriteHistory

/-!
# The in-memory table

`memtable.cpp`: a map of maps, with a counter that is kept incrementally. The nested map is a
`SeriesMap`; what it stores under a key is `SeriesMap.find`, and its entries in iteration order are
`SeriesMap.pairs`, a write history without repetitions. Compaction merges segments in the same kind
of map.

A `MemTable` carries two facts: no series without samples is stored, and the counter is the number
of samples modulo the width of `std::size_t`. The table that a log denotes is `MemTable.ofRecords`;
it answers every query as the history of its records does.
-/

namespace ChronoStore

open WriteHistory

abbrev SamplesByTimestamp := OrderedMap Timestamp Value

abbrev SeriesMap := OrderedMap SeriesKey SamplesByTimestamp

/-- The samples of one series, in order. -/
structure MemTableSeriesSnapshot where
  series : SeriesKey
  samples : List Sample

/-- A map entry as a sample. -/
def sampleOf (entry : Timestamp × Value) : Sample := ⟨entry.1, entry.2⟩

namespace SeriesMap

/-- The samples stored for a series. -/
def samplesFor (m : SeriesMap) (series : SeriesKey) : SamplesByTimestamp :=
  (m.find? series).getD .empty

/-- The value stored under a key. -/
def find (m : SeriesMap) (k : Key) : Option Value := (m.samplesFor k.1).find? k.2

/-- The entries in iteration order. -/
def pairs (m : SeriesMap) : List (Key × Value) :=
  m.entries.flatMap fun e ↦ e.2.entries.map fun x ↦ ((e.1, x.1), x.2)

/-- The number of entries. -/
def total (m : SeriesMap) : ℕ := (m.entries.map fun e ↦ e.2.entries.length).sum

/-- The loop that turns a map into snapshots. -/
def snapshot (m : SeriesMap) : List MemTableSeriesSnapshot :=
  m.entries.map fun e ↦ ⟨e.1, e.2.entries.map sampleOf⟩

/-- Store one sample. -/
def assign (m : SeriesMap) (series : SeriesKey) (sample : Sample) : SeriesMap :=
  m.insert series ((m.samplesFor series).insert sample.timestamp sample.value)

/-- The samples of a series after another series has been set. -/
theorem samplesFor_insert (m : SeriesMap) (series s : SeriesKey) (samples : SamplesByTimestamp) :
    samplesFor (OrderedMap.insert m series samples) s =
      if s = series then samples else m.samplesFor s := by
  rw [samplesFor, OrderedMap.find?_insert]
  split <;> rfl

/-- **Assignment is the pointwise update.** -/
theorem find_assign (m : SeriesMap) (series : SeriesKey) (x : Sample) (k : Key) :
    (m.assign series x).find k = if (series, x.timestamp) = k then some x.value else m.find k := by
  obtain ⟨s, t⟩ := k
  rw [find, assign, samplesFor_insert]
  by_cases hs : s = series
  · subst hs
    by_cases ht : t = x.timestamp
    · simp [ht]
    · simp [ht, Ne.symm ht, find]
  · simp [hs, Ne.symm hs, find]

theorem mem_pairs {m : SeriesMap} {s : SeriesKey} {t : Timestamp} {v : Value} :
    ((s, t), v) ∈ m.pairs ↔ ∃ samples, (s, samples) ∈ m.entries ∧ (t, v) ∈ samples.entries := by
  rw [pairs, List.mem_flatMap]
  constructor
  · rintro ⟨⟨s', samples⟩, hs, hx⟩
    rw [List.mem_map] at hx
    obtain ⟨⟨t', v'⟩, hx, heq⟩ := hx
    rw [Prod.mk.injEq, Prod.mk.injEq] at heq
    obtain ⟨⟨rfl, rfl⟩, rfl⟩ := heq
    exact ⟨samples, hs, hx⟩
  · rintro ⟨samples, hs, hx⟩
    exact ⟨(s, samples), hs, List.mem_map.2 ⟨(t, v), hx, rfl⟩⟩

/-- The pairs of a map are what a search finds. -/
theorem mem_pairs_iff_find {m : SeriesMap} {k : Key} {v : Value} :
    (k, v) ∈ m.pairs ↔ m.find k = some v := by
  obtain ⟨s, t⟩ := k
  rw [mem_pairs, find, samplesFor]
  constructor
  · rintro ⟨samples, hs, hx⟩
    rw [OrderedMap.find?_eq_some_iff.2 hs]
    exact OrderedMap.find?_eq_some_iff.2 hx
  · intro h
    cases hs : m.find? s with
    | none => rw [hs] at h; simp at h
    | some samples =>
      rw [hs] at h
      exact ⟨samples, OrderedMap.find?_eq_some_iff.1 hs, OrderedMap.find?_eq_some_iff.1 h⟩

/-- No key occurs twice. -/
theorem pairs_nodup (m : SeriesMap) : (m.pairs.map Prod.fst).Nodup := by
  have hflat : m.pairs.map Prod.fst =
      m.entries.flatMap fun e ↦ e.2.entries.map fun x ↦ (e.1, x.1) := by
    simp [pairs, List.map_flatMap, Function.comp_def]
  rw [hflat, List.nodup_flatMap]
  constructor
  · intro e _
    have hkeys : (e.2.keys).Nodup := e.2.keys_sorted.imp fun h ↦ h.ne
    have := hkeys.map (f := fun t ↦ (e.1, t)) fun a b h ↦ (Prod.mk.inj h).2
    rwa [OrderedMap.keys, List.map_map] at this
  · refine m.sorted.imp fun {a b} hab ↦ ?_
    refine List.disjoint_left.2 ?_
    intro k hka hkb
    obtain ⟨x, -, rfl⟩ := List.mem_map.1 hka
    obtain ⟨y, -, hy⟩ := List.mem_map.1 hkb
    exact hab.ne (Prod.mk.inj hy).1.symm

/-- **Reading the entries as a history** gives what the map stores. -/
theorem lastWrite_pairs (m : SeriesMap) (k : Key) : lastWrite m.pairs k = m.find k := by
  refine Option.ext fun v ↦ ?_
  rw [lastWrite_eq_some_iff m.pairs_nodup]
  exact mem_pairs_iff_find

/-- There are as many pairs as samples. -/
theorem length_pairs (m : SeriesMap) : m.pairs.length = m.total := by
  rw [pairs, total, List.length_flatMap]
  simp

/-- A sample is counted if its key is new. -/
theorem total_assign (m : SeriesMap) (series : SeriesKey) (x : Sample) :
    (m.assign series x).total =
      if (m.find (series, x.timestamp)).isSome then m.total else m.total + 1 := by
  have hsum := OrderedMap.sum_map_insert m series
    ((m.samplesFor series).insert x.timestamp x.value) fun samples ↦ samples.entries.length
  have hold : (((OrderedMap.find? m series).map fun samples ↦
      samples.entries.length).getD 0) = (m.samplesFor series).entries.length := by
    rw [samplesFor]
    cases OrderedMap.find? m series <;> rfl
  have hlen := OrderedMap.length_entries_insert (m.samplesFor series) x.timestamp x.value
  rw [hold] at hsum
  change _ = if (m.find (series, x.timestamp)).isSome then _ else _ at hlen
  unfold total assign at *
  split at hlen
  · rename_i hsome
    rw [if_pos hsome]
    omega
  · rename_i hnone
    rw [if_neg hnone]
    omega

end SeriesMap

/-- The table of recent writes. -/
structure MemTable where
  series : SeriesMap
  sampleCount : ℕ
  /-- A series is stored when it has a sample. -/
  inhabited : ∀ e ∈ series.entries, e.2.entries ≠ []
  /-- The counter counts the samples. -/
  counted : sampleCount = series.total % 2 ^ 64

namespace MemTable

/-- The table without samples. -/
def empty : MemTable := ⟨.empty, 0, by simp [OrderedMap.empty], rfl⟩

theorem insertIn_entries_ne_nil {k : Timestamp} {v : Value} {l : List (Timestamp × Value)} :
    OrderedMap.insertIn k v l ≠ [] := by
  cases l with
  | nil => simp [OrderedMap.insertIn]
  | cons a l =>
    rw [OrderedMap.insertIn]
    split
    · simp
    · split <;> simp

/-- `MemTable::put`: the counter grows when the timestamp is new. -/
def put (m : MemTable) (series : SeriesKey) (sample : Sample) : MemTable where
  series := m.series.assign series sample
  sampleCount :=
    if ((m.series.samplesFor series).find? sample.timestamp).isSome then m.sampleCount
    else (m.sampleCount + 1) % 2 ^ 64
  inhabited := by
    intro e he
    rcases OrderedMap.mem_insertIn_key he with rfl | he
    · exact insertIn_entries_ne_nil
    · exact m.inhabited e he
  counted := by
    rw [SeriesMap.total_assign, m.counted]
    change (if (m.series.find (series, sample.timestamp)).isSome then _ else _) = _
    split
    · rfl
    · omega

/-- `MemTable::clear`: the series go with their samples. -/
def clear (_m : MemTable) : MemTable := empty

/-- `MemTable::get`: the sample of a series at a timestamp, if there is one. -/
def get (m : MemTable) (series : SeriesKey) (timestamp : Timestamp) : Option Sample :=
  match m.series.find? series with
  | none => none
  | some samples => (samples.find? timestamp).map fun value ↦ ⟨timestamp, value⟩

/-- `MemTable::latest`: the last entry of the series, as its samples are kept in order. -/
def latest (m : MemTable) (series : SeriesKey) : Option Sample :=
  match m.series.find? series with
  | none => none
  | some samples => samples.entries.getLast?.map sampleOf

/-- `MemTable::range`: the samples between the two lower bounds; the end does not belong to it. -/
def range (m : MemTable) (series : SeriesKey) (start stop : Timestamp) :
    Except Error (List Sample) :=
  if stop < start then .error (.invalidArgument "range end cannot be before start") else
  match m.series.find? series with
  | none => .ok []
  | some samples => .ok (((samples.entries.dropWhile fun e ↦ e.1 < start).takeWhile
      fun e ↦ e.1 < stop).map sampleOf)

/-- `MemTable::empty`: the counter is asked. -/
def isEmpty (m : MemTable) : Bool := m.sampleCount = 0

/-- `MemTable::series`: the keys, in order. -/
def seriesKeys (m : MemTable) : List SeriesKey := m.series.keys

/-- `MemTable::snapshot`: the table as a list, from which blocks are cut. -/
def snapshot (m : MemTable) : List MemTableSeriesSnapshot := m.series.snapshot

/-! ### What the queries see -/

/-- The samples of a series, in order. -/
def samplesOf (m : MemTable) (series : SeriesKey) : List Sample :=
  (m.series.samplesFor series).entries.map sampleOf

theorem samplesOf_sorted (m : MemTable) (series : SeriesKey) :
    (m.samplesOf series).Pairwise fun a b ↦ a.timestamp < b.timestamp :=
  List.pairwise_map.2 (m.series.samplesFor series).sorted

/-- The samples of a series are what a search finds. -/
theorem mem_samplesOf {m : MemTable} {series : SeriesKey} {x : Sample} :
    x ∈ m.samplesOf series ↔ m.series.find (series, x.timestamp) = some x.value := by
  rw [samplesOf, List.mem_map, SeriesMap.find, OrderedMap.find?_eq_some_iff]
  constructor
  · rintro ⟨e, he, rfl⟩
    exact he
  · exact fun h ↦ ⟨_, h, rfl⟩

theorem get_eq (m : MemTable) (series : SeriesKey) (t : Timestamp) :
    m.get series t = (m.series.find (series, t)).map fun value ↦ ⟨t, value⟩ := by
  rw [get, SeriesMap.find, SeriesMap.samplesFor]
  cases m.series.find? series <;> rfl

theorem latest_eq (m : MemTable) (series : SeriesKey) :
    m.latest series = (m.samplesOf series).getLast? := by
  rw [latest, samplesOf, SeriesMap.samplesFor, List.getLast?_map]
  cases m.series.find? series <;> rfl

/-- `range` is the samples in the interval. -/
theorem range_eq (m : MemTable) (series : SeriesKey) {start stop : Timestamp} (h : start ≤ stop) :
    m.range series start stop = .ok ((m.samplesOf series).filter fun x ↦
      start ≤ x.timestamp ∧ x.timestamp < stop) := by
  have hslice : ∀ samples : SamplesByTimestamp,
      ((samples.entries.dropWhile fun e ↦ e.1 < start).takeWhile fun e ↦ e.1 < stop).map sampleOf =
        (samples.entries.map sampleOf).filter fun x ↦ start ≤ x.timestamp ∧ x.timestamp < stop := by
    intro samples
    have hle := SortedList.pairwise_le_of_lt (f := Prod.fst) samples.sorted
    rw [SortedList.dropWhile_lt_eq_filter hle, SortedList.takeWhile_lt_eq_filter (hle.filter _),
      List.filter_filter, List.filter_map]
    congr 2
    funext e
    show (decide (e.1 < stop) && decide (start ≤ e.1)) = decide (start ≤ e.1 ∧ e.1 < stop)
    rw [Bool.decide_and, Bool.and_comm]
  rw [range, if_neg (not_lt.2 h), samplesOf, SeriesMap.samplesFor]
  cases m.series.find? series with
  | none => rfl
  | some samples => exact congrArg Except.ok (hslice samples)

/-- A series is listed when it has a sample. -/
theorem mem_seriesKeys {m : MemTable} {series : SeriesKey} :
    series ∈ m.seriesKeys ↔ ∃ t, (m.series.find (series, t)).isSome := by
  rw [seriesKeys, OrderedMap.mem_keys_iff]
  constructor
  · rintro ⟨samples, hs⟩
    obtain ⟨e, he⟩ := List.exists_mem_of_ne_nil _ (m.inhabited _ hs)
    refine ⟨e.1, ?_⟩
    rw [SeriesMap.mem_pairs_iff_find.1 (SeriesMap.mem_pairs.2 ⟨samples, hs, he⟩)]
    rfl
  · rintro ⟨t, ht⟩
    obtain ⟨v, hv⟩ := Option.isSome_iff_exists.1 ht
    obtain ⟨samples, hs, -⟩ := SeriesMap.mem_pairs.1 (SeriesMap.mem_pairs_iff_find.2 hv)
    exact ⟨samples, hs⟩

/-! ### The table of a log -/

end MemTable

/-- A record as an entry of a write history. -/
def WalPutRecord.entry (r : WalPutRecord) : Key × Value :=
  ((r.series, r.sample.timestamp), r.sample.value)

namespace MemTable

/-- The table after these puts. -/
def ofRecords (records : List WalPutRecord) : MemTable :=
  records.foldl (fun m r ↦ m.put r.series r.sample) empty

@[simp] theorem ofRecords_nil : ofRecords [] = empty := rfl

/-- One more record is put into the table. -/
theorem ofRecords_concat (records : List WalPutRecord) (r : WalPutRecord) :
    ofRecords (records ++ [r]) = (ofRecords records).put r.series r.sample := by
  simp [ofRecords]

/-- **The table denotes its history.** -/
theorem find_ofRecords (records : List WalPutRecord) (k : Key) :
    (ofRecords records).series.find k = lastWrite (records.map WalPutRecord.entry) k := by
  induction records using List.reverseRecOn with
  | nil => rfl
  | append_singleton records r ih =>
    rw [ofRecords_concat, List.map_append, List.map_singleton, lastWrite_concat, ← ih]
    exact SeriesMap.find_assign _ _ _ _

/-- The number of samples of the table of a log. -/
theorem total_ofRecords (records : List WalPutRecord) :
    (ofRecords records).series.total = (keys (records.map WalPutRecord.entry)).card := by
  rw [← SeriesMap.length_pairs, ← card_keys_of_nodup (SeriesMap.pairs_nodup _)]
  refine congrArg Finset.card (keys_congr fun k ↦ ?_)
  rw [SeriesMap.lastWrite_pairs, find_ofRecords]

/-- **The counter counts the keys**, as long as there are fewer than `2 ^ 64` records. -/
theorem sampleCount_ofRecords {records : List WalPutRecord} (h : records.length < 2 ^ 64) :
    (ofRecords records).sampleCount = (keys (records.map WalPutRecord.entry)).card := by
  have hle := card_keys_le_length (records.map WalPutRecord.entry)
  rw [List.length_map] at hle
  rw [(ofRecords records).counted, total_ofRecords, Nat.mod_eq_of_lt (by omega)]

/-- A table is empty if no record has been put into it. -/
theorem isEmpty_ofRecords {records : List WalPutRecord} (h : records.length < 2 ^ 64) :
    (ofRecords records).isEmpty = true ↔ records = [] := by
  rw [isEmpty, decide_eq_true_eq, sampleCount_ofRecords h, Finset.card_eq_zero]
  constructor
  · intro hempty
    cases records with
    | nil => rfl
    | cons r records => simp [WriteHistory.keys] at hempty
  · rintro rfl
    rfl

end MemTable

end ChronoStore
