import ChronoStore.Codec.SegmentFormat
import ChronoStore.Engine.Blocks

/-!
# How a map is split into blocks

`blocks_from_snapshots` cuts the samples of each series at multiples of the block size.
`SeriesMap.SplitInto` says what is right about the result: the blocks of a series hold its samples
and nothing else, all of them but the last are full, and the list as a whole passes the test of
order of `validate_blocks`. Every map that can be published is split so (`exists_splitInto`): the
tables that puts and clears can reach, and the maps into which compaction merges segments.
-/

namespace ChronoStore

/-- The number of blocks for so many samples. -/
def blockCount (samples : ℕ) : ℕ :=
  (samples + (maxSamplesPerSegmentBlock - 1)) / maxSamplesPerSegmentBlock

/-- The blocks hold the samples of the map, in full blocks up to the last of each series. -/
structure SeriesMap.SplitInto (m : SeriesMap) (blocks : List SegmentBlock) : Prop where
  samples_eq : ∀ s, samplesOf s blocks = (m.samplesFor s).entries.map sampleOf
  sizes : ∀ b ∈ blocks, 1 ≤ b.sampleCount ∧ b.sampleCount ≤ maxSamplesPerSegmentBlock
  full : ∀ s, ∀ b ∈ (blocks.filter fun b ↦ b.series = s).dropLast,
    b.sampleCount = maxSamplesPerSegmentBlock
  counts : ∀ s, (blocks.filter fun b ↦ b.series = s).length =
    blockCount (m.samplesFor s).entries.length
  held : ∀ b ∈ blocks, (m.samplesFor b.series).entries ≠ []
  ordered : blocks.IsChain SegmentBlock.Before

/-! ### One series -/

/-- **The cut of one series**: all blocks but the last are full, and there are as many as are
needed. -/
theorem blocksFromSamples_full {series : SeriesKey} {fuel : ℕ} {samples : List Sample}
    {blocks : List SegmentBlock} (hfuel : samples.length ≤ fuel)
    (h : blocksFromSamples series fuel samples = .ok blocks) :
    blocks.length = blockCount samples.length ∧
      ∀ b ∈ blocks.dropLast, b.sampleCount = maxSamplesPerSegmentBlock := by
  induction fuel generalizing samples blocks with
  | zero =>
    obtain rfl : samples = [] := List.length_eq_zero_iff.1 (by omega)
    obtain rfl := Except.ok.inj h
    exact ⟨rfl, by simp⟩
  | succ fuel ih =>
    rw [blocksFromSamples] at h
    by_cases hnil : samples = []
    · rw [if_pos hnil] at h
      obtain rfl := Except.ok.inj h
      rw [hnil]
      exact ⟨rfl, by simp⟩
    · rw [if_neg hnil] at h
      obtain ⟨block, hblock, h⟩ := bind_eq_ok.1 h
      obtain ⟨rest, hrest, h⟩ := bind_eq_ok.1 h
      obtain rfl := Except.ok.inj h
      have hpos := List.length_pos_of_ne_nil hnil
      have hdrop : (samples.drop maxSamplesPerSegmentBlock).length = samples.length - 256 :=
        List.length_drop
      obtain ⟨hcount, hfull⟩ := ih (by omega) hrest
      rw [hdrop] at hcount
      unfold blockCount maxSamplesPerSegmentBlock at hcount
      refine ⟨?_, ?_⟩
      · rw [List.length_cons, hcount]
        unfold blockCount maxSamplesPerSegmentBlock
        omega
      · by_cases hlast : rest = []
        · simp [hlast]
        · -- another block follows, so this one took all that fits
          have hmore := List.length_pos_of_ne_nil hlast
          have htake : block.samples = samples.take maxSamplesPerSegmentBlock :=
            (of_segmentBlockMake (by rw [hblock]; rfl)).2
          rw [List.dropLast_cons_of_ne_nil hlast]
          refine List.forall_mem_cons.2 ⟨?_, hfull⟩
          show block.samples.length = _
          rw [htake, List.length_take]
          unfold maxSamplesPerSegmentBlock
          omega

/-! ### All series -/

/-- **Each series is cut on its own.** -/
theorem filter_blocksFromSnapshots {snapshots : List MemTableSeriesSnapshot}
    {blocks : List SegmentBlock} (h : blocksFromSnapshots snapshots = .ok blocks)
    (hseries : snapshots.Pairwise fun a b ↦ a.series < b.series)
    (hsorted : ∀ s ∈ snapshots, s.samples.Pairwise fun a b ↦ a.timestamp < b.timestamp) :
    (∀ s ∈ snapshots, blocksFromSamples s.series s.samples.length s.samples =
        .ok (blocks.filter fun b ↦ b.series = s.series)) ∧
      ∀ series, (∀ s ∈ snapshots, s.series ≠ series) →
        blocks.filter (fun b ↦ b.series = series) = [] := by
  induction snapshots generalizing blocks with
  | nil =>
    obtain rfl := Except.ok.inj h
    exact ⟨by simp, by simp⟩
  | cons s snapshots ih =>
    rw [List.pairwise_cons] at hseries
    rw [List.forall_mem_cons] at hsorted
    obtain ⟨own, hown, h⟩ := bind_eq_ok.1 h
    obtain ⟨rest, hrest, h⟩ := bind_eq_ok.1 h
    obtain rfl := Except.ok.inj h
    obtain ⟨own', hok, hsame, -⟩ := blocksFromSamples_spec s.series (le_refl _) hsorted.1
    obtain rfl : own = own' := Except.ok.inj (hown.symm.trans hok)
    obtain ⟨hin, hout⟩ := ih hrest hseries.2 hsorted.2
    have hself : own.filter (fun b ↦ b.series = s.series) = own :=
      List.filter_eq_self.2 fun b hb ↦ by simpa using hsame b hb
    have hother : ∀ series, series ≠ s.series → own.filter (fun b ↦ b.series = series) = [] := by
      intro series hne
      rw [List.filter_eq_nil_iff]
      intro b hb
      simpa [hsame b hb] using hne.symm
    refine ⟨List.forall_mem_cons.2 ⟨?_, fun s' hs' ↦ ?_⟩, fun series hall ↦ ?_⟩
    · rw [List.filter_append, hself, hout s.series fun s' hs' ↦ (hseries.1 s' hs').ne',
        List.append_nil]
      exact hown
    · rw [List.filter_append, hother s'.series (hseries.1 s' hs').ne', List.nil_append]
      exact hin s' hs'
    · rw [List.forall_mem_cons] at hall
      rw [List.filter_append, hother series hall.1.symm, hout series hall.2, List.append_nil]

/-- The blocks of a series in the split of a map are the cut of its samples. -/
theorem blocksFromSamples_samplesFor {m : SeriesMap} {blocks : List SegmentBlock}
    (h : blocksFromSnapshots m.snapshot = .ok blocks) (s : SeriesKey) :
    blocksFromSamples s (m.samplesFor s).entries.length ((m.samplesFor s).entries.map sampleOf) =
      .ok (blocks.filter fun b ↦ b.series = s) := by
  obtain ⟨hin, hout⟩ := filter_blocksFromSnapshots h (List.pairwise_map.2 m.sorted) (by
    intro s hs
    obtain ⟨e, -, rfl⟩ := List.mem_map.1 hs
    exact List.pairwise_map.2 e.2.sorted)
  cases hs : m.find? s with
  | none =>
    have hempty : m.samplesFor s = .empty := by rw [SeriesMap.samplesFor, hs]; rfl
    rw [hempty, hout s]
    · rfl
    · intro s' hs' heq
      obtain ⟨e, he, rfl⟩ := List.mem_map.1 hs'
      exact OrderedMap.find?_eq_none_iff.1 hs (List.mem_map.2 ⟨e, he, heq⟩)
  | some samples =>
    have hsome : m.samplesFor s = samples := by rw [SeriesMap.samplesFor, hs]; rfl
    have hcut := hin ⟨s, samples.entries.map sampleOf⟩
      (List.mem_map.2 ⟨(s, samples), OrderedMap.find?_eq_some_iff.1 hs, rfl⟩)
    rw [List.length_map] at hcut
    rw [hsome]
    exact hcut

/-- **Every map is split into blocks.** -/
theorem SeriesMap.exists_splitInto (m : SeriesMap) :
    ∃ blocks, blocksFromSnapshots m.snapshot = .ok blocks ∧ m.SplitInto blocks := by
  obtain ⟨blocks, hok, -, hord⟩ := blocksFromSnapshots_snapshot m
  have hsorted : ∀ s, ((m.samplesFor s).entries.map sampleOf).Pairwise
      fun a b ↦ a.timestamp < b.timestamp :=
    fun s ↦ List.pairwise_map.2 (m.samplesFor s).sorted
  have hlen : ∀ s, ((m.samplesFor s).entries.map sampleOf).length =
      (m.samplesFor s).entries.length := fun s ↦ List.length_map _
  have hsamples : ∀ s, samplesOf s blocks = (m.samplesFor s).entries.map sampleOf := by
    intro s
    obtain ⟨own, hown, -, hflat, -⟩ := blocksFromSamples_spec s (hlen s).le (hsorted s)
    rw [samplesOf, ← hflat,
      Except.ok.inj ((blocksFromSamples_samplesFor hok s).symm.trans hown)]
  refine ⟨blocks, hok, hsamples, fun b _ ↦ ⟨b.sampleCount_pos, b.length_le⟩, fun s ↦ ?_, fun s ↦ ?_,
    fun b hb hnone ↦ ?_, hord.isChain⟩
  · exact (blocksFromSamples_full (hlen s).le (blocksFromSamples_samplesFor hok s)).2
  · rw [(blocksFromSamples_full (hlen s).le (blocksFromSamples_samplesFor hok s)).1, hlen]
  · -- a sample of the block is a sample of its series
    have hmem : b.samples.head b.samples_ne_nil ∈ samplesOf b.series blocks :=
      List.mem_flatMap.2 ⟨b, List.mem_filter.2 ⟨hb, by simp⟩, List.head_mem b.samples_ne_nil⟩
    rw [hsamples, hnone] at hmem
    simp at hmem

/-- There are blocks when there are samples. -/
theorem SeriesMap.SplitInto.ne_nil_iff {m : SeriesMap} {blocks : List SegmentBlock}
    (h : m.SplitInto blocks) : blocks ≠ [] ↔ ∃ s, (m.samplesFor s).entries ≠ [] := by
  constructor
  · intro hne
    obtain ⟨b, hb⟩ := List.exists_mem_of_ne_nil _ hne
    exact ⟨b.series, h.held b hb⟩
  · rintro ⟨s, hs⟩ rfl
    have := h.samples_eq s
    exact hs (List.map_eq_nil_iff.1 this.symm)

/-! ### The maps that are published -/

namespace MemTable

/-- A call that changes the table. -/
inductive Call where
  | put (series : SeriesKey) (sample : Sample)
  | clear

/-- The table after one more call. -/
def apply (m : MemTable) : Call → MemTable
  | .put series sample => m.put series sample
  | .clear => m.clear

/-- The table after these calls. -/
def run (calls : List Call) : MemTable := calls.foldl apply empty

/-- The counter tells an empty table from others, as long as it has not wrapped around. -/
theorem isEmpty_eq_false_iff {m : MemTable} (h : m.series.total < 2 ^ 64) :
    m.isEmpty = false ↔ ∃ s, (m.series.samplesFor s).entries ≠ [] := by
  rw [isEmpty, decide_eq_false_iff_not, m.counted, Nat.mod_eq_of_lt h, ← SeriesMap.length_pairs,
    List.length_eq_zero_iff]
  constructor
  · intro hne
    obtain ⟨⟨⟨s, t⟩, v⟩, hmem⟩ := List.exists_mem_of_ne_nil _ hne
    have hfind := SeriesMap.mem_pairs_iff_find.1 hmem
    exact ⟨s, List.ne_nil_of_mem (OrderedMap.find?_eq_some_iff.1 hfind)⟩
  · rintro ⟨s, hs⟩ hnil
    obtain ⟨⟨t, v⟩, hmem⟩ := List.exists_mem_of_ne_nil _ hs
    have hfind : m.series.find (s, t) = some v := OrderedMap.find?_eq_some_iff.2 hmem
    rw [← SeriesMap.mem_pairs_iff_find, hnil] at hfind
    simp at hfind

end MemTable

/-- The map into which compaction merges the blocks of segments, the oldest segment first. -/
def mergeBlocks (segments : List (List SegmentBlock)) : SeriesMap :=
  segments.foldl (fun merged blocks ↦ blocks.foldl mergeBlock merged) .empty

/-- **Splitting is lossless and well ordered**, for every table that puts and clears can reach and
for every map that compaction merges. No constructor of a block throws. The split is empty exactly
when there are no samples, which is what `empty` says of a table; its counter is as wide as an
address, so that it has not wrapped around for a table that fits into memory. -/
theorem blockSplitting_lossless :
    (∀ calls : List MemTable.Call, ∃ blocks,
      blocksFromSnapshots (MemTable.run calls).snapshot = .ok blocks ∧
        (MemTable.run calls).series.SplitInto blocks ∧
        (blocks ≠ [] ↔ ∃ s, (MemTable.run calls).samplesOf s ≠ []) ∧
        ((MemTable.run calls).series.total < 2 ^ 64 →
          (blocks ≠ [] ↔ (MemTable.run calls).isEmpty = false))) ∧
    ∀ segments : List (List SegmentBlock), ∃ blocks,
      blocksFromSnapshots (mergeBlocks segments).snapshot = .ok blocks ∧
        (mergeBlocks segments).SplitInto blocks ∧
        (blocks ≠ [] ↔ ∃ s, ((mergeBlocks segments).samplesFor s).entries ≠ []) := by
  constructor
  · intro calls
    obtain ⟨blocks, hok, hsplit⟩ := (MemTable.run calls).series.exists_splitInto
    refine ⟨blocks, hok, hsplit, ?_, fun htotal ↦ ?_⟩
    · rw [hsplit.ne_nil_iff]
      simp [MemTable.samplesOf]
    · rw [hsplit.ne_nil_iff, MemTable.isEmpty_eq_false_iff htotal]
  · intro segments
    obtain ⟨blocks, hok, hsplit⟩ := (mergeBlocks segments).exists_splitInto
    exact ⟨blocks, hok, hsplit, hsplit.ne_nil_iff⟩

/-- Puts to three series, of which the first is cleared, and two segments that share a series. -/
theorem blockSplitting_lossless_mem :
    (∃ blocks, blocksFromSnapshots (MemTable.run [.put ioSeries laterSample, .clear,
          .put cpuSeries laterSample, .put memSeries cpuSample,
          .put cpuSeries cpuSample]).snapshot =
        .ok blocks ∧ blocks ≠ []) ∧
      ∃ blocks, blocksFromSnapshots (mergeBlocks [[cpuBlock], storedBlocks]).snapshot = .ok blocks ∧
        (mergeBlocks [[cpuBlock], storedBlocks]).SplitInto blocks ∧ blocks ≠ [] := by
  obtain ⟨htable, hmerged⟩ := blockSplitting_lossless
  constructor
  · obtain ⟨blocks, hok, -, -, hempty⟩ := htable [.put ioSeries laterSample, .clear,
      .put cpuSeries laterSample, .put memSeries cpuSample, .put cpuSeries cpuSample]
    exact ⟨blocks, hok, (hempty (by decide +kernel)).2 (by decide +kernel)⟩
  · obtain ⟨blocks, hok, hsplit, hne⟩ := hmerged [[cpuBlock], storedBlocks]
    exact ⟨blocks, hok, hsplit, hne.2 ⟨memSeries, by decide +kernel⟩⟩

end ChronoStore
