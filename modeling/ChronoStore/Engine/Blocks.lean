import ChronoStore.Codec.SegmentReader
import ChronoStore.Engine.MemTable

/-!
# From maps to blocks and back

Publication cuts the samples of each series into blocks (`blocks_from_snapshots`), and compaction
merges the blocks of several segments into one map. Both are described by the write history that
blocks hold, `entriesOf`: cutting a map lists its entries (`blocksFromSnapshots_snapshot`), and
merging blocks writes theirs (`find_foldl_mergeBlock`).
-/

namespace ChronoStore

open WriteHistory

/-- The entries of a block, as a write history. -/
def SegmentBlock.blockEntries (block : SegmentBlock) : List (Key × Value) :=
  block.samples.map fun x ↦ ((block.series, x.timestamp), x.value)

/-- The entries of blocks, as a write history. -/
def entriesOf (blocks : List SegmentBlock) : List (Key × Value) :=
  blocks.flatMap SegmentBlock.blockEntries

@[simp] theorem entriesOf_nil : entriesOf [] = [] := rfl

/-- Blocks in a row have their entries in a row. -/
theorem entriesOf_append (a b : List SegmentBlock) :
    entriesOf (a ++ b) = entriesOf a ++ entriesOf b :=
  List.flatMap_append

theorem entriesOf_cons (block : SegmentBlock) (blocks : List SegmentBlock) :
    entriesOf (block :: blocks) = block.blockEntries ++ entriesOf blocks :=
  List.flatMap_cons

/-- There are as many entries as samples. -/
theorem length_entriesOf (blocks : List SegmentBlock) :
    (entriesOf blocks).length = countSamples blocks := by
  rw [entriesOf, List.length_flatMap, countSamples]
  simp only [SegmentBlock.blockEntries, List.length_map]
  rfl

/-- The entries of a series are its samples. -/
theorem mem_entriesOf {blocks : List SegmentBlock} {s : SeriesKey} {t : Timestamp} {v : Value} :
    ((s, t), v) ∈ entriesOf blocks ↔ (⟨t, v⟩ : Sample) ∈ samplesOf s blocks := by
  rw [entriesOf, List.mem_flatMap, samplesOf, List.mem_flatMap]
  constructor
  · rintro ⟨b, hb, hk⟩
    obtain ⟨x, hx, heq⟩ := List.mem_map.1 hk
    rw [Prod.mk.injEq, Prod.mk.injEq] at heq
    obtain ⟨⟨rfl, rfl⟩, rfl⟩ := heq
    exact ⟨b, List.mem_filter.2 ⟨hb, by simp⟩, hx⟩
  · rintro ⟨b, hb, hx⟩
    rw [List.mem_filter, decide_eq_true_eq] at hb
    exact ⟨b, hb.1, List.mem_map.2 ⟨_, hx, by rw [hb.2]⟩⟩

/-- An entry of a block lies between its first and last timestamp. -/
theorem mem_blockEntries {block : SegmentBlock} {k : Key} {v : Value}
    (h : (k, v) ∈ block.blockEntries) : k.1 = block.series ∧
      block.firstTimestamp ≤ k.2 ∧ k.2 ≤ block.lastTimestamp := by
  obtain ⟨x, hx, heq⟩ := List.mem_map.1 h
  rw [Prod.mk.injEq] at heq
  rw [← heq.1]
  exact ⟨rfl, block.firstTimestamp_le hx, block.le_lastTimestamp hx⟩

/-- In ordered blocks no key occurs twice. -/
theorem entriesOf_nodup {blocks : List SegmentBlock} (h : blocks.Pairwise SegmentBlock.Before) :
    ((entriesOf blocks).map Prod.fst).Nodup := by
  induction blocks with
  | nil => exact List.nodup_nil
  | cons block blocks ih =>
    rw [List.pairwise_cons] at h
    rw [entriesOf_cons, List.map_append, List.nodup_append]
    refine ⟨?_, ih h.2, ?_⟩
    · have hkeys : (block.samples.map Sample.timestamp).Nodup :=
        (List.pairwise_map.2 block.sorted).imp fun hab ↦ hab.ne
      have := hkeys.map (f := fun t ↦ (block.series, t)) fun a b hab ↦ (Prod.mk.inj hab).2
      rw [List.map_map] at this
      rw [SegmentBlock.blockEntries, List.map_map]
      exact this
    · intro k hk k' hk' heq
      subst heq
      obtain ⟨⟨k', v⟩, hv, rfl⟩ := List.mem_map.1 hk
      obtain ⟨⟨k'', v'⟩, hv', heq⟩ := List.mem_map.1 hk'
      obtain rfl : k'' = k' := heq
      obtain ⟨b, hb, hvb⟩ := List.mem_flatMap.1 hv'
      have h₁ := mem_blockEntries hv
      have h₂ := mem_blockEntries hvb
      rcases h.1 b hb with hlt | ⟨-, hlt⟩
      · exact hlt.ne (h₁.1.symm.trans h₂.1)
      · exact absurd (h₁.2.2.trans_lt hlt) (not_lt.2 h₂.2.1)

/-- **What a segment says about a key** is what its samples of the series say. -/
theorem lastWrite_entriesOf {blocks : List SegmentBlock} (h : blocks.Pairwise SegmentBlock.Before)
    {s : SeriesKey} {x : Sample} :
    lastWrite (entriesOf blocks) (s, x.timestamp) = some x.value ↔ x ∈ samplesOf s blocks := by
  rw [lastWrite_eq_some_iff (entriesOf_nodup h), mem_entriesOf]

/-! ### Cutting a map into blocks -/

/-- The inner loop of `blocks_from_snapshots`. -/
def blocksFromSamples (series : SeriesKey) :
    (fuel : ℕ) → List Sample → Except Error (List SegmentBlock)
  | 0, _ => .ok []
  | fuel + 1, samples =>
    if samples = [] then .ok [] else do
    let block ← SegmentBlock.make series (samples.take maxSamplesPerSegmentBlock)
    let rest ← blocksFromSamples series fuel (samples.drop maxSamplesPerSegmentBlock)
    return block :: rest

/-- `blocks_from_snapshots`: the samples of each series are cut into blocks of the largest size; the
last one may be smaller. -/
def blocksFromSnapshots : List MemTableSeriesSnapshot → Except Error (List SegmentBlock)
  | [] => .ok []
  | snapshot :: snapshots => do
    let blocks ← blocksFromSamples snapshot.series snapshot.samples.length snapshot.samples
    let rest ← blocksFromSnapshots snapshots
    return blocks ++ rest

/-- Ordered samples are cut into ordered blocks of one series, which have these samples. -/
theorem blocksFromSamples_spec (series : SeriesKey) {samples : List Sample} {fuel : ℕ}
    (hfuel : samples.length ≤ fuel)
    (hsorted : samples.Pairwise fun a b ↦ a.timestamp < b.timestamp) :
    ∃ blocks, blocksFromSamples series fuel samples = .ok blocks ∧
      (∀ b ∈ blocks, b.series = series) ∧ blocks.flatMap SegmentBlock.samples = samples ∧
      blocks.Pairwise SegmentBlock.Before := by
  induction fuel generalizing samples with
  | zero =>
    obtain rfl : samples = [] := List.length_eq_zero_iff.1 (by omega)
    exact ⟨[], rfl, by simp, rfl, List.Pairwise.nil⟩
  | succ fuel ih =>
    rw [blocksFromSamples]
    by_cases hnil : samples = []
    · rw [if_pos hnil]
      exact ⟨[], rfl, by simp, hnil.symm, List.Pairwise.nil⟩
    · rw [if_neg hnil]
      have hpos := List.length_pos_of_ne_nil hnil
      have htake : samples.take maxSamplesPerSegmentBlock ≠ [] := by
        rw [Ne, List.take_eq_nil_iff]
        simp [hnil, maxSamplesPerSegmentBlock]
      have hmake := SegmentBlock.make_of series htake
        (by rw [List.length_take]; omega) (hsorted.sublist (List.take_sublist _ _))
      have hless : (samples.drop maxSamplesPerSegmentBlock).length ≤ fuel := by
        rw [List.length_drop]
        unfold maxSamplesPerSegmentBlock
        omega
      obtain ⟨blocks, hok, hseries, hflat, hord⟩ := ih hless
        (hsorted.sublist (List.drop_sublist _ _))
      rw [hmake, hok]
      refine ⟨_, rfl, List.forall_mem_cons.2 ⟨rfl, hseries⟩, ?_, List.pairwise_cons.2 ⟨?_, hord⟩⟩
      · rw [List.flatMap_cons, hflat, List.take_append_drop]
      · -- every sample of a later block comes from behind the cut
        intro b hb
        refine Or.inr ⟨(hseries b hb).symm, ?_⟩
        have hsplit := hsorted
        rw [← List.take_append_drop maxSamplesPerSegmentBlock samples,
          List.pairwise_append] at hsplit
        refine hsplit.2.2 _ (List.getLast_mem htake) _ ?_
        rw [← hflat]
        exact List.mem_flatMap.2 ⟨b, hb, List.head_mem b.samples_ne_nil⟩

/-- **Snapshots are cut into ordered blocks that hold their samples.** -/
theorem blocksFromSnapshots_spec (snapshots : List MemTableSeriesSnapshot)
    (hseries : snapshots.Pairwise fun a b ↦ a.series < b.series)
    (hsorted : ∀ s ∈ snapshots, s.samples.Pairwise fun a b ↦ a.timestamp < b.timestamp) :
    ∃ blocks, blocksFromSnapshots snapshots = .ok blocks ∧
      (∀ b ∈ blocks, ∃ s ∈ snapshots, b.series = s.series) ∧
      entriesOf blocks = snapshots.flatMap (fun s ↦
        s.samples.map fun x ↦ ((s.series, x.timestamp), x.value)) ∧
      blocks.Pairwise SegmentBlock.Before := by
  induction snapshots with
  | nil => exact ⟨[], rfl, by simp, rfl, List.Pairwise.nil⟩
  | cons s snapshots ih =>
    rw [List.pairwise_cons] at hseries
    rw [List.forall_mem_cons] at hsorted
    obtain ⟨blocks, hok, hs, hflat, hord⟩ := blocksFromSamples_spec s.series (le_refl _) hsorted.1
    obtain ⟨rest, hok', hs', hent', hord'⟩ := ih hseries.2 hsorted.2
    have hent : entriesOf blocks = s.samples.map fun x ↦ ((s.series, x.timestamp), x.value) := by
      conv_rhs => rw [← hflat, List.map_flatMap]
      exact List.flatMap_congr fun b hb ↦ by rw [SegmentBlock.blockEntries, hs b hb]
    rw [blocksFromSnapshots, hok, hok']
    refine ⟨_, rfl, ?_, ?_, List.pairwise_append.2 ⟨hord, hord', ?_⟩⟩
    · intro b hb
      rcases List.mem_append.1 hb with hb | hb
      · exact ⟨s, List.mem_cons_self, hs b hb⟩
      · obtain ⟨s', hmem, heq⟩ := hs' b hb
        exact ⟨s', List.mem_cons_of_mem _ hmem, heq⟩
    · rw [entriesOf_append, hent, hent', List.flatMap_cons]
    · intro a ha b hb
      obtain ⟨s', hmem, heq⟩ := hs' b hb
      exact Or.inl (by rw [hs a ha, heq]; exact hseries.1 s' hmem)

/-- **A map is cut into ordered blocks that list its entries.** -/
theorem blocksFromSnapshots_snapshot (m : SeriesMap) :
    ∃ blocks, blocksFromSnapshots m.snapshot = .ok blocks ∧ entriesOf blocks = m.pairs ∧
      blocks.Pairwise SegmentBlock.Before := by
  obtain ⟨blocks, hok, -, hent, hord⟩ := blocksFromSnapshots_spec m.snapshot
    (List.pairwise_map.2 m.sorted) (by
      intro s hs
      obtain ⟨e, -, rfl⟩ := List.mem_map.1 hs
      exact List.pairwise_map.2 e.2.sorted)
  refine ⟨blocks, hok, ?_, hord⟩
  rw [hent, SeriesMap.snapshot, List.flatMap_map, SeriesMap.pairs]
  refine List.flatMap_congr fun e _ ↦ ?_
  rw [List.map_map]
  rfl

/-- Whatever is cut from a map lists its entries. -/
theorem entriesOf_of_blocksFromSnapshots {m : SeriesMap} {blocks : List SegmentBlock}
    (h : blocksFromSnapshots m.snapshot = .ok blocks) : entriesOf blocks = m.pairs := by
  obtain ⟨blocks', hok, hentries, -⟩ := blocksFromSnapshots_snapshot m
  rwa [Except.ok.inj (h.symm.trans hok)]

/-! ### Merging blocks into a map -/

/-- The loop of compaction over the samples of one block. -/
def mergeBlock (merged : SeriesMap) (block : SegmentBlock) : SeriesMap :=
  OrderedMap.insert merged block.series
    (block.samples.foldl (fun samples x ↦ samples.insert x.timestamp x.value)
      (merged.samplesFor block.series))

/-- A search in a map into which samples have been written finds the last of them. -/
theorem find?_foldl_insert (samples : List Sample) (m : SamplesByTimestamp) (series : SeriesKey)
    (t : Timestamp) :
    (samples.foldl (fun acc x ↦ acc.insert x.timestamp x.value) m).find? t =
      (lastWrite (samples.map fun x ↦ ((series, x.timestamp), x.value)) (series, t)).or
        (m.find? t) := by
  induction samples generalizing m with
  | nil => rfl
  | cons x samples ih =>
    rw [List.foldl_cons, ih, OrderedMap.find?_insert, List.map_cons, lastWrite, Option.or_assoc]
    congr 1
    by_cases ht : t = x.timestamp
    · simp [ht]
    · simp [ht, Ne.symm ht]

/-- **Merging a block writes its entries.** -/
theorem find_mergeBlock (m : SeriesMap) (block : SegmentBlock) (k : Key) :
    SeriesMap.find (mergeBlock m block) k = (lastWrite block.blockEntries k).or (m.find k) := by
  obtain ⟨s, t⟩ := k
  rw [SeriesMap.find, mergeBlock, SeriesMap.samplesFor_insert]
  by_cases hs : s = block.series
  · subst hs
    rw [if_pos rfl, find?_foldl_insert _ _ block.series]
    rfl
  · have hnone : lastWrite block.blockEntries (s, t) = none := by
      rw [lastWrite_eq_none_iff, WriteHistory.keys, List.mem_toFinset, List.mem_map]
      rintro ⟨⟨k, v⟩, hmem, rfl⟩
      exact hs (mem_blockEntries hmem).1
    rw [if_neg hs, hnone, Option.none_or]
    rfl

/-- A search in a map into which blocks have been merged finds the last entry of the key. -/
theorem find_foldl_mergeBlock (blocks : List SegmentBlock) (m : SeriesMap) (k : Key) :
    SeriesMap.find (blocks.foldl mergeBlock m) k =
      (lastWrite (entriesOf blocks) k).or (m.find k) := by
  induction blocks generalizing m with
  | nil => rfl
  | cons block blocks ih =>
    rw [List.foldl_cons, ih, find_mergeBlock, entriesOf_cons, lastWrite_append, Option.or_assoc]

end ChronoStore
