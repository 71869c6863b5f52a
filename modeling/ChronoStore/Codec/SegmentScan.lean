import ChronoStore.Codec.SegmentFormat
import Mathlib.Algebra.BigOperators.Group.Finset.Piecewise

/-!
# Queries on a segment and the scan of its blocks

The queries of a reader walk its index and decode only the blocks that they need. On a file that
opens and whose blocks can all be read, they answer as a scan of all the blocks would: the file is
the one that the writer produces from these blocks (`eq_segmentBytes_of_open`), so every entry of
the index leads to its block, and the two orders that the walks rely on are those that the writer
checks.
-/

namespace ChronoStore

/-- One more block adds its samples to its series. -/
theorem length_samplesOf_cons (series : SeriesKey) (block : SegmentBlock)
    (blocks : List SegmentBlock) :
    (samplesOf series (block :: blocks)).length =
      (if block.series = series then block.samples.length else 0) +
        (samplesOf series blocks).length := by
  by_cases h : block.series = series
  · rw [samplesOf_cons_of_eq h, List.length_append, if_pos h]
  · rw [if_neg h, Nat.zero_add, samplesOf, samplesOf, List.filter_cons_of_neg (by simpa using h)]

/-- The samples of blocks, counted series by series. -/
theorem sum_length_samplesOf {blocks : List SegmentBlock} {all : Finset SeriesKey}
    (h : ∀ block ∈ blocks, block.series ∈ all) :
    ∑ series ∈ all, (samplesOf series blocks).length = countSamples blocks := by
  induction blocks with
  | nil => exact Finset.sum_eq_zero fun _ _ ↦ rfl
  | cons block blocks ih =>
    rw [List.forall_mem_cons] at h
    have hone : ∑ series ∈ all, (if block.series = series then block.samples.length else 0) =
        block.samples.length := by
      rw [Finset.sum_ite_eq, if_pos h.1]
    simp only [length_samplesOf_cons, Finset.sum_add_distrib]
    rw [hone, ih h.2]
    rfl

/-- **Indexed queries are a scan.** On a byte string that opens and whose blocks can all be read,
let the samples of a series be those of its blocks, one block behind the other. They stand in
strictly increasing order; `get`, `latest` and `range` pick from them what their names say; and the
sample count of the reader counts them, over all series. -/
theorem segmentQueries_eq_scan {path content : Bytes} {reader : SegmentReader}
    {blocks : List SegmentBlock}
    (hopen : SegmentReader.open path (.ok content.length : Except Error ℕ) (readFileRange content) =
      .ok reader)
    (hblocks : reader.blocks (readFileRange content) = .ok blocks) :
    (∀ series, ((samplesOf series blocks).Pairwise fun a b ↦ a.timestamp < b.timestamp) ∧
      (∀ t, reader.get (readFileRange content) series t =
        .ok ((samplesOf series blocks).find? fun x ↦ x.timestamp = t)) ∧
      reader.latest (readFileRange content) series = .ok (samplesOf series blocks).getLast? ∧
      ∀ start stop, start ≤ stop → reader.range (readFileRange content) series start stop =
        .ok ((samplesOf series blocks).filter fun x ↦ start ≤ x.timestamp ∧ x.timestamp < stop)) ∧
    reader.sampleCount =
      ∑ series ∈ (blocks.map SegmentBlock.series).toFinset, (samplesOf series blocks).length := by
  obtain ⟨hacc, rfl⟩ := eq_segmentBytes_of_open hopen hblocks
  have hreader : reader = SegmentReader.of path blocks := by
    rw [open_segmentBytes hacc] at hopen
    exact (Except.ok.inj hopen).symm
  have hd : List.Forall₂ (Describes (readFileRange (segmentBytes blocks))) reader.index blocks := by
    rw [hreader]
    exact describes_segmentBytes hacc
  have hord := hacc.ordered
  refine ⟨fun series ↦ ⟨samplesOf_sorted hord, get_eq hd hord, latest_eq hd hord,
    fun start stop hle ↦ range_eq hd hord hle⟩, ?_⟩
  rw [hreader, sum_length_samplesOf fun block hmem ↦ List.mem_toFinset.2 (List.mem_map_of_mem hmem)]
  rfl

/-- Three blocks, of which two belong to the series that is asked for. -/
theorem segmentQueries_eq_scan_storedBlocks :
    ∃ reader, SegmentReader.open [] (.ok (segmentBytes storedBlocks).length : Except Error ℕ)
        (readFileRange (segmentBytes storedBlocks)) = .ok reader ∧
      reader.blocks (readFileRange (segmentBytes storedBlocks)) = .ok storedBlocks ∧
      reader.get (readFileRange (segmentBytes storedBlocks)) cpuSeries ⟨5⟩ = .ok (some cpuSample) ∧
      reader.latest (readFileRange (segmentBytes storedBlocks)) cpuSeries = .ok (some laterSample) ∧
      reader.range (readFileRange (segmentBytes storedBlocks)) cpuSeries ⟨5⟩ ⟨10⟩ =
        .ok [cpuSample, laterSample] ∧
      reader.sampleCount = 4 := by
  have hacc := segmentAccepts_storedBlocks
  have hopen := open_segmentBytes hacc []
  have hblocks : (SegmentReader.of [] storedBlocks).blocks
    (readFileRange (segmentBytes storedBlocks)) =
      .ok storedBlocks := blocks_eq (describes_segmentBytes hacc)
  obtain ⟨hqueries, hcount⟩ := segmentQueries_eq_scan hopen hblocks
  obtain ⟨-, hget, hlatest, hrange⟩ := hqueries cpuSeries
  refine ⟨_, hopen, hblocks, (hget ⟨5⟩).trans ?_, hlatest.trans ?_,
    (hrange ⟨5⟩ ⟨10⟩ (by decide)).trans ?_, hcount.trans ?_⟩ <;> decide +kernel

end ChronoStore
