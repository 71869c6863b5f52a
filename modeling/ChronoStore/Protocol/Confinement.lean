import ChronoStore.Protocol.Ownership

/-!
# Damage is confined

A segment is checked when it is opened, its blocks only when a query needs them; so a block that
goes bad later is noticed late. What the damage can reach is bounded by the index. In every run of
processes on a directory, whatever it held at first, the answer of an open database to a query, be
it a value or an exception, is a function of the engine and of the blocks that the query selects:
the block that covers the timestamp, the last block of the series, the blocks that meet the range,
in each segment. Two directories in which these blocks read the same give the same result.
-/

namespace ChronoStore

open FaultyDisk SegmentIndexEntry

/-- The selected blocks of each segment read the same in both directories. -/
def SameBlocks (select : SegmentReader → List SegmentIndexEntry) (segments : List SegmentReader)
    (f g : Directory) : Prop :=
  ∀ segment ∈ segments, ∀ entry ∈ select segment,
    readIn (f.find? (cString segment.path)) entry.blockOffset entry.blockSize =
      readIn (g.find? (cString segment.path)) entry.blockOffset entry.blockSize

/-- The blocks that a point query needs. -/
def covering (series : SeriesKey) (t : Timestamp) (segment : SegmentReader) :
    List SegmentIndexEntry :=
  segment.index.filter (Covers series t)

/-- The block that the latest sample needs. -/
def last (series : SeriesKey) (segment : SegmentReader) : List SegmentIndexEntry :=
  (segment.index.filter fun entry ↦ entry.series = series).getLast?.toList

/-- The blocks that a range needs. -/
def meeting (series : SeriesKey) (start stop : Timestamp) (segment : SegmentReader) :
    List SegmentIndexEntry :=
  segment.index.filter (Meets series start stop)

/-! ### Segments -/

/-- The samples of entries depend on their blocks only. -/
theorem samplesIn_congr {read read' : ℕ → ℕ → Except Error Bytes} {entries : List SegmentIndexEntry}
    (h : ∀ entry ∈ entries, read entry.blockOffset entry.blockSize =
      read' entry.blockOffset entry.blockSize) :
      samplesIn read entries = samplesIn read' entries := by
  have hblocks : entries.mapM' (SegmentReader.readBlock read) =
      entries.mapM' (SegmentReader.readBlock read') := by
    induction entries with
    | nil => rfl
    | cons entry entries ih =>
      rw [List.forall_mem_cons] at h
      rw [List.mapM'_cons, List.mapM'_cons, ih h.2, SegmentReader.readBlock,
        SegmentReader.readBlock, h.1]
  rw [samplesIn, samplesIn, hblocks]

/-- Two folds with the same steps are the same. -/
theorem foldlM_eq_of_mem {α β : Type} {m : Type → Type} [Monad m] {l : List α}
    {step step' : β → α → m β}
    (h : ∀ b, ∀ a ∈ l, step b a = step' b a) (b : β) : l.foldlM step b = l.foldlM step' b := by
  induction l generalizing b with
  | nil => rfl
  | cons a l ih =>
    rw [List.foldlM_cons, List.foldlM_cons, h b a List.mem_cons_self]
    congr 1
    funext b'
    exact ih (fun b a ha ↦ h b a (List.mem_cons_of_mem _ ha)) b'

section Segments

variable {segments : List SegmentReader} {f g : Directory} {series : SeriesKey}

/-- `get` depends on the blocks that cover the timestamp. -/
theorem getIn_of_sameBlocks (hordered : ∀ segment ∈ segments, OrderedIndex segment.index)
    {t : Timestamp}
    (h : SameBlocks (covering series t) segments f g) :
    getIn f series t segments = getIn g series t segments := by
  induction segments with
  | nil => rfl
  | cons segment older ih =>
    rw [List.forall_mem_cons] at hordered
    have hread := samplesIn_congr (h segment List.mem_cons_self)
    rw [getIn, getIn, get_eq_samplesIn hordered.1, get_eq_samplesIn hordered.1,
      ih hordered.2 fun s hs ↦ h s (List.mem_cons_of_mem _ hs)]
    exact congrArg (· >>= _) (congrArg _ hread)

/-- `latest` depends on the last blocks of the series. -/
theorem latestIn_of_sameBlocks (hordered : ∀ segment ∈ segments, OrderedIndex segment.index)
    (h : SameBlocks (last series) segments f g) :
    latestIn f segments series = latestIn g segments series := by
  refine foldlM_eq_of_mem (fun best segment hsegment ↦ ?_) none
  have hread := samplesIn_congr (h segment hsegment)
  rw [latest_eq_samplesIn (hordered segment hsegment),
    latest_eq_samplesIn (hordered segment hsegment)]
  exact congrArg (· >>= _) (congrArg _ hread)

/-- `range` depends on the blocks that meet the interval. -/
theorem rangeIn_of_sameBlocks (hordered : ∀ segment ∈ segments, OrderedIndex segment.index)
    {start stop : Timestamp}
    (hss : start ≤ stop) (h : SameBlocks (meeting series start stop) segments f g) :
    rangeIn f segments series start stop = rangeIn g segments series start stop := by
  refine foldlM_eq_of_mem (fun merged segment hsegment ↦ ?_) _
  have hread := samplesIn_congr (h segment hsegment)
  rw [range_eq_samplesIn (hordered segment hsegment) hss,
    range_eq_samplesIn (hordered segment hsegment) hss]
  exact congrArg (· >>= _) (congrArg _ hread)

end Segments

/-! ### Open databases -/

/-- A failed engine refuses whatever the files are. -/
theorem gives_ensureUsable (e : StorageEngine) (f : Directory) :
    Gives Error.IsIo StorageEngine.ensureUsable e f (if e.failed = true then
      .error (.runtimeError "storage engine is in a failed state; restart is required")
          else .ok ()) := by
  refine Gives.state.bind (g := fun e : StorageEngine ↦ if e.failed = true then .error _
    else .ok ())
    fun a ha ↦ ?_
  obtain rfl := Except.ok.inj ha
  exact Gives.of_reads (fun _ ↦ Reads.ite (fun _ ↦ Reads.throw _) fun _ ↦ Reads.pure _) _

/-- The program ends with the same value or the same exception on both directories, failing calls
aside. -/
def SameResult {α : Type} (m : Prog StorageEngine α) (e : StorageEngine) (f g : Directory) : Prop :=
  ∃ r, Gives Error.IsIo m e f r ∧ Gives Error.IsIo m e g r

section Queries

variable {e : StorageEngine} {d f g : Directory}

/-- A query with a part that reads. -/
theorem sameResult_of_reads {α : Type} {k : StorageEngine → Prog StorageEngine α}
    {r : Except Error α}
    (hf : ∀ S, Reads S Error.IsIo (fun d ↦ d = f) (k e) r)
    (hg : ∀ S, Reads S Error.IsIo (fun d ↦ d = g) (k e) r) :
    SameResult (do
      StorageEngine.ensureUsable
      k (← Act.state)) e f g := by
  have hgives : ∀ {d : Directory}, (∀ S, Reads S Error.IsIo (fun d' ↦ d' = d) (k e) r) →
      Gives Error.IsIo (do
        StorageEngine.ensureUsable
        k (← Act.state)) e d _ := fun {d} hd ↦
    (gives_ensureUsable e d).bind (g := fun _ ↦ Except.ok e >>= fun _ ↦ r) fun _ _ ↦
      Gives.state.bind fun a ha ↦ by
        obtain rfl := Except.ok.inj ha
        exact Gives.of_reads hd _
  exact ⟨_, hgives hf, hgives hg⟩

/-- `get` gives the same result in two directories that agree on what covers the timestamp. -/
theorem sameResult_get (h : e.Proper d) {series : SeriesKey} {t : Timestamp}
    (hsame : SameBlocks (covering series t) e.segments f g) :
    SameResult (StorageEngine.get series t) e f g := by
  have hordered : ∀ segment ∈ e.segments.reverse, OrderedIndex segment.index :=
    fun segment hsegment ↦
    h.ordered segment (List.mem_reverse.1 hsegment)
  have hread := getIn_of_sameBlocks hordered fun segment hsegment ↦
    hsame segment (List.mem_reverse.1 hsegment)
  refine sameResult_of_reads (r := if (e.memtable.get series t).isSome then .ok _ else
    getIn f series t e.segments.reverse) (fun _ ↦ Reads.ite (fun _ ↦ Reads.pure _) fun _ ↦
      reads_getInSegments_in series t _) fun _ ↦ Reads.ite (fun _ ↦ Reads.pure _) fun _ ↦ ?_
  rw [hread]
  exact reads_getInSegments_in series t _

/-- `latest` gives the same result in two directories that agree on the last blocks of the series.
-/
theorem sameResult_latest (h : e.Proper d) {series : SeriesKey}
    (hsame : SameBlocks (last series) e.segments f g) :
    SameResult (StorageEngine.latest series) e f g := by
  have hread := latestIn_of_sameBlocks h.ordered hsame
  refine sameResult_of_reads (r := latestIn f e.segments series >>= fun _ ↦ _) (fun _ ↦
    (reads_latestInSegments_in e.segments series).bind fun _ _ ↦ Reads.pure _) fun _ ↦ ?_
  rw [hread]
  exact (reads_latestInSegments_in e.segments series).bind fun _ _ ↦ Reads.pure _

/-- `range` gives the same result in two directories that agree on what meets the interval. -/
theorem sameResult_range (h : e.Proper d) {series : SeriesKey} {start stop : Timestamp}
    (hsame : SameBlocks (meeting series start stop) e.segments f g) :
    SameResult (StorageEngine.range series start stop) e f g := by
  rw [StorageEngine.range]
  by_cases hss : stop < start
  · simp only [if_pos hss]
    have hgives : ∀ d, Gives Error.IsIo (do
        StorageEngine.ensureUsable
        Act.throw (.invalidArgument "range end must not precede range start") :
          Prog StorageEngine (List Sample)) e d _ := fun d ↦
      (gives_ensureUsable e d).bind (g := fun _ ↦ .error _) fun _ _ ↦
        Gives.of_reads (fun _ ↦ Reads.throw _) e
    exact ⟨_, hgives f, hgives g⟩
  · simp only [if_neg hss]
    have hread := rangeIn_of_sameBlocks h.ordered (not_lt.1 hss) hsame
    have hrest : ∀ {S : List Event} {d : Directory} (merged : SamplesByTimestamp),
        Reads S Error.IsIo (fun d' ↦ d' = d) (do
          let recent ← Act.ofExcept (e.memtable.range series start stop)
          return (StorageEngine.overlay merged recent).entries.map sampleOf : Prog StorageEngine _)
          (e.memtable.range series start stop >>= fun recent ↦
            .ok ((StorageEngine.overlay merged recent).entries.map sampleOf)) := fun merged ↦
      (Reads.ofExcept _).bind fun _ _ ↦ Reads.pure _
    refine sameResult_of_reads (r := rangeIn f e.segments series start stop >>= fun merged ↦ _)
      (fun _ ↦ (reads_rangeInSegments_in e.segments series start stop).bind fun _ _ ↦ hrest _)
        fun _ ↦ ?_
    rw [hread]
    exact (reads_rangeInSegments_in e.segments series start stop).bind fun _ _ ↦ hrest _

end Queries

/-- **Damage is confined.** In every run, on any directory, let a database be open, and let two
directories agree on the blocks that a query selects in its segments. The query has the same result
on both. -/
theorem damage_confined {π ι : Type} [DecidableEq π] [DecidableEq ι] {d : Directory}
    {v : System π ι}
    (hruns : Runs d v) {p : π} {db : Database} (hp : v.process p = .opened db) (f g : Directory)
    (series : SeriesKey) :
    (∀ t, SameBlocks (covering series t) db.engine.segments f g →
      SameResult (StorageEngine.get series t) db.engine f g) ∧
    (SameBlocks (last series) db.engine.segments f g →
      SameResult (StorageEngine.latest series) db.engine f g) ∧
    ∀ start stop, SameBlocks (meeting series start stop) db.engine.segments f g →
      SameResult (StorageEngine.range series start stop) db.engine f g := by
  have hproper := hruns.minds.2 p db hp
  exact ⟨fun _ ↦ sameResult_get hproper, sameResult_latest hproper,
    fun _ _ ↦ sameResult_range hproper⟩

/-- The segment of the small example, with the first byte of its last block changed. -/
def damagedBytes : Bytes := (segmentBytes storedBlocks).set 134 7

/-- The directory with this segment. -/
def damagedDirectory : Directory := sharedDirectory.insert (segmentFilename 1) damagedBytes

/-- The damage is in the block of `mem`, and is noticed there; the latest sample of `cpu` does not
depend on that block. -/
theorem damage_confined_mem : ∃ (v : System Unit Unit) (db : Database), Runs sharedDirectory v ∧
    v.process () = .opened db ∧
      SameResult (StorageEngine.latest cpuSeries) db.engine sharedDirectory damagedDirectory ∧
      latestIn sharedDirectory db.engine.segments memSeries = .ok (some laterSample) ∧
      ∃ what, latestIn damagedDirectory db.engine.segments memSeries =
        .error (.segmentFormatError what) := by
  have hone := oneSegment_sharedDirectory
  have hlive : ¬MistakesLive [segmentFilename 1] := not_mistakesLive (List.forall_mem_singleton.2
    (notMem_segmentFilename (Or.inl (by decide)) 1)) (List.forall_mem_singleton.2 hone.valid)
  obtain ⟨v, db, hruns, hopened, hsegments, -, -⟩ := hone.exists_runs hlive (by decide +kernel)
  let reader := SegmentReader.of (segmentFilename 1) storedBlocks
  have hwhole : sharedDirectory.find? (cString reader.path) = some (segmentBytes storedBlocks) :=
    hone.segment
  have hdamaged : damagedDirectory.find? (cString reader.path) = some damagedBytes := by
    rw [show cString reader.path = segmentFilename 1 from cString_segmentFilename 1,
      damagedDirectory, OrderedMap.find?_insert, if_pos rfl]
  have hsame : SameBlocks (last cpuSeries) [reader] sharedDirectory damagedDirectory := by
    rintro segment hsegment entry hentry
    obtain rfl := List.mem_singleton.1 hsegment
    rw [hwhole, hdamaged]
    revert entry
    decide +kernel
  have hlatest : ∀ g, latestIn g db.engine.segments memSeries = (do
      let candidate ← reader.latest (readIn (g.find? (cString reader.path))) memSeries
      return StorageEngine.later candidate none) := fun g ↦ by
    rw [hsegments, latestIn, List.foldlM_cons]
    exact bind_pure _
  have hsound : reader.latest (readIn (some (segmentBytes storedBlocks))) memSeries =
      .ok (samplesOf memSeries storedBlocks).getLast? :=
    latest_eq (describes_segmentBytes hone.accepted) hone.accepted.ordered
  have hbroken : reader.latest (readIn (some damagedBytes)) memSeries =
      .error (.segmentFormatError "segment block does not match its index entry") := by
    decide +kernel
  refine ⟨v, db, hruns, hopened, ?_, ?_, "segment block does not match its index entry", ?_⟩
  · exact (damage_confined hruns hopened _ _ cpuSeries).2.1 (hsegments ▸ hsame)
  · rw [hlatest, hwhole, hsound]
    rfl
  · rw [hlatest, hdamaged, hbroken]
    rfl

end ChronoStore
