import ChronoStore.Codec.SegmentDamage
import ChronoStore.Codec.SegmentFormat
import Mathlib.Data.List.TakeWhile

/-!
# Which blocks a query reads

A reader finds the blocks of a query by walking its index: it goes to the first entry of the series,
passes over entries that end too early, and stops at the first that starts too late. The constructor
has checked the order of the index, so the walk comes down to a selection: the entry that covers a
timestamp, the last entry of a series, the entries that meet a range of time. A query reads the
blocks of these entries, each once and in the order of the index, and no others.

The equations hold for programs in any lawful monad, whatever the blocks contain. Read over the
faulty disk they say which reads a query makes; read in `Except` they confine damage to the queries
that need the block.
-/

namespace ChronoStore

namespace SegmentIndexEntry

/-- The block may hold a sample of the series at this time. -/
def Covers (series : SeriesKey) (t : Timestamp) (entry : SegmentIndexEntry) : Prop :=
  entry.series = series ∧ entry.firstTimestamp ≤ t ∧ t ≤ entry.lastTimestamp

instance (series : SeriesKey) (t : Timestamp) : DecidablePred (Covers series t) := fun entry ↦
  inferInstanceAs (Decidable (entry.series = series ∧ _))

/-- The block may hold samples of the series from `start` on and before `stop`. -/
def Meets (series : SeriesKey) (start stop : Timestamp) (entry : SegmentIndexEntry) : Prop :=
  entry.series = series ∧ start ≤ entry.lastTimestamp ∧ max start entry.firstTimestamp < stop

instance (series : SeriesKey) (start stop : Timestamp) : DecidablePred (Meets series start stop) :=
  fun entry ↦ inferInstanceAs (Decidable (entry.series = series ∧ _))

/-- In the order of series, then of time. -/
def Before (entry next : SegmentIndexEntry) : Prop :=
  entry.series < next.series ∨
    entry.series = next.series ∧ entry.lastTimestamp < next.firstTimestamp

/-- What may follow an entry comes after it. -/
theorem Follows.before {entry next : SegmentIndexEntry} (h : entry.Follows next) :
    entry.Before next := by
  rcases lt_trichotomy entry.series next.series with hlt | heq | hgt
  · exact .inl hlt
  · exact .inr ⟨heq, not_le.1 fun hle ↦ h (.inr ⟨heq.symm, hle⟩)⟩
  · exact absurd (.inl hgt) h

end SegmentIndexEntry

open SegmentIndexEntry

/-- The order of an index, as `validate_index` leaves it. -/
structure OrderedIndex (index : List SegmentIndexEntry) : Prop where
  forward : ∀ entry ∈ index, entry.firstTimestamp ≤ entry.lastTimestamp
  before : index.Pairwise SegmentIndexEntry.Before

namespace OrderedIndex

theorem of_cons {entry : SegmentIndexEntry} {entries : List SegmentIndexEntry}
    (h : OrderedIndex (entry :: entries)) : OrderedIndex entries :=
  ⟨fun e he ↦ h.forward e (List.mem_cons_of_mem _ he), (List.pairwise_cons.1 h.before).2⟩

/-- A part of an ordered index is ordered. -/
theorem sublist {entries index : List SegmentIndexEntry} (h : OrderedIndex index)
    (hsub : entries.Sublist index) : OrderedIndex entries :=
  ⟨fun e he ↦ h.forward e (hsub.subset he), h.before.sublist hsub⟩

/-- The series of an ordered index do not decrease. -/
theorem series_le {index : List SegmentIndexEntry} (h : OrderedIndex index) :
    index.Pairwise fun a b ↦ a.series ≤ b.series :=
  h.before.imp fun hab ↦ hab.elim le_of_lt fun heq ↦ heq.1.le

end OrderedIndex

/-- The checks between neighbours order the whole index. -/
theorem ordered_of_validateIndexFrom {indexOffset offset : ℕ} {previous : Option SegmentIndexEntry}
    {entries : List SegmentIndexEntry}
    (h : validateIndexFrom indexOffset previous offset entries = .ok ()) :
    OrderedIndex entries ∧ ∀ p ∈ previous, p.firstTimestamp ≤ p.lastTimestamp →
      ∀ entry ∈ entries, p.Before entry := by
  induction entries generalizing previous offset with
  | nil => exact ⟨⟨by simp, .nil⟩, by simp⟩
  | cons entry entries ih =>
    rw [validateIndexFrom] at h
    split at h
    · cases h
    rename_i hentry
    split at h
    · cases h
    split at h
    · cases h
    rename_i hprevious
    simp only [not_or, not_lt] at hentry
    have hforward := hentry.2.2.2.2.2
    obtain ⟨hordered, hbefore⟩ := ih h
    have hrest := hbefore entry rfl hforward
    refine ⟨⟨List.forall_mem_cons.2 ⟨hforward, hordered.forward⟩,
      List.pairwise_cons.2 ⟨hrest, hordered.before⟩⟩, ?_⟩
    rintro p rfl hp
    have hfollows : p.Before entry := Follows.before (by simpa using hprevious)
    refine List.forall_mem_cons.2 ⟨hfollows, fun next hnext ↦ ?_⟩
    -- the order is transitive on entries that end no earlier than they start
    rcases hfollows with hlt | ⟨heq, hlt⟩
    · rcases hrest next hnext with hlt' | ⟨heq', -⟩
      · exact .inl (hlt.trans hlt')
      · exact .inl (heq' ▸ hlt)
    · rcases hrest next hnext with hlt' | ⟨heq', hlt'⟩
      · exact .inl (heq ▸ hlt')
      · exact .inr ⟨heq.trans heq', (hlt.trans_le hforward).trans hlt'⟩

/-- **The index of an opened file is ordered**, whatever its blocks contain. -/
theorem ordered_of_open {path : Bytes} {size : Except Error ℕ} {read : ℕ → ℕ → Except Error Bytes}
    {reader : SegmentReader} (h : SegmentReader.open path size read = .ok reader) :
    OrderedIndex reader.index := by
  obtain ⟨_, _, -, hopened⟩ := SegmentReader.of_open h
  obtain ⟨_, -, hindex⟩ := hopened.index
  exact (ordered_of_validateIndexFrom (of_decodeIndex hindex).2.2.2).1

/-! ### From the walk to the selection -/

/-- Skipping to a series loses no entry of it. -/
theorem filter_dropWhile_series {index : List SegmentIndexEntry} (h : OrderedIndex index)
    {series : SeriesKey} {p : SegmentIndexEntry → Prop} [DecidablePred p]
    (hp : ∀ entry, p entry → entry.series = series) :
    (index.dropWhile fun entry ↦ entry.series < series).filter p = index.filter p := by
  rw [SortedList.dropWhile_lt_eq_filter h.series_le, List.filter_filter]
  congr 1
  funext entry
  by_cases hentry : p entry
  · simp [hp entry hentry]
  · simp [hentry]

/-- Behind the lower bound of a series, no entry is of an earlier one. -/
theorem le_of_mem_dropWhile {index : List SegmentIndexEntry} (h : OrderedIndex index)
    {series : SeriesKey} {entry : SegmentIndexEntry}
    (hentry : entry ∈ index.dropWhile fun entry ↦ entry.series < series) :
    series ≤ entry.series := by
  rw [SortedList.dropWhile_lt_eq_filter h.series_le] at hentry
  simpa using (List.mem_filter.1 hentry).2

section Walk

variable {entry : SegmentIndexEntry} {entries : List SegmentIndexEntry} {series : SeriesKey}

/-- Past a greater series there is no entry of this one. -/
theorem filter_eq_nil_of_ne (h : OrderedIndex (entry :: entries)) (hle : series ≤ entry.series)
    (hne : entry.series ≠ series) {p : SegmentIndexEntry → Prop} [DecidablePred p]
    (hp : ∀ entry, p entry → entry.series = series) : (entry :: entries).filter p = [] := by
  refine List.filter_eq_nil_iff.2 fun e he ↦ ?_
  have hlt : series < e.series := by
    rcases List.mem_cons.1 he with rfl | he
    · exact lt_of_le_of_ne hle hne.symm
    · exact (lt_of_le_of_ne hle hne.symm).trans_le ((List.pairwise_cons.1 h.series_le).1 e he)
  simpa using fun hpe ↦ hlt.ne' (hp e hpe)

/-- Later entries of the series of an entry start behind its end. -/
theorem lastTimestamp_lt (h : OrderedIndex (entry :: entries)) {e : SegmentIndexEntry}
    (he : e ∈ entries) (hseries : e.series = entry.series) :
    entry.lastTimestamp < e.firstTimestamp := by
  rcases (List.pairwise_cons.1 h.before).1 e he with hlt | ⟨-, hlt⟩
  · exact absurd hseries hlt.ne'
  · exact hlt

/-- At most one entry covers a timestamp of a series. -/
theorem filter_covers_cons (h : OrderedIndex (entry :: entries)) {t : Timestamp}
    (hcovers : entry.Covers series t) : (entry :: entries).filter (Covers series t) = [entry] := by
  rw [List.filter_cons_of_pos (by simpa using hcovers), List.cons_inj_right, List.filter_eq_nil_iff]
  intro e he
  have hlt := fun hseries ↦ lastTimestamp_lt h he hseries
  simpa using fun hcovers' : e.Covers series t ↦ absurd (hcovers.2.2.trans_lt
    (hlt (hcovers'.1.trans hcovers.1.symm))) (not_lt.2 hcovers'.2.1)

/-- At most one entry of a series covers a timestamp. -/
theorem length_filter_covers_le {index : List SegmentIndexEntry} (h : OrderedIndex index)
    (t : Timestamp) :
    (index.filter (Covers series t)).length ≤ 1 := by
  induction index with
  | nil => exact Nat.zero_le 1
  | cons entry index ih =>
    by_cases hcovers : entry.Covers series t
    · rw [filter_covers_cons h hcovers, List.length_singleton]
    · rw [List.filter_cons_of_neg (by simpa using hcovers)]
      exact ih h.of_cons

/-- No entry from one that starts at `stop` or later on meets a range up to `stop`. -/
theorem filter_meets_eq_nil (h : OrderedIndex (entry :: entries)) (hseries : entry.series = series)
    {start stop : Timestamp} (hstop : stop ≤ entry.firstTimestamp) :
    (entry :: entries).filter (Meets series start stop) = [] := by
  refine List.filter_eq_nil_iff.2 fun e he ↦ ?_
  have hle : e.series = series → stop ≤ e.firstTimestamp := fun hs ↦ by
    rcases List.mem_cons.1 he with rfl | he
    · exact hstop
    · exact (hstop.trans (h.forward entry List.mem_cons_self)).trans
        (lastTimestamp_lt h he (hs.trans hseries.symm)).le
  simpa using fun hmeets : e.Meets series start stop ↦
    absurd ((le_max_right _ _).trans_lt hmeets.2.2) (not_lt.2 (hle hmeets.1))

end Walk

/-! ### Queries as reads of the selected blocks -/

section Queries

variable {m : Type → Type} [Monad m] [MonadLiftT (Except Error) m]

/-- The samples of the blocks of these entries, read one after the other. -/
def samplesIn (read : ℕ → ℕ → m Bytes) (entries : List SegmentIndexEntry) : m (List Sample) := do
  let blocks ← entries.mapM' (SegmentReader.readBlock read)
  return blocks.flatMap SegmentBlock.samples

variable [LawfulMonad m] {read : ℕ → ℕ → m Bytes} {series : SeriesKey}

@[simp] theorem samplesIn_nil : samplesIn read [] = pure [] := by
  simp [samplesIn]

theorem samplesIn_cons (entry : SegmentIndexEntry) (entries : List SegmentIndexEntry) :
    samplesIn read (entry :: entries) = (do
      let block ← SegmentReader.readBlock read entry
      (block.samples ++ ·) <$> samplesIn read entries) := by
  simp [samplesIn]

/-- The samples of one entry are those of its block. -/
theorem samplesIn_singleton (entry : SegmentIndexEntry) :
    samplesIn read [entry] = SegmentBlock.samples <$> SegmentReader.readBlock read entry := by
  simp [samplesIn_cons]

/-- The loop of `get` reads the entry that covers the timestamp, and no other. -/
theorem getFrom_eq_samplesIn {entries : List SegmentIndexEntry} (h : OrderedIndex entries)
    (hle : ∀ entry ∈ entries, series ≤ entry.series) (t : Timestamp) :
    SegmentReader.getFrom read series t entries =
      (List.find? fun x ↦ x.timestamp = t) <$>
        samplesIn read (entries.filter (Covers series t)) := by
  induction entries with
  | nil => simp [SegmentReader.getFrom]
  | cons entry entries ih =>
    rw [List.forall_mem_cons] at hle
    rw [SegmentReader.getFrom]
    split
    · rename_i hne
      rw [filter_eq_nil_of_ne h hle.1 hne fun _ hcovers ↦ hcovers.1]
      simp
    rename_i hseries
    have hseries := not_not.1 hseries
    split
    · rename_i hearly
      -- the range that ends with `t` is over before this entry
      have hnone : (entry :: entries).filter (Covers series t) = [] := by
        refine List.filter_eq_nil_iff.2 fun e he ↦ ?_
        rcases List.mem_cons.1 he with rfl | he
        · simpa using fun hcovers : e.Covers series t ↦ absurd hcovers.2.1 (not_le.2 hearly)
        · simpa using fun hcovers : e.Covers series t ↦ absurd hcovers.2.1 (not_le.2
            (hearly.trans ((h.forward entry List.mem_cons_self).trans_lt
              (lastTimestamp_lt h he (hcovers.1.trans hseries.symm)))))
      rw [hnone]
      simp
    rename_i hearly
    split
    · rename_i hlate
      have hskip : ¬entry.Covers series t := fun hcovers ↦ absurd hcovers.2.2 (not_le.2 hlate)
      rw [List.filter_cons_of_neg (by simpa using hskip)]
      exact ih h.of_cons hle.2
    · rename_i hlate
      rw [filter_covers_cons h ⟨hseries, not_lt.1 hearly, not_lt.1 hlate⟩, samplesIn_singleton,
        Functor.map_map, map_eq_pure_bind]
      congr 1
      funext block
      show _ = pure (block.samples.find? fun x ↦ x.timestamp = t)
      rw [find?_eq_of_lowerBound block.sorted]
      split
      · rfl
      · split <;> rfl

/-- The loop of `range` reads the entries that meet the interval, and no other. -/
theorem rangeFrom_eq_samplesIn {entries : List SegmentIndexEntry} (h : OrderedIndex entries)
    (hle : ∀ entry ∈ entries, series ≤ entry.series) {start stop : Timestamp} (hlt : start < stop)
    (result : List Sample) : SegmentReader.rangeFrom read series start stop entries result =
      (fun samples ↦ result ++ samples.filter fun x ↦ start ≤ x.timestamp ∧ x.timestamp < stop) <$>
        samplesIn read (entries.filter (Meets series start stop)) := by
  induction entries generalizing result with
  | nil => simp [SegmentReader.rangeFrom]
  | cons entry entries ih =>
    rw [List.forall_mem_cons] at hle
    rw [SegmentReader.rangeFrom]
    split
    · rename_i hne
      rw [filter_eq_nil_of_ne h hle.1 hne fun _ hmeets ↦ hmeets.1]
      simp
    rename_i hseries
    have hseries := not_not.1 hseries
    split
    · rename_i hearly
      have hskip : ¬entry.Meets series start stop :=
        fun hmeets ↦ absurd hmeets.2.1 (not_le.2 hearly)
      rw [List.filter_cons_of_neg (by simpa using hskip)]
      exact ih h.of_cons hle.2 result
    rename_i hearly
    split
    · rename_i hlate
      rw [filter_meets_eq_nil h hseries hlate]
      simp
    · rename_i hlate
      have hmeets : entry.Meets series start stop :=
        ⟨hseries, not_lt.1 hearly, max_lt hlt (not_le.1 hlate)⟩
      rw [List.filter_cons_of_pos (by simpa using hmeets), samplesIn_cons, map_bind]
      congr 1
      funext block
      show SegmentReader.rangeFrom read series start stop entries (result ++
        (block.samples.dropWhile _).takeWhile _) = _
      rw [slice_eq_filter start stop block.sorted, ih h.of_cons hle.2, Functor.map_map]
      simp only [List.filter_append, List.append_assoc]

/-- The entries up to a series end with the last entry of it, if there is one. -/
theorem getLast?_filter_series {index : List SegmentIndexEntry} (h : OrderedIndex index) :
    (index.filter fun entry ↦ entry.series = series).getLast? =
      (index.takeWhile fun entry ↦ !decide (series < entry.series)).getLast?.filter
        fun entry ↦ entry.series = series := by
  induction index with
  | nil => rfl
  | cons entry index ih =>
    by_cases hgreater : series < entry.series
    · rw [List.takeWhile_cons_of_neg (by simpa using hgreater),
        filter_eq_nil_of_ne h hgreater.le hgreater.ne' fun _ hseries ↦ hseries]
      rfl
    rw [List.takeWhile_cons_of_pos (by simpa using hgreater), List.getLast?_cons]
    have hrest := ih h.of_cons
    cases hlast : (index.takeWhile fun entry ↦ !decide (series < entry.series)).getLast? with
    | none =>
      rw [hlast] at hrest
      by_cases hseries : entry.series = series
      · rw [List.filter_cons_of_pos (by simpa using hseries), List.getLast?_cons, hrest]
        exact (Option.filter_some_pos (by simpa using hseries)).symm
      · rw [List.filter_cons_of_neg (by simpa using hseries), hrest]
        exact (Option.filter_some_neg (by simpa using hseries)).symm
    | some last =>
      rw [hlast] at hrest
      by_cases hseries : entry.series = series
      · -- the entries behind one of the series and up to it are all of the series
        have hmem := List.mem_of_getLast? hlast
        have hle : ¬series < last.series := by simpa using List.mem_takeWhile_imp hmem
        have hge := (List.pairwise_cons.1 h.series_le).1 last
          ((List.takeWhile_prefix _).subset hmem)
        have heq : last.series = series := le_antisymm (not_lt.1 hle) (hseries ▸ hge)
        rw [List.filter_cons_of_pos (by simpa using hseries), List.getLast?_cons, hrest,
          Option.getD_some, Option.filter_some_pos (by simpa using heq)]
        rfl
      · rw [List.filter_cons_of_neg (by simpa using hseries), hrest]
        rfl

/-- `latest` reads the last entry of the series. -/
theorem latest_eq_samplesIn {reader : SegmentReader} (h : OrderedIndex reader.index) :
    reader.latest read series = List.getLast? <$>
      samplesIn read (reader.index.filter fun entry ↦ entry.series = series).getLast?.toList := by
  rw [SegmentReader.latest, getLast?_filter_series h]
  split
  · rename_i hnone
    rw [hnone]
    simp
  rename_i entry hlast
  rw [hlast]
  split
  · rename_i hne
    rw [Option.filter_some_neg (by simpa using hne)]
    simp
  · rename_i hseries
    rw [Option.filter_some_pos (by simpa using hseries), Option.toList_some, samplesIn_singleton,
      Functor.map_map, map_eq_pure_bind]

/-- `get` reads the entry of the series that covers the timestamp. -/
theorem get_eq_samplesIn {reader : SegmentReader} (h : OrderedIndex reader.index) (t : Timestamp) :
    reader.get read series t = (List.find? fun x ↦ x.timestamp = t) <$>
      samplesIn read (reader.index.filter (Covers series t)) := by
  have hle : ∀ entry ∈ reader.index.dropWhile fun entry ↦ entry.series < series,
      series ≤ entry.series :=
    fun _ ↦ le_of_mem_dropWhile h
  rw [SegmentReader.get, getFrom_eq_samplesIn (h.sublist (List.dropWhile_sublist _)) hle,
    filter_dropWhile_series h fun _ hcovers ↦ hcovers.1]

/-- `range` reads the entries of the series that meet the interval. -/
theorem range_eq_samplesIn {reader : SegmentReader} (h : OrderedIndex reader.index)
    {start stop : Timestamp}
    (hss : start ≤ stop) : reader.range read series start stop =
      (List.filter fun x ↦ start ≤ x.timestamp ∧ x.timestamp < stop) <$>
        samplesIn read (reader.index.filter (Meets series start stop)) := by
  have hle : ∀ entry ∈ reader.index.dropWhile fun entry ↦ entry.series < series,
      series ≤ entry.series :=
    fun _ ↦ le_of_mem_dropWhile h
  rw [SegmentReader.range, if_neg (not_lt.2 hss)]
  split
  · rename_i heq
    rw [List.filter_eq_nil_iff.2 fun e _ ↦ by simp [Meets, heq]]
    simp
  · rename_i hne
    rw [rangeFrom_eq_samplesIn (h.sublist (List.dropWhile_sublist _)) hle (lt_of_le_of_ne hss hne),
      filter_dropWhile_series h fun _ hmeets ↦ hmeets.1]
    rfl

/-- **A query reads the blocks it needs.** On a file that opens, whatever its blocks contain, a
point query reads the one block that covers the timestamp if there is one, the latest sample takes
the last block of the series, and a range the blocks that meet it, in order. No other block is read,
and none twice. -/
theorem queries_read_selected {path content : Bytes} {reader : SegmentReader}
    (hopen : SegmentReader.open path (.ok content.length : Except Error ℕ) (readFileRange content) =
      .ok reader) (read : ℕ → ℕ → m Bytes) (series : SeriesKey) :
    (∀ t, reader.get read series t = (List.find? fun x ↦ x.timestamp = t) <$>
        samplesIn read (reader.index.filter (Covers series t)) ∧
      (reader.index.filter (Covers series t)).length ≤ 1) ∧
    reader.latest read series = List.getLast? <$>
      samplesIn read (reader.index.filter fun entry ↦ entry.series = series).getLast?.toList ∧
    ∀ start stop, start ≤ stop → reader.range read series start stop =
      (List.filter fun x ↦ start ≤ x.timestamp ∧ x.timestamp < stop) <$>
        samplesIn read (reader.index.filter (Meets series start stop)) := by
  have h := ordered_of_open hopen
  exact ⟨fun t ↦ ⟨get_eq_samplesIn h t, length_filter_covers_le h t⟩, latest_eq_samplesIn h,
    fun _ _ ↦ range_eq_samplesIn h⟩

end Queries

/-- A point query reads the second of three blocks, and does not notice that the third is damaged.
-/
theorem queries_read_selected_storedBlocks :
    ∃ reader, SegmentReader.open [] (.ok (segmentBytes storedBlocks).length : Except Error ℕ)
        (readFileRange (segmentBytes storedBlocks)) = .ok reader ∧
      (reader.index.filter (Covers cpuSeries ⟨9⟩)).length = 1 ∧
      reader.get (readFileRange ((segmentBytes storedBlocks).set 134 7)) cpuSeries ⟨9⟩ =
        .ok (some laterSample) := by
  have hopen := open_segmentBytes segmentAccepts_storedBlocks []
  refine ⟨_, hopen, by decide +kernel, ?_⟩
  rw [((queries_read_selected hopen _ cpuSeries).1 ⟨9⟩).1]
  decide +kernel

end ChronoStore
