import ChronoStore.Codec.WalReplay
import ChronoStore.Engine.StorageEngine

/-!
# Reading the layers of the store

A **layer** is a live segment: a number, the blocks stored under the name of that number, and the
fact that the writer accepts them. The layers of a store, oldest first, denote one write history
(`entries`), and this module says what every reading loop of the engine computes on them, in terms
of that history.

What a query should return is stated without reference to layers: `IsLatest` and `IsRange` speak of
a history. `IsLatest.append` is the step of every loop that looks for a latest sample, and the
lookups of the overlay map are `lastWrite_append` again.
-/

namespace ChronoStore

open FaultyDisk WriteHistory

/-- A live segment. -/
structure Layer where
  number : ℕ
  blocks : List SegmentBlock
  accepted : SegmentAccepts blocks

namespace Layer

def name (l : Layer) : Bytes := segmentFilename l.number

/-- What opening the file gives. -/
def reader (l : Layer) : SegmentReader := SegmentReader.of l.name l.blocks

def entries (l : Layer) : List (Key × Value) := entriesOf l.blocks

/-- The file of the layer is in the directory. -/
def In (l : Layer) (files : Directory) : Prop := files.find? l.name = some (segmentBytes l.blocks)

end Layer

/-- The name of a layer is handed over whole. -/
theorem Layer.In.cut {l : Layer} {files : Directory} (h : l.In files) :
    files.find? (cString l.name) = some (segmentBytes l.blocks) := by
  rwa [Layer.name, cString_segmentFilename]

/-- The history of layers, oldest first. -/
def layeredEntries (layers : List Layer) : List (Key × Value) := layers.flatMap Layer.entries

/-- A new layer comes behind the others. -/
theorem layeredEntries_concat (layers : List Layer) (l : Layer) :
    layeredEntries (layers ++ [l]) = layeredEntries layers ++ l.entries := by
  simp [layeredEntries]

/-! ### What the queries should answer -/

/-- The latest sample of a series in a history, if the series has one. -/
def IsLatest (h : List (Key × Value)) (s : SeriesKey) : Option Sample → Prop
  | none => ∀ t, lastWrite h (s, t) = none
  | some x => lastWrite h (s, x.timestamp) = some x.value ∧
      ∀ t, lastWrite h (s, t) ≠ none → t ≤ x.timestamp

/-- The samples of a series with `start ≤ timestamp < stop`, in order. -/
structure IsRange (h : List (Key × Value)) (s : SeriesKey) (start stop : Timestamp)
    (result : List Sample) : Prop where
  sorted : result.Pairwise fun a b ↦ a.timestamp < b.timestamp
  mem_iff : ∀ x, x ∈ result ↔
    lastWrite h (s, x.timestamp) = some x.value ∧ start ≤ x.timestamp ∧ x.timestamp < stop

/-- The series that occur in a history, in order. -/
structure IsSeries (h : List (Key × Value)) (result : List SeriesKey) : Prop where
  sorted : result.Pairwise (· < ·)
  mem_iff : ∀ s, s ∈ result ↔ ∃ t, lastWrite h (s, t) ≠ none

/-- The last of the sorted samples of a series is its latest. -/
theorem isLatest_getLast? {h : List (Key × Value)} {s : SeriesKey} {samples : List Sample}
    (hsorted : samples.Pairwise fun a b ↦ a.timestamp < b.timestamp)
    (hmem : ∀ x : Sample, lastWrite h (s, x.timestamp) = some x.value ↔ x ∈ samples) :
    IsLatest h s samples.getLast? := by
  have hall : ∀ t v, lastWrite h (s, t) = some v → (⟨t, v⟩ : Sample) ∈ samples :=
    fun t v hv ↦ (hmem ⟨t, v⟩).1 hv
  cases hlast : samples.getLast? with
  | none =>
    rw [List.getLast?_eq_none_iff] at hlast
    intro t
    refine Option.eq_none_iff_forall_ne_some.2 fun v hv ↦ ?_
    have := hall t v hv
    simp [hlast] at this
  | some x =>
    refine ⟨(hmem x).2 (List.mem_of_getLast? hlast), fun t ht ↦ ?_⟩
    obtain ⟨v, hv⟩ := Option.ne_none_iff_exists'.1 ht
    exact SortedList.le_of_mem_of_getLast?_eq_some (f := Sample.timestamp) hsorted hlast
      (hall t v hv)

/-- **One more layer.** The later of the two latest samples, the newer layer winning a tie. -/
theorem IsLatest.append {a b : List (Key × Value)} {s : SeriesKey} {best candidate : Option Sample}
    (ha : IsLatest a s best) (hb : IsLatest b s candidate) :
    IsLatest (a ++ b) s (StorageEngine.later candidate best) := by
  have hsome : ∀ t, lastWrite (a ++ b) (s, t) ≠ none →
      lastWrite b (s, t) ≠ none ∨ lastWrite a (s, t) ≠ none := by
    intro t ht
    rw [lastWrite_append, Ne, Option.or_eq_none_iff, not_and_or] at ht
    exact ht
  cases candidate with
  | none =>
    have hsame : ∀ t, lastWrite (a ++ b) (s, t) = lastWrite a (s, t) := fun t ↦ by
      rw [lastWrite_append, hb t, Option.none_or]
    cases best with
    | none => exact fun t ↦ (hsame t).trans (ha t)
    | some x => exact ⟨(hsame _).trans ha.1, fun t ht ↦ ha.2 t (hsame t ▸ ht)⟩
  | some c =>
    have hc : lastWrite (a ++ b) (s, c.timestamp) = some c.value := by
      rw [lastWrite_append, hb.1, Option.some_or]
    cases best with
    | none =>
      exact ⟨hc, fun t ht ↦ (hsome t ht).elim (hb.2 t) fun h ↦ absurd (ha t) h⟩
    | some x =>
      rw [StorageEngine.later]
      split
      · rename_i hle
        exact ⟨hc, fun t ht ↦ (hsome t ht).elim (hb.2 t) fun h ↦ (ha.2 t h).trans hle⟩
      · rename_i hlt
        rw [not_le] at hlt
        -- the older sample is strictly later, so the newer layer does not know its timestamp
        have hnone : lastWrite b (s, x.timestamp) = none := by
          by_contra h
          exact absurd (hb.2 _ h) (not_le.2 hlt)
        refine ⟨by rw [lastWrite_append, hnone, Option.none_or, ha.1], fun t ht ↦ ?_⟩
        exact (hsome t ht).elim (fun h ↦ (hb.2 t h).trans hlt.le) (ha.2 t)

/-- The last sample depends on the last writes only. -/
theorem IsLatest.congr {a b : List (Key × Value)} (h : ∀ k, lastWrite a k = lastWrite b k)
    {s : SeriesKey} {r : Option Sample} (ha : IsLatest a s r) : IsLatest b s r := by
  cases r with
  | none => exact fun t ↦ (h (s, t)).symm.trans (ha t)
  | some x => exact ⟨(h _).symm.trans ha.1, fun t ht ↦ ha.2 t (by rwa [h])⟩

/-! ### One layer -/

/-- The sample that a map lookup stands for. -/
def sampleAt (t : Timestamp) (value : Option Value) : Option Sample := value.map fun v ↦ ⟨t, v⟩

@[simp] theorem isSome_sampleAt (t : Timestamp) (value : Option Value) :
    (sampleAt t value).isSome = value.isSome := by
  cases value <;> rfl

/-- A search among the samples of a series finds the last write of the key. -/
theorem find?_samplesOf {blocks : List SegmentBlock} (h : blocks.Pairwise SegmentBlock.Before)
    (s : SeriesKey) (t : Timestamp) :
    (samplesOf s blocks).find? (fun x ↦ x.timestamp = t) =
      sampleAt t (lastWrite (entriesOf blocks) (s, t)) := by
  cases hfind : (samplesOf s blocks).find? fun x ↦ x.timestamp = t with
  | some x =>
    have ht : x.timestamp = t := by simpa using List.find?_some hfind
    subst ht
    rw [(lastWrite_entriesOf h).2 (List.mem_of_find?_eq_some hfind)]
    rfl
  | none =>
    cases hv : lastWrite (entriesOf blocks) (s, t) with
    | none => rfl
    | some v =>
      have hmem := (lastWrite_entriesOf h (x := ⟨t, v⟩)).1 hv
      have := List.find?_eq_none.1 hfind _ hmem
      simp at this

/-- Overlaying a map with the samples of one more layer, all cut to the same bounds. -/
theorem overlay_filter {h : List (Key × Value)} {s : SeriesKey} {start stop t : Timestamp}
    {samples : List Sample} (hsorted : samples.Pairwise fun a b ↦ a.timestamp < b.timestamp)
    (hmem : ∀ x : Sample, lastWrite h (s, x.timestamp) = some x.value ↔ x ∈ samples)
    {merged : SamplesByTimestamp} {older : Option Value}
    (hmerged : merged.find? t = if start ≤ t ∧ t < stop then older else none) :
    (StorageEngine.overlay merged
      (samples.filter fun x ↦ start ≤ x.timestamp ∧ x.timestamp < stop)).find? t =
        if start ≤ t ∧ t < stop then (lastWrite h (s, t)).or older else none := by
  have hnodup : ((samples.filter fun x ↦ start ≤ x.timestamp ∧ x.timestamp < stop).map
      fun x ↦ ((s, x.timestamp), x.value)).map Prod.fst |>.Nodup := by
    rw [List.map_map]
    refine (List.pairwise_map.2 ?_ : List.Pairwise _ _)
    refine (hsorted.filter _).imp fun {a b} hab heq ↦ ?_
    exact hab.ne (Prod.mk.inj heq).2
  have hlast : lastWrite ((samples.filter fun x ↦ start ≤ x.timestamp ∧ x.timestamp < stop).map
      fun x ↦ ((s, x.timestamp), x.value)) (s, t) =
        if start ≤ t ∧ t < stop then lastWrite h (s, t) else none := by
    refine Option.ext fun v ↦ ?_
    rw [lastWrite_eq_some_iff hnodup, List.mem_map]
    constructor
    · rintro ⟨x, hx, heq⟩
      rw [List.mem_filter, decide_eq_true_eq] at hx
      rw [Prod.mk.injEq, Prod.mk.injEq] at heq
      obtain ⟨⟨-, rfl⟩, rfl⟩ := heq
      rw [if_pos hx.2]
      exact (hmem x).2 hx.1
    · intro hv
      split at hv
      · rename_i hb
        exact ⟨⟨t, v⟩, List.mem_filter.2 ⟨(hmem ⟨t, v⟩).1 hv, by simpa using hb⟩, rfl⟩
      · cases hv
  rw [StorageEngine.overlay, find?_foldl_insert _ _ s, hlast, hmerged]
  split <;> rfl

/-- The map into which compaction merges layers. -/
def mergeLayers (layers : List Layer) : SeriesMap :=
  layers.foldl (fun merged l ↦ l.blocks.foldl mergeBlock merged) .empty

/-- **The merged map** is the map that the layers denote. -/
theorem find_mergeLayers (layers : List Layer) (k : Key) :
    (mergeLayers layers).find k = lastWrite (layeredEntries layers) k := by
  induction layers using List.reverseRecOn with
  | nil => rfl
  | append_singleton layers l ih =>
    rw [mergeLayers, List.foldl_append, layeredEntries_concat, lastWrite_append, List.foldl_cons,
      List.foldl_nil, find_foldl_mergeBlock, ← ih]
    rfl

section Reads

variable {σ : Type} {S : List Event} {F : Directory → Prop}

section OneLayer

variable {l : Layer} (hF : ∀ f, F f → l.In f)

include hF

/-- The file of a layer is that of its blocks. -/
theorem reads_layer (offset count : ℕ) : Reads S Error.IsIo F
    (readFileBytes l.reader.path offset count : Prog σ Bytes)
      (readFileRange (segmentBytes l.blocks) offset count) :=
  reads_readFileBytes (fun f hf ↦ (hF f hf).cut) offset count

/-- A layer answers `get` with the last write of the key in it. -/
theorem reads_layer_get (s : SeriesKey) (t : Timestamp) : Reads S Error.IsIo F
    (l.reader.get (readFileBytes l.reader.path) s t : Prog σ (Option Sample))
      (.ok (sampleAt t (lastWrite l.entries (s, t)))) := by
  have := reads_get (reads_layer (σ := σ) (S := S) hF) l.reader s t
  rwa [get_eq (describes_segmentBytes l.accepted) l.accepted.ordered,
    find?_samplesOf l.accepted.ordered] at this

/-- A layer answers `latest` with the last of its samples. -/
theorem reads_layer_latest (s : SeriesKey) : Reads S Error.IsIo F
    (l.reader.latest (readFileBytes l.reader.path) s : Prog σ (Option Sample))
      (.ok (samplesOf s l.blocks).getLast?) := by
  have := reads_latest (reads_layer (σ := σ) (S := S) hF) l.reader s
  rwa [latest_eq (describes_segmentBytes l.accepted) l.accepted.ordered] at this

/-- A layer answers `range` with its samples in the interval. -/
theorem reads_layer_range (s : SeriesKey) {start stop : Timestamp} (hle : start ≤ stop) :
    Reads S Error.IsIo F
    (l.reader.range (readFileBytes l.reader.path) s start stop : Prog σ (List Sample))
      (.ok ((samplesOf s l.blocks).filter fun x ↦ start ≤ x.timestamp ∧ x.timestamp < stop)) := by
  have := reads_range (reads_layer (σ := σ) (S := S) hF) l.reader s start stop
  rwa [range_eq (describes_segmentBytes l.accepted) l.accepted.ordered hle] at this

/-- A layer returns its blocks. -/
theorem reads_layer_blocks : Reads S Error.IsIo F
    (l.reader.blocks (readFileBytes l.reader.path) : Prog σ (List SegmentBlock))
      (.ok l.blocks) := by
  have := reads_blocks (reads_layer (σ := σ) (S := S) hF) l.reader
  rwa [blocks_eq (describes_segmentBytes l.accepted)] at this

end OneLayer

/-! ### All layers -/

variable {layers : List Layer} (hF : ∀ f, F f → ∀ l ∈ layers, l.In f)

include hF

/-- A loop over the readers of layers whose body computes a function of the layer. -/
theorem reads_foldlM_layers {β : Type} {step : β → SegmentReader → Prog σ β} {g : β → Layer → β}
    (hstep : ∀ b, ∀ l ∈ layers, (∀ f, F f → l.In f) →
      Reads S Error.IsIo F (step b l.reader) (.ok (g b l)))
    (b : β) : Reads S Error.IsIo F ((layers.map Layer.reader).foldlM step b)
    (.ok (layers.foldl g b)) := by
  induction layers generalizing b with
  | nil => exact Reads.pure b
  | cons l layers ih =>
    rw [List.map_cons, List.foldlM_cons, List.foldl_cons]
    refine (hstep b l List.mem_cons_self fun f hf ↦ hF f hf l List.mem_cons_self).bind
      (g := fun b ↦ .ok (layers.foldl g b)) fun b' hb ↦ ?_
    obtain rfl := Except.ok.inj hb
    exact ih (fun f hf l hl ↦ hF f hf l (List.mem_cons_of_mem _ hl))
      (fun b l hl ↦ hstep b l (List.mem_cons_of_mem _ hl)) _

/-- **Searching from the newest layer** finds the last write. -/
theorem reads_getInSegments (s : SeriesKey) (t : Timestamp) : Reads S Error.IsIo F
    (StorageEngine.getInSegments s t (layers.map Layer.reader).reverse : Prog σ (Option Sample))
      (.ok (sampleAt t (lastWrite (layeredEntries layers) (s, t)))) := by
  induction layers using List.reverseRecOn with
  | nil => exact Reads.pure none
  | append_singleton layers l ih =>
    rw [List.map_append, List.reverse_append, layeredEntries_concat, lastWrite_append]
    refine (reads_layer_get (fun f hf ↦ hF f hf l (by simp)) s t).bind
      (g := fun _ ↦ .ok _) fun found hfound ↦ ?_
    obtain rfl := Except.ok.inj hfound
    have hrest := ih fun f hf l' hl' ↦ hF f hf l' (List.mem_append_left _ hl')
    cases lastWrite l.entries (s, t) with
    | none => exact hrest
    | some v => exact Reads.pure _

omit hF in
/-- The existence check in the segments is the search of `get`. -/
theorem containsInSegments_eq (segments : List SegmentReader) (s : SeriesKey) (t : Timestamp) :
    (containsInSegments segments s t : Prog σ Bool) =
      Option.isSome <$> StorageEngine.getInSegments s t segments.reverse := by
  rw [containsInSegments]
  induction segments.reverse with
  | nil => rfl
  | cons segment older ih =>
    rw [containsInSegments.search, StorageEngine.getInSegments, map_bind, ih]
    congr 1
    funext found
    cases found <;> rfl

/-- The existence check in the layers asks whether the key has been written. -/
theorem reads_containsInSegments (s : SeriesKey) (t : Timestamp) : Reads S Error.IsIo F
    (containsInSegments (layers.map Layer.reader) s t : Prog σ Bool)
      (.ok (lastWrite (layeredEntries layers) (s, t)).isSome) := by
  rw [containsInSegments_eq, ← isSome_sampleAt t]
  exact (reads_getInSegments hF s t).map

/-- **The loop of `latest`.** -/
theorem reads_latestInSegments (s : SeriesKey) : ∃ r, IsLatest (layeredEntries layers) s r ∧
    ∀ S, Reads S Error.IsIo F ((layers.map Layer.reader).foldlM (fun best segment ↦ do
      let candidate ← segment.latest (readFileBytes segment.path) s
      return StorageEngine.later candidate best) none : Prog σ (Option Sample)) (.ok r) := by
  refine ⟨_, ?_, fun S ↦ reads_foldlM_layers hF
    (g := fun best l ↦ StorageEngine.later (samplesOf s l.blocks).getLast? best) ?_ none⟩
  · induction layers using List.reverseRecOn with
    | nil => exact fun t ↦ rfl
    | append_singleton layers l ih =>
      rw [List.foldl_append, layeredEntries_concat]
      refine (ih fun f hf l' hl' ↦ hF f hf l' (List.mem_append_left _ hl')).append ?_
      exact isLatest_getLast? (samplesOf_sorted l.accepted.ordered) fun x ↦
        lastWrite_entriesOf l.accepted.ordered
  · intro best l _ hl
    refine (reads_layer_latest hl s).bind (g := fun _ ↦ .ok _) fun candidate hc ↦ ?_
    obtain rfl := Except.ok.inj hc
    exact Reads.pure _

/-- **The loop of `range`**: the map holds the last writes between the bounds. -/
theorem reads_rangeInSegments (s : SeriesKey) {start stop : Timestamp} (hle : start ≤ stop) :
    ∃ merged : SamplesByTimestamp,
      (∀ t, merged.find? t = if start ≤ t ∧ t < stop then lastWrite (layeredEntries layers) (s, t)
        else none) ∧
      ∀ S, Reads S Error.IsIo F ((layers.map Layer.reader).foldlM (fun merged segment ↦ do
        let samples ← segment.range (readFileBytes segment.path) s start stop
        return StorageEngine.overlay merged samples) OrderedMap.empty : Prog σ SamplesByTimestamp)
        (.ok merged) := by
  refine ⟨_, ?_, fun S ↦ reads_foldlM_layers hF (g := fun merged l ↦ StorageEngine.overlay merged
    ((samplesOf s l.blocks).filter fun x ↦ start ≤ x.timestamp ∧ x.timestamp < stop)) ?_ .empty⟩
  · induction layers using List.reverseRecOn with
    | nil => intro t; simp [layeredEntries]
    | append_singleton layers l ih =>
      intro t
      rw [List.foldl_append, layeredEntries_concat, lastWrite_append]
      have hprev := ih (fun f hf l' hl' ↦ hF f hf l' (List.mem_append_left _ hl')) t
      exact overlay_filter (samplesOf_sorted l.accepted.ordered)
        (fun x ↦ lastWrite_entriesOf l.accepted.ordered) hprev
  · intro merged l _ hl
    refine (reads_layer_range hl s hle).bind (g := fun _ ↦ .ok _) fun samples hs ↦ ?_
    obtain rfl := Except.ok.inj hs
    exact Reads.pure _

/-- **The loop of compaction** merges the layers. -/
theorem reads_mergeSegments : Reads S Error.IsIo F
    (StorageEngine.mergeSegments (layers.map Layer.reader) : Prog σ SeriesMap)
      (.ok (mergeLayers layers)) := by
  refine reads_foldlM_layers hF (g := fun merged l ↦ l.blocks.foldl mergeBlock merged) ?_ .empty
  intro merged l _ hl
  refine (reads_layer_blocks hl).bind (g := fun _ ↦ .ok _) fun blocks hb ↦ ?_
  obtain rfl := Except.ok.inj hb
  exact Reads.pure _

/-! ### Recovery -/

/-- Opening the layers gives their readers and the number of samples they hold. -/
theorem reads_openSegments : Reads S Error.IsIo F
    (openSegments (layers.map Layer.name) : Prog σ (List SegmentReader × ℕ))
      (.ok (layers.map Layer.reader,
        layers.foldl (fun physical l ↦ addU64 physical (countSamples l.blocks)) 0)) := by
  have main : ∀ (rest : List Layer) (readers : List SegmentReader) (physical : ℕ),
      (∀ l ∈ rest, ∀ f, F f → l.In f) → Reads S Error.IsIo F
        ((rest.map Layer.name).foldlM (fun acc filename ↦ do
          let reader ← openSegment filename
          return (acc.1 ++ [reader], addU64 acc.2 reader.sampleCount)) (readers, physical) :
            Prog σ (List SegmentReader × ℕ))
        (.ok (readers ++ rest.map Layer.reader,
          rest.foldl (fun physical l ↦ addU64 physical (countSamples l.blocks)) physical)) := by
    intro rest
    induction rest with
    | nil =>
      intro readers physical _
      rw [List.map_nil, List.map_nil, List.append_nil]
      exact Reads.pure _
    | cons l rest ih =>
      intro readers physical hrest
      rw [List.map_cons, List.foldlM_cons, List.foldl_cons]
      have hopen := reads_openSegment (σ := σ) (S := S) l.accepted
        fun f hf ↦ (hrest l List.mem_cons_self f hf).cut
      refine (hopen.bind (g := fun _ ↦ .ok (readers ++ [l.reader],
        addU64 physical l.reader.sampleCount)) fun reader hr ↦ ?_).bind
          (g := fun _ ↦ .ok _) fun acc ha ↦ ?_
      · obtain rfl := Except.ok.inj hr
        exact Reads.pure _
      · obtain rfl := Except.ok.inj ha
        have := ih (readers ++ [l.reader]) (addU64 physical l.reader.sampleCount)
          fun l' hl' ↦ hrest l' (List.mem_cons_of_mem _ hl')
        rwa [List.append_assoc, List.singleton_append] at this
  exact main layers [] 0 fun l hl f hf ↦ hF f hf l hl

/-- What the callback of recovery does. -/
def replayedRecord (layers : List Layer) (acc : MemTable × ℕ) (record : WalPutRecord) :
    MemTable × ℕ :=
  (acc.1.put record.series record.sample,
    if (acc.1.get record.series record.sample.timestamp).isSome ||
      (lastWrite (layeredEntries layers) (record.series, record.sample.timestamp)).isSome
    then acc.2 else addU64 acc.2 1)

/-- The existence check in table and layers. -/
theorem reads_containsAnywhere (memtable : MemTable) (s : SeriesKey) (t : Timestamp) :
    Reads S Error.IsIo F
    (containsAnywhere memtable (layers.map Layer.reader) s t : Prog σ Bool)
      (.ok ((memtable.get s t).isSome || (lastWrite (layeredEntries layers) (s, t)).isSome)) := by
  rw [containsAnywhere]
  split
  · rename_i h
    rw [h, Bool.true_or]
    exact Reads.pure _
  · rename_i h
    rw [Bool.not_eq_true] at h
    rw [h, Bool.false_or]
    exact reads_containsInSegments hF _ _

/-- The callback of recovery over layers. -/
theorem reads_replayRecord (acc : MemTable × ℕ) (record : WalPutRecord) : Reads S Error.IsIo F
    (replayRecord (layers.map Layer.reader) acc record : Prog σ (MemTable × ℕ))
      (.ok (replayedRecord layers acc record)) := by
  obtain ⟨memtable, count⟩ := acc
  refine (reads_containsAnywhere hF memtable _ _).bind (g := fun _ ↦ .ok _) fun alreadyExists h ↦ ?_
  obtain rfl := Except.ok.inj h
  exact Reads.pure _

end Reads

section Replay

variable {σ α : Type} {S : List Event} {F : Directory → Prop}

/-- **Replaying from the disk** computes what replaying from a byte string computes. -/
theorem reads_replayLoop (chunkSize : ℕ) {touch : Prog σ Unit}
    (htouch : Reads S Error.IsIo F touch (.ok ()))
    {replay : α → WalPutRecord → Prog σ α} {replay' : α → WalPutRecord → Except Error α}
    (hreplay : ∀ acc r, Reads S Error.IsIo F (replay acc r) (replay' acc r)) (fuel : ℕ)
    (st : ReplayState)
    (acc : α) : Reads S Error.IsIo F (replayLoop chunkSize touch replay fuel st acc)
      (replayLoop chunkSize (pure ()) replay' fuel st acc) := by
  induction fuel generalizing st acc with
  | zero => exact Reads.ofExcept _
  | succ fuel ih =>
    have hread : Reads S Error.IsIo F
        (touch >>= fun _ ↦ replayLoop chunkSize touch replay fuel (st.readNextChunk chunkSize) acc)
        (pure () >>= fun _ ↦
          replayLoop chunkSize (pure ()) replay' fuel (st.readNextChunk chunkSize) acc) :=
      htouch.bind fun _ _ ↦ ih _ _
    rw [replayLoop, replayLoop]
    refine Reads.ite (fun _ ↦ ?_) fun _ ↦ Reads.ite (fun _ ↦ Reads.pure _) fun _ ↦ hread
    dsimp only
    split
    · exact Reads.ite (fun _ ↦ Reads.ofExcept _) fun _ ↦ (hreplay _ _).bind fun _ _ ↦ ih _ _
    · exact Reads.ite (fun _ ↦ Reads.ofExcept _) fun _ ↦
        Reads.ite (fun _ ↦ Reads.pure _) fun _ ↦ hread

/-- **Replaying the log of the directory.** -/
theorem reads_replayWal {replay : α → WalPutRecord → Prog σ α}
    {replay' : α → WalPutRecord → Except Error α}
    (hreplay : ∀ acc r, Reads S Error.IsIo F (replay acc r) (replay' acc r)) {content : Bytes}
    (h : ∀ f, F f → f.find? walName = some content) (acc : α) :
    Reads S Error.IsIo F (replayWal replay acc)
      (replayStream walReadChunkSize (pure ()) replay' content acc) := by
  refine (Reads.lookup (c := some content) trivial h).bind
    (g := fun _ ↦ replayStream walReadChunkSize (pure ()) replay' content acc) fun found hfound ↦ ?_
  obtain rfl := Except.ok.inj hfound
  exact reads_replayLoop _ (Reads.probe (S := S) (J := Error.IsIo) (F := F) (σ := σ)
    (e := .systemError "failed to read WAL") trivial) hreplay _ _ _

/-- Where no callback throws, all records of the log are replayed. -/
theorem reads_replayWal_ok {replay : α → WalPutRecord → Prog σ α} {g : α → WalPutRecord → α}
    (hreplay : ∀ acc r, Reads S Error.IsIo F (replay acc r) (.ok (g acc r)))
    {records : List WalPutRecord}
    (hacc : ∀ r ∈ records, WalAccepts r) {tail : Bytes} (htail : IncompleteTail tail)
    (h : ∀ f, F f → f.find? walName = some (walBytes records ++ tail)) (acc : α) :
    Reads S Error.IsIo F (replayWal replay acc)
      (.ok (records.foldl g acc, ⟨records.length, (walBytes records).length, tail.length⟩)) := by
  have hreads := reads_replayWal hreplay h acc
  have hfold : records.foldlM (fun acc r ↦ (.ok (g acc r) : Except Error α)) acc =
      .ok (records.foldl g acc) := List.foldlM_pure
  rw [replayStream_of_walDecodes (by decide) _ (.walBytes hacc) htail, hfold] at hreads
  exact hreads

end Replay

/-- **The counter after a replay** is the number of keys of the layers and the records together. -/
theorem foldl_replayedRecord (layers : List Layer) (records : List WalPutRecord)
    (hsmall : (layeredEntries layers).length + records.length < 2 ^ 64) :
    records.foldl (replayedRecord layers) (.empty, (keys (layeredEntries layers)).card) =
      (MemTable.ofRecords records,
        (keys (layeredEntries layers ++ records.map WalPutRecord.entry)).card) := by
  induction records using List.reverseRecOn with
  | nil => simp
  | append_singleton records r ih =>
    rw [List.length_append, List.length_singleton] at hsmall
    rw [List.foldl_append, ih (by omega), List.foldl_cons, List.foldl_nil, replayedRecord,
      MemTable.ofRecords_concat, List.map_append, List.map_singleton, ← List.append_assoc,
      card_keys_concat]
    have hle := card_keys_le_length (layeredEntries layers ++ records.map WalPutRecord.entry)
    rw [List.length_append, List.length_map] at hle
    have hcond : (((MemTable.ofRecords records).get r.series r.sample.timestamp).isSome ||
        (lastWrite (layeredEntries layers) (r.series, r.sample.timestamp)).isSome) =
          (lastWrite (layeredEntries layers ++
            records.map WalPutRecord.entry) r.entry.1).isSome := by
      rw [lastWrite_append, Option.isSome_or, MemTable.get_eq, MemTable.find_ofRecords,
        Option.isSome_map]
      rfl
    refine Prod.ext rfl ?_
    dsimp only
    rw [hcond]
    split
    · rfl
    · rw [addU64, Nat.mod_eq_of_lt (by omega)]

end ChronoStore
