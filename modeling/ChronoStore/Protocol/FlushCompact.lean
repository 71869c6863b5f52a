import ChronoStore.Protocol.Operations

/-!
# Flush and compaction follow the protocol

Both publish one new layer. A flush adds it to the catalog: it holds what the log says, and the log
is emptied afterwards. A compaction puts it in the place of all the others: it holds what they say.
Neither changes what the store says, and whatever interrupts them leaves it with the old catalog or
the new one.

A flush of a store without failing calls returns exactly when the limits of the encoders allow it
(`StorageEngine.Publishable`).
-/

namespace ChronoStore

open FaultyDisk WriteHistory

/-! ### New catalogs -/

namespace Catalog

/-- The catalog with one more layer. -/
def extend (c : Catalog) (l : Layer) (hnumber : l.number = c.generation + 1)
    (hgeneration : c.generation + 1 < 2 ^ 64) (hlength : c.layers.length < maxManifestSegments) :
    Catalog where
  generation := c.generation + 1
  layers := c.layers ++ [l]
  older := []
  increasing := by
    refine List.pairwise_append.2 ⟨c.increasing, List.pairwise_singleton _ _, fun a ha b hb ↦ ?_⟩
    rw [List.mem_singleton.1 hb, hnumber]
    exact Nat.lt_succ_of_le (c.numbered a ha).2
  numbered := by
    intro a ha
    rcases List.mem_append.1 ha with ha | ha
    · have := c.numbered a ha
      omega
    · rw [List.mem_singleton.1 ha, hnumber]
      omega
  generation_lt := hgeneration
  length_le := by
    rw [List.length_append, List.length_singleton]
    exact hlength

/-- The catalog of one layer that replaces all the others. -/
def replace (c : Catalog) (l : Layer) (hnumber : l.number = c.generation + 1)
    (hgeneration : c.generation + 1 < 2 ^ 64) : Catalog where
  generation := c.generation + 1
  layers := [l]
  older := []
  increasing := List.pairwise_singleton _ _
  numbered := by
    intro a ha
    rw [List.mem_singleton.1 ha, hnumber]
    omega
  generation_lt := hgeneration
  length_le := by
    rw [List.length_singleton]
    unfold maxManifestSegments
    omega

end Catalog

/-! ### The limits of a flush -/

/-- The encoders accept what a flush of the table would publish. -/
def StorageEngine.Publishable (e : StorageEngine) : Prop :=
  e.manifest.generation < 2 ^ 64 - 1 ∧ e.manifest.segmentFiles.length < maxManifestSegments ∧
    ∃ blocks, e.makeMemtableBlocks = .ok blocks ∧ SegmentAccepts blocks

section Engine

variable {o : Origin} {S : List Event} {T : Catalog → Option WalLog → Prop} {R : Error → Prop}
  {c : Catalog} {log : WalLog} {durability : WalDurability} {history : List WalPutRecord} {n : ℕ}

/-- Opening the layer that was just put in its place. -/
theorem spec_openReady {σ : Type} {s₀ : σ} {l : Layer} {log : Option WalLog} (ht : T c log) :
    Spec S (Here o ⟨c, log, some l, .idle⟩ s₀) (openSegment l.name)
      (fun reader s d ↦ reader = l.reader ∧ Here o ⟨c, log, some l, .idle⟩ s₀ s d)
      (Throws o S T R) (Reaches o T) :=
  Spec.look (reads_openSegment l.accepted fun _ hf ↦ (hf.ready_file l rfl).2.cut) (.idle ht)

/-- A manifest that the encoder refuses is not written. -/
theorem spec_storeManifest_refused {σ : Type} {s₀ : σ} {st : Stage} {P : Stage → Prop}
    {next : ManifestState} (hnot : ¬ManifestAccepts next) (hR : ∀ e : Error, e.IsRefusal → R e)
    (hst : P st) :
    Spec S (Here o st s₀) (storeManifest next) (fun _ _ _ ↦ False) (ThrowsAt o S P R)
      (AtSome o P) := by
  rcases encodeManifest_cases next with ⟨hacc, -⟩ | ⟨-, e, he, herr⟩
  · exact absurd hacc hnot
  · rw [storeManifest, herr, Act.ofExcept_error, Act.throw_bind]
    refine Spec.throw ?_
    rintro s d ⟨rfl, hat⟩
    exact hat.throws hst (hR e he) _

/-! ### Flush -/

/-- The layer that a flush writes says what the log says. -/
theorem lastWrite_flushed {blocks : List SegmentBlock}
    (hblocks : entriesOf blocks = (MemTable.ofRecords log.records).series.pairs) (k : Key) :
    lastWrite (entriesOf blocks) k = lastWrite log.entries k := by
  rw [hblocks, SeriesMap.lastWrite_pairs, MemTable.find_ofRecords]
  rfl

/-- The publication of the table once its layer is in its place and everything before is durable. -/
theorem spec_publishReady (hdurable : c.older = []) (htracks : Tracks history n c (some log))
    (hgen : c.generation + 1 < 2 ^ 64) {l : Layer} (hnumber : l.number = c.generation + 1)
    (hmake : (engineOf c log durability).makeMemtableBlocks = .ok l.blocks)
    (hentries : entriesOf l.blocks = (MemTable.ofRecords log.records).series.pairs) :
    Spec S (Here o ⟨c, some log, some l, .idle⟩ (engineOf c log durability))
      (do
        let reader ← openSegment l.name
        let next : ManifestState := ⟨addU64 (engineOf c log durability).manifest.generation 1,
          (engineOf c log durability).logicalSampleCount,
          (engineOf c log durability).manifest.segmentFiles ++ [l.name]⟩
        storeManifest next
        Act.update fun e ↦ { e with segments := e.segments ++ [reader], manifest := next }
        StorageEngine.onWriter WalWriter.reset
        Act.update fun e ↦ { e with memtable := .empty })
      (fun _ e d ↦ (engineOf c log durability).Publishable ∧ e.memtable = .empty ∧
        (e.manifest.generation = c.generation + 1 ∧ e.segments.length = c.layers.length + 1) ∧
        Usable o history history.length durability e d)
      (Throws o S (Tracks history n)
        fun err ↦ ¬(engineOf c log durability).Publishable ∧ err.IsRefusal)
      (Reaches o (Tracks history n)) := by
  have hsays : ∀ k, lastWrite (c.entries ++ l.entries) k = lastWrite (c.entries ++ log.entries) k :=
    lastWrite_append_congr (fun _ ↦ rfl) (lastWrite_flushed hentries)
  refine Spec.bind (spec_openReady htracks) fun reader ↦ Spec.assume fun hreader ↦ ?_
  subst hreader
  by_cases hlen : c.layers.length < maxManifestSegments
  swap
  · -- the manifest lists as many segments as it can
    refine Spec.bind (spec_storeManifest_refused ?_ (fun err herr ↦ ⟨?_, herr⟩) (.idle htracks))
      fun _ ↦ fun _ _ h ↦ h.elim
    · intro hacc
      have := hacc.length_le
      simp only [engineOf, Catalog.manifest, List.length_append, List.length_map,
        List.length_singleton] at this
      omega
    · rintro ⟨-, hmax, -⟩
      simp only [engineOf, Catalog.manifest, List.length_map] at hmax
      omega
  have hpub : (engineOf c log durability).Publishable := by
    refine ⟨?_, ?_, l.blocks, hmake, l.accepted⟩
    · show c.generation < 2 ^ 64 - 1
      omega
    · show (c.layers.map Layer.name).length < maxManifestSegments
      rwa [List.length_map]
  generalize hc' : c.extend l hnumber hgen hlen = c'
  have hc'entries : c'.entries = c.entries ++ l.entries := by
    rw [← hc']
    exact layeredEntries_concat _ _
  have hcount : (keys (c.entries ++ log.entries)).card = (keys c'.entries).card := by
    rw [hc'entries, keys_congr hsays]
  have hsame : Republishes c (some log) c' := Or.inr fun k ↦ by
    rw [hc'entries, hsays k]
    rfl
  have hnext : (⟨addU64 (engineOf c log durability).manifest.generation 1,
      (engineOf c log durability).logicalSampleCount,
      (engineOf c log durability).manifest.segmentFiles ++ [l.name]⟩ : ManifestState) =
        c'.manifest := by
    rw [Catalog.manifest, ← hcount, ← hc']
    simp only [engineOf, Catalog.manifest, Catalog.extend, addU64, Nat.mod_eq_of_lt hgen,
      List.map_append, List.map_singleton]
  have hreset : ∀ k, lastWrite (c'.entries ++ log.entries) k = lastWrite c'.entries k := by
    intro k
    rw [hc'entries, lastWrite_append_congr (c := c.entries ++ log.entries) hsays fun _ ↦ rfl,
      lastWrite_append_self, hsays]
  have hfinal : engineOf c' .empty durability = ⟨.empty, c'.manifest,
      c.layers.map Layer.reader ++ [l.reader], ⟨durability, 0, false⟩,
      (keys (c.entries ++ log.entries)).card, false⟩ := by
    have hlayers : c'.layers.map Layer.reader = c.layers.map Layer.reader ++ [l.reader] := by
      rw [← hc']
      exact List.map_append
    have hentries' : c'.entries ++ WalLog.empty.entries = c'.entries := List.append_nil _
    rw [engineOf, hlayers, hentries', hcount]
    rfl
  have hdurable' : c'.older = [] := by rw [← hc']; rfl
  have htracks' : Tracks history n c' (some log) := htracks.republish hsame hdurable'
  have htracks'' : Tracks history history.length c' (some .empty) :=
    htracks'.absorbed hreset hdurable' rfl fun _ ↦ id
  rw [hnext]
  refine Spec.bind (spec_storeManifest (l := l) (by rw [← hc']; rfl)
    (Or.inl (by rw [← hc']; rfl)) hsame hdurable hdurable' htracks htracks') fun _ ↦ ?_
  refine Spec.bind (Q := fun _ ↦ Here o ⟨c', some log, none, .idle⟩
    { engineOf c log durability with
      segments := (engineOf c log durability).segments ++ [l.reader], manifest := c'.manifest })
    (Spec.update ?_) fun _ ↦ ?_
  · rintro e d ⟨rfl, hat⟩
    exact ⟨rfl, hat⟩
  refine Spec.bind (spec_onWriter (E := fun err d ↦ Throws o S (Tracks history n)
      (fun err ↦ ¬(engineOf c log durability).Publishable ∧ err.IsRefusal) err () d)
    (spec_resetWal hdurable' hreset htracks' (htracks''.mono htracks.le_length))) fun _ ↦
      Spec.update ?_
  rintro e d ⟨w, rfl, rfl, hat⟩
  refine ⟨hpub, rfl, ⟨?_, ?_⟩, c', .empty, rfl, htracks'', hfinal.symm, hat⟩
  · show c'.generation = c.generation + 1
    rw [← hc']
    rfl
  · show (c.layers.map Layer.reader ++ [l.reader]).length = c.layers.length + 1
    rw [List.length_append, List.length_map]
    rfl

/-- The publication of the table, from the point where its blocks are cut. -/
theorem spec_publishMemtable (htracks : Tracks history n c (some log)) :
    Spec S (Here o ⟨c, some log, none, .idle⟩ (engineOf c log durability))
      StorageEngine.publishMemtable
      (fun _ e d ↦ (engineOf c log durability).Publishable ∧ e.memtable = .empty ∧
        (e.manifest.generation = c.generation + 1 ∧ e.segments.length = c.layers.length + 1) ∧
        Usable o history history.length durability e d)
      (Throws o S (Tracks history n)
        fun err ↦ ¬(engineOf c log durability).Publishable ∧ err.IsRefusal)
      (Reaches o (Tracks history n)) := by
  obtain ⟨blocks, hblocks, hentries, hordered⟩ :=
    blocksFromSnapshots_snapshot (MemTable.ofRecords log.records).series
  have hmake : (engineOf c log durability).makeMemtableBlocks = .ok blocks := hblocks
  refine Spec.bind (Spec.state (R := fun e e' d ↦ e = engineOf c log durability ∧
    Here o ⟨c, some log, none, .idle⟩ (engineOf c log durability) e' d)
      fun e d h ↦ ⟨h.1, h⟩) fun e ↦ Spec.assume fun he ↦ ?_
  subst he
  rw [hmake, Act.ofExcept_ok, pure_bind]
  by_cases hgen : c.generation = 2 ^ 64 - 1
  · -- no number is left
    have hname : (engineOf c log durability).nextSegmentFilename =
        .error (.overflowError "segment generation is exhausted") := if_pos hgen
    rw [hname, Act.ofExcept_error, Act.throw_bind]
    refine Spec.throw ?_
    rintro e d ⟨rfl, hat⟩
    refine hat.throws (.idle htracks) ⟨fun hpub ↦ ?_, trivial⟩ _
    exact absurd hgen hpub.1.ne
  have hname : (engineOf c log durability).nextSegmentFilename =
      .ok (segmentFilename (c.generation + 1)) := if_neg hgen
  have hgen' : c.generation + 1 < 2 ^ 64 := by
    have := c.generation_lt
    omega
  rw [hname, Act.ofExcept_ok, pure_bind]
  refine Spec.bind (spec_writeSegmentFile blocks htracks htracks.settled fun hnot err herr ↦
    ⟨fun ⟨_, _, blocks', hmake', hacc'⟩ ↦ ?_, herr⟩) fun _ ↦ Spec.exists_pre fun l ↦
      Spec.assume fun hnumber ↦ Spec.assume fun hl ↦ ?_
  · rw [hmake] at hmake'
    exact hnot (Except.ok.inj hmake' ▸ hacc')
  subst hl
  have hname : segmentFilename (c.generation + 1) = l.name := by rw [Layer.name, hnumber]
  rw [hname]
  exact spec_publishReady (c := c.settled) rfl htracks.settled hgen' hnumber hmake hentries

/-- **`flush`.** -/
theorem spec_flush (e₀ : StorageEngine) :
    Spec S (fun e d ↦ e = e₀ ∧ Usable o history n durability e d) StorageEngine.flush
      (fun _ e d ↦ (e₀.memtable.isEmpty = true ∧ e₀.SameContents e ∨ e₀.Publishable ∧
          e.manifest.generation = e₀.manifest.generation + 1 ∧
          e.segments.length = e₀.segments.length + 1) ∧
        e.memtable.isEmpty = true ∧ Usable o history history.length durability e d)
      (Poisons o S (Tracks history n)
        fun err ↦ e₀.memtable.isEmpty = false ∧ ¬e₀.Publishable ∧ err.IsRefusal)
      (Reaches o (Tracks history n)) := by
  refine Spec.usable fun c log htail htracks he ↦ ?_
  subst he
  refine Spec.bind (spec_usable rfl) fun _ ↦ Spec.bind (Spec.state (R := fun e e' d ↦
    e = engineOf c log durability ∧
      Here o ⟨c, some log, none, .idle⟩ (engineOf c log durability) e' d)
      fun e d h ↦ ⟨h.1, h⟩) fun e ↦ Spec.assume fun he ↦ ?_
  subst he
  by_cases hempty : (engineOf c log durability).memtable.isEmpty = true
  · rw [if_pos hempty]
    refine (spec_syncEngine htail htracks).post ?_
    rintro _ e d ⟨hsame, husable⟩
    exact ⟨Or.inl ⟨hempty, hsame⟩, hsame.memtable_eq ▸ hempty, husable⟩
  · rw [if_neg hempty]
    refine (spec_guarded (spec_publishMemtable htracks)).conseq (fun _ _ ↦ id) ?_ ?_ fun _ ↦ id
    · rintro _ e d ⟨hpub, hmem, ⟨hgen, hlen⟩, h⟩
      refine ⟨Or.inr ⟨hpub, hgen, ?_⟩, by rw [hmem]; rfl, h⟩
      show e.segments.length = (c.layers.map Layer.reader).length + 1
      rw [hlen, List.length_map]
    · rintro err e d ⟨hfailed, hrest, hreason⟩
      exact ⟨hfailed, hrest, hreason.imp_right fun h ↦ ⟨by simpa using hempty, h⟩⟩

/-! ### Compaction -/

/-- The layer that a compaction writes says what the layers say. -/
theorem lastWrite_compacted {blocks : List SegmentBlock}
    (hblocks : entriesOf blocks = (mergeLayers c.layers).pairs) (k : Key) :
    lastWrite (entriesOf blocks) k = lastWrite c.entries k := by
  rw [hblocks, SeriesMap.lastWrite_pairs, find_mergeLayers]
  rfl

/-- **The count of compaction agrees with the manifest.** -/
theorem countSnapshots_mergeLayers (c : Catalog) :
    StorageEngine.countSnapshots (mergeLayers c.layers).snapshot =
      c.manifest.logicalSampleCount := by
  have htotal : (mergeLayers c.layers).total = (keys c.entries).card := by
    rw [← SeriesMap.length_pairs, ← card_keys_of_nodup (SeriesMap.pairs_nodup _)]
    refine congrArg Finset.card (keys_congr fun k ↦ ?_)
    rw [SeriesMap.lastWrite_pairs, find_mergeLayers]
    rfl
  have hlt : (mergeLayers c.layers).total < 2 ^ 64 := by
    rw [htotal]
    exact c.logicalSampleCount_lt
  have hfold : ∀ (snapshots : List MemTableSeriesSnapshot) (count : ℕ),
      count + (snapshots.map fun s ↦ s.samples.length).sum < 2 ^ 64 →
      snapshots.foldl (fun count s ↦ addU64 count s.samples.length) count =
        count + (snapshots.map fun s ↦ s.samples.length).sum := by
    intro snapshots
    induction snapshots with
    | nil => intro count _; rfl
    | cons s snapshots ih =>
      intro count hcount
      rw [List.map_cons, List.sum_cons, ← Nat.add_assoc] at hcount ⊢
      rw [List.foldl_cons, addU64, Nat.mod_eq_of_lt (by omega)]
      exact ih _ hcount
  have hsum : ((mergeLayers c.layers).snapshot.map fun s ↦ s.samples.length).sum =
      (mergeLayers c.layers).total := by
    rw [SeriesMap.snapshot, List.map_map, SeriesMap.total]
    simp [Function.comp_def]
  rw [StorageEngine.countSnapshots, hfold _ 0 (by rw [hsum]; omega), hsum, htotal, Nat.zero_add]
  rfl

/-- The encoders accept what a compaction of the layers would publish. -/
def Catalog.Compactable (c : Catalog) : Prop :=
  c.generation < 2 ^ 64 - 1 ∧
    ∃ blocks, blocksFromSnapshots (mergeLayers c.layers).snapshot = .ok blocks ∧
    SegmentAccepts blocks

/-- What a compaction makes of a catalog: one layer, cut from the merged layers. -/
structure Catalog.Compacted (c c' : Catalog) : Prop where
  compactable : c.Compactable
  single : ∃ l, c'.layers = [l] ∧
    blocksFromSnapshots (mergeLayers c.layers).snapshot = .ok l.blocks
  generation_eq : c'.generation = c.generation + 1

/-- The publication of the merged layers once the one that replaces them is in its place and
everything before is durable. The layers that are replaced are removed afterwards. -/
theorem spec_replaceLayers (hdurable : c.older = []) (htracks : Tracks history n c (some log))
    (hgen : c.generation + 1 < 2 ^ 64) {l : Layer} (hnumber : l.number = c.generation + 1)
    (hblocks : blocksFromSnapshots (mergeLayers c.layers).snapshot = .ok l.blocks)
    (hentries : entriesOf l.blocks = (mergeLayers c.layers).pairs) :
    Spec S (Here o ⟨c, some log, some l, .idle⟩ (engineOf c log durability))
      (do
        let reader ← openSegment l.name
        let next : ManifestState := ⟨addU64 (engineOf c log durability).manifest.generation 1,
          (engineOf c log durability).manifest.logicalSampleCount, [l.name]⟩
        let obsolete := (engineOf c log durability).manifest.segmentFiles
        storeManifest next
        Act.update fun e ↦ { e with segments := [reader], manifest := next }
        obsolete.forM fun old ↦ Act.tryStep (.remove (cString old)))
      (fun _ e d ↦ ∃ c', c.Compacted c' ∧ Tracks history n c' (some log) ∧
        Here o ⟨c', some log, none, .idle⟩ (engineOf c' log durability) e d)
      (Throws o S (Tracks history n) fun err ↦ ¬c.Compactable ∧ err.IsRefusal)
      (Reaches o (Tracks history n)) := by
  have hsays : ∀ k, lastWrite l.entries k = lastWrite c.entries k := lastWrite_compacted hentries
  refine Spec.bind (spec_openReady htracks) fun reader ↦ Spec.assume fun hreader ↦ ?_
  subst hreader
  generalize hc' : c.replace l hnumber hgen = c'
  have hcomp : c.Compacted c' :=
    ⟨⟨by omega, l.blocks, hblocks, l.accepted⟩, ⟨l, by rw [← hc']; rfl, hblocks⟩,
      by rw [← hc']; rfl⟩
  have hc'entries : c'.entries = l.entries := by
    rw [← hc']
    exact List.append_nil _
  have hdurable' : c'.older = [] := by rw [← hc']; rfl
  have hsame : ∀ k, lastWrite c'.entries k = lastWrite c.entries k := by
    intro k
    rw [hc'entries, hsays]
  have hnext : (⟨addU64 (engineOf c log durability).manifest.generation 1,
      (engineOf c log durability).manifest.logicalSampleCount, [l.name]⟩ : ManifestState) =
        c'.manifest := by
    rw [Catalog.manifest, keys_congr hsame, ← hc']
    simp only [engineOf, Catalog.manifest, Catalog.replace, addU64, Nat.mod_eq_of_lt hgen,
      List.map_singleton]
  have hfinal : engineOf c' log durability = ⟨.ofRecords log.records, c'.manifest, [l.reader],
      ⟨durability, log.bytes.length, false⟩, (keys (c.entries ++ log.entries)).card, false⟩ := by
    have hlayers : c'.layers.map Layer.reader = [l.reader] := by
      rw [← hc']
      rfl
    rw [engineOf, hlayers, keys_congr (lastWrite_append_congr hsame fun _ ↦ rfl)]
  have htracks' : Tracks history n c' (some log) :=
    htracks.republish (Or.inl hsame) hdurable'
  rw [hnext]
  refine Spec.bind (spec_storeManifest (l := l) (by rw [← hc']; rfl)
    (Or.inr (by rw [← hc']; rfl)) (Or.inl hsame) hdurable hdurable' htracks htracks') fun _ ↦ ?_
  refine Spec.bind (Q := fun _ ↦ Here o ⟨c', some log, none, .idle⟩ (engineOf c' log durability))
    (Spec.update ?_) fun _ ↦ ?_
  · rintro e d ⟨rfl, hat⟩
    exact ⟨hfinal.symm, hat⟩
  -- the layers that are removed now have smaller numbers than the one that is live
  refine (Spec.forM (fun _ ↦ Here o ⟨c', some log, none, .idle⟩ (engineOf c' log durability))
    fun _ old _ hold ↦ ?_).post fun _ e d h ↦ ⟨c', hcomp, htracks', h⟩
  obtain ⟨a, ha, rfl⟩ : ∃ a ∈ c.layers, a.name = old := List.mem_map.1 (by
    show old ∈ (engineOf c log durability).manifest.segmentFiles
    rw [hold]
    simp)
  rw [Layer.name, cString_segmentFilename]
  refine spec_tryRemove (isSegmentName_segmentFilename _) ?_ htracks'
  show a.name ∉ c'.layers.map Layer.name
  rw [← hc']
  intro hmem
  have heq := segmentFilename_injective (List.mem_singleton.1 hmem)
  have hle := (c.numbered a ha).2
  omega

/-- The publication of the merged layers. -/
theorem spec_publishCompacted (htracks : Tracks history n c (some log)) :
    Spec S (Here o ⟨c, some log, none, .idle⟩ (engineOf c log durability))
      StorageEngine.publishCompacted
      (fun _ e d ↦ ∃ c', c.Compacted c' ∧ Tracks history n c' (some log) ∧
        Here o ⟨c', some log, none, .idle⟩ (engineOf c' log durability) e d)
      (Throws o S (Tracks history n) fun err ↦ ¬c.Compactable ∧ err.IsRefusal)
      (Reaches o (Tracks history n)) := by
  obtain ⟨blocks, hblocks, hentries, hordered⟩ :=
    blocksFromSnapshots_snapshot (mergeLayers c.layers)
  refine Spec.bind (Spec.state (R := fun e e' d ↦ e = engineOf c log durability ∧
    Here o ⟨c, some log, none, .idle⟩ (engineOf c log durability) e' d)
      fun e d h ↦ ⟨h.1, h⟩) fun e ↦ Spec.assume fun he ↦ ?_
  subst he
  refine Spec.bind (Spec.look (reads_mergeSegments fun f hf l hl ↦ hf.layer_files l hl)
    (.idle htracks))
    fun merged ↦ Spec.assume fun hmerged ↦ ?_
  subst hmerged
  have hcount : ¬StorageEngine.countSnapshots (mergeLayers c.layers).snapshot ≠
      (engineOf c log durability).manifest.logicalSampleCount :=
    not_not.2 (countSnapshots_mergeLayers c)
  dsimp only
  rw [if_neg hcount, hblocks, Act.ofExcept_ok, pure_bind]
  by_cases hgen : c.generation = 2 ^ 64 - 1
  · have hname : (engineOf c log durability).nextSegmentFilename =
        .error (.overflowError "segment generation is exhausted") := if_pos hgen
    rw [hname, Act.ofExcept_error, Act.throw_bind]
    refine Spec.throw ?_
    rintro e d ⟨rfl, hat⟩
    refine hat.throws (.idle htracks) ⟨fun hcomp ↦ ?_, trivial⟩ _
    exact absurd hgen hcomp.1.ne
  have hname : (engineOf c log durability).nextSegmentFilename =
      .ok (segmentFilename (c.generation + 1)) := if_neg hgen
  have hgen' : c.generation + 1 < 2 ^ 64 := by
    have := c.generation_lt
    omega
  rw [hname, Act.ofExcept_ok, pure_bind]
  refine Spec.bind (spec_writeSegmentFile blocks htracks htracks.settled fun hnot err herr ↦
    ⟨fun ⟨_, blocks', hmake', hacc'⟩ ↦ ?_, herr⟩) fun _ ↦ Spec.exists_pre fun l ↦
      Spec.assume fun hnumber ↦ Spec.assume fun hl ↦ ?_
  · rw [hblocks] at hmake'
    exact hnot (Except.ok.inj hmake' ▸ hacc')
  subst hl
  have hname : segmentFilename (c.generation + 1) = l.name := by rw [Layer.name, hnumber]
  rw [hname]
  refine (spec_replaceLayers
    (c := c.settled) rfl htracks.settled hgen' hnumber hblocks hentries).conseq
    (fun _ _ ↦ id) ?_ (fun _ _ _ ↦ id) fun _ ↦ id
  rintro _ e d ⟨c', hcomp, h⟩
  exact ⟨c', ⟨hcomp.compactable, hcomp.single, hcomp.generation_eq⟩, h⟩

/-- **`compact`**, at a known stage: nothing happens, or the layers are replaced. -/
theorem spec_compactAt (htracks : Tracks history n c (some log)) :
    Spec S (Here o ⟨c, some log, none, .idle⟩ (engineOf c log durability)) StorageEngine.compact
      (fun _ e d ↦ ∃ c', (c.layers.length ≤ 1 ∧ c' = c ∨ c.Compacted c') ∧
        Tracks history n c' (some log) ∧
          Here o ⟨c', some log, none, .idle⟩ (engineOf c' log durability) e d)
      (Poisons o S (Tracks history n)
        fun err ↦ ¬c.layers.length ≤ 1 ∧ ¬c.Compactable ∧ err.IsRefusal)
      (Reaches o (Tracks history n)) := by
  refine Spec.bind (spec_usable rfl) fun _ ↦ Spec.bind (Spec.state (R := fun e e' d ↦
    e = engineOf c log durability ∧
      Here o ⟨c, some log, none, .idle⟩ (engineOf c log durability) e' d)
      fun e d h ↦ ⟨h.1, h⟩) fun e ↦ Spec.assume fun he ↦ ?_
  subst he
  have hlength : (engineOf c log durability).segments.length = c.layers.length := List.length_map _
  rw [hlength]
  by_cases hfew : c.layers.length ≤ 1
  · rw [if_pos hfew]
    exact Spec.pure fun e d h ↦ ⟨c, Or.inl ⟨hfew, rfl⟩, htracks, h⟩
  · rw [if_neg hfew]
    refine (spec_guarded (spec_publishCompacted htracks)).conseq (fun _ _ ↦ id) ?_ ?_ fun _ ↦ id
    · rintro _ e d ⟨c', hcomp, h⟩
      exact ⟨c', Or.inr hcomp, h⟩
    · rintro err e d ⟨hfailed, hrest, hreason⟩
      exact ⟨hfailed, hrest, hreason.imp_right fun h ↦ ⟨hfew, h⟩⟩

/-- **`compact`.** -/
theorem spec_compact (e₀ : StorageEngine) :
    Spec S (fun e d ↦ e = e₀ ∧ Usable o history n durability e d) StorageEngine.compact
      (fun _ e d ↦ e.memtable = e₀.memtable ∧ Usable o history n durability e d)
      (Poisons o S (Tracks history n) Error.IsRefusal) (Reaches o (Tracks history n)) := by
  refine Spec.usable fun c log htail htracks he ↦ ?_
  subst he
  refine (spec_compactAt htracks).conseq (fun _ _ ↦ id) ?_ ?_ fun _ ↦ id
  · rintro _ e d ⟨c', -, htracks', rfl, hat⟩
    exact ⟨rfl, c', log, htail, htracks', rfl, hat⟩
  · rintro err e d ⟨hfailed, hrest, hreason⟩
    exact ⟨hfailed, hrest, hreason.imp_right fun h ↦ h.2.2⟩

end Engine

end ChronoStore
