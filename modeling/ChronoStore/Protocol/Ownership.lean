import ChronoStore.Foundation.Territory
import ChronoStore.Codec.ManifestFormat
import ChronoStore.Codec.SegmentAccess
import ChronoStore.Protocol.Exceptions
import ChronoStore.Protocol.Linearization

/-!
# The files of the store

A database shares its directory with whatever else is there. The store keeps to its own names: the
lock, the log, the manifest and its temporary file, everything with the extension of a segment, and
the temporary files of segments. Any number of processes that open the directory, call, fail and
crash in any order leave all other files as they were, whatever bytes the directory held at first
(`foreign_untouched`), with one exception. The names that an engine removes are those that its
manifest lists, and the operating system cuts a name at its first NUL byte; what a listed name with
such a byte is cut to may be any name (`Listed`).

The frame rests on two invariants (`storeTerritory`, `StorageEngine.Proper`): neither the manifest
in the directory nor that of an engine ever lists a name that would be cut to the name of a file
that is spared. The invariant of the engine also keeps its readers in order, which is what confines
damage: of a segment that has been opened, a query depends on no block but those it needs.
-/

namespace ChronoStore

open FaultyDisk

/-- The names that the store may use. -/
def IsStoreName (name : Bytes) : Prop :=
  name = lockName ∨ name = walName ∨ name = manifestName ∨ name = temporaryName manifestName ∨
    extension name = ascii ".cst" ∨ ascii "segment-" <+: name ∧ extension name = ascii ".tmp"

/-- The name of a file that is none of the store's. -/
def IsForeign (name : Bytes) : Prop := ¬IsStoreName name

theorem isStoreName_walName : IsStoreName walName := .inr (.inl rfl)

/-- A name that a manifest may list is one of the store's. -/
theorem isStoreName_of_valid {name : Bytes} (h : validSegmentFilename name = true) :
    IsStoreName name := by
  simp only [validSegmentFilename, decide_eq_true_eq] at h
  exact .inr (.inr (.inr (.inr (.inl h.2.2.2))))

/-- A name that recovery removes is one of the store's. -/
theorem isStoreName_of_isObsolete {live : List Bytes} {name : Bytes}
    (h : isObsolete live name = true) :
    IsStoreName name := by
  simp only [isObsolete, Bool.or_eq_true, Bool.and_eq_true, decide_eq_true_eq,
    List.isPrefixOf_iff_prefix] at h
  exact .inr (.inr (.inr (.inr (h.imp (fun h ↦ h.1.1) id))))

/-- The extension is what follows the last dot. -/
theorem extension_append {stem ext : Bytes} (hstem : stem ≠ []) (hext : ext ≠ [])
    (hdot : 46 ∉ ext) :
    extension (stem ++ 46 :: ext) = 46 :: ext := by
  have hstem := List.length_pos_of_ne_nil hstem
  have hext := List.length_pos_of_ne_nil hext
  have htake : (stem ++ 46 :: ext).reverse.takeWhile (· ≠ 46) = ext.reverse := by
    rw [List.reverse_append, List.reverse_cons, List.append_assoc, List.takeWhile_append_of_pos
      fun b hb ↦ by simpa using ne_of_mem_of_not_mem (List.mem_reverse.1 hb) hdot]
    simp
  have hdots : stem ++ 46 :: ext ≠ ascii ".." := by
    intro heq
    have hlen := congrArg List.length heq
    rw [List.length_append, List.length_cons, show (ascii "..").length = 2 from rfl] at hlen
    omega
  simp only [extension, htake, List.reverse_reverse]
  rw [if_neg]
  simp only [hdots, false_or, List.length_append, List.length_cons]
  omega

theorem isStoreName_temporaryName (n : ℕ) : IsStoreName (temporaryName (segmentFilename n)) := by
  have hseg := isSegmentName_temporaryName (isSegmentName_segmentFilename n)
  have hne : segmentFilename n ≠ [] := by
    intro h
    have hlt := (isSegmentName_segmentFilename n).length_le
    rw [h] at hlt
    exact absurd hlt (by decide)
  exact .inr (.inr (.inr (.inr (.inr ⟨hseg, extension_append hne (by decide) (by decide)⟩))))

/-! ### Listed names -/

/-- What the operating system makes of a name that the manifest of the directory lists. -/
def Listed (f : Directory) (name : Bytes) : Prop :=
  ∃ state, loadManifestIn f = .ok state ∧ ∃ listed ∈ state.segmentFiles, cString listed = name

/-- The file is none of the store's, and was not listed at first. -/
def Spared (f : Directory) (name : Bytes) : Prop := IsForeign name ∧ ¬Listed f name

/-- What the store leaves of a directory `f`: the files that are spared, and a manifest that lists
none. -/
def storeTerritory (f : Directory) : Territory Bytes UInt8 where
  alone := Spared f
  watched name := name = manifestName
  kept g := ∀ name, Listed g name → ¬Spared f name
  kept_congr h hkept name := by
    rintro ⟨state, hload, hlisted⟩
    exact hkept name ⟨state, (loadManifestIn_congr (h _ rfl)).symm.trans hload, hlisted⟩

section Territory

variable {f g : Directory} {name : Bytes}

/-- What is to be kept is there at the start. -/
theorem kept_start (f : Directory) : (storeTerritory f).kept f :=
  fun _ hlisted hspared ↦ hspared.2 hlisted

/-- The files of the store are not spared. -/
theorem not_spared (h : IsStoreName name) : ¬Spared f name := fun hspared ↦ hspared.1 h

/-- What the manifest lists is not spared. -/
theorem not_spared_of_listed (h : (storeTerritory f).kept g) (hlisted : Listed g name) :
    ¬Spared f name :=
  h name hlisted

/-- The names of the store are open, apart from the manifest's. -/
theorem open_of_isStoreName (h : IsStoreName name) (hne : name ≠ manifestName) :
    (storeTerritory f).Open name := ⟨not_spared h, hne⟩

theorem open_walName : (storeTerritory f).Open walName :=
  open_of_isStoreName isStoreName_walName (by decide)

/-- A manifest that is gone lists nothing. -/
theorem kept_erase (h : (storeTerritory f).kept g) (name : Bytes) :
    (storeTerritory f).kept (g.erase name) := by
  by_cases hname : name = manifestName
  · rintro other ⟨state, hload, listed, hlisted, -⟩
    rw [loadManifestIn, hname, OrderedMap.find?_erase, if_pos rfl] at hload
    rw [← Except.ok.inj hload] at hlisted
    cases hlisted
  · refine (storeTerritory f).kept_congr (fun other hother ↦ ?_) h
    rw [OrderedMap.find?_erase, if_neg fun heq ↦ hname (heq.symm.trans hother)]

end Territory

/-! ### Files -/

section Files

variable {σ : Type} {A : σ → Prop} {f : Directory}

/-- **An atomic write** touches its file and the temporary one. When the file gets its name, its
bytes are complete. -/
theorem avoids_atomicWriteFile {T : Territory Bytes UInt8} {name bytes : Bytes}
    (hname : ¬T.alone name)
    (htemporary : T.Open (temporaryName name)) (hkept : ∀ f g, T.kept f →
      (∀ n, n ≠ name → n ≠ temporaryName name → g.find? n = f.find? n) → g.find? name = some bytes →
        T.kept g) (A : σ → Prop) :
    Avoids T A (atomicWriteFile name bytes : Prog σ Unit) (fun _ ↦ A) A := by
  intro S f
  let Kept (s : σ) (d : Disk Bytes UInt8) : Prop := A s ∧ T.Left f d.files
  -- the temporary file holds what has been written
  let Staged (written : Bytes) (s : σ) (d : Disk Bytes UInt8) : Prop :=
    Kept s d ∧ d.files.find? (temporaryName name) = some written
  have hopen : ∀ t : Step Bytes UInt8, t.touches = [temporaryName name] →
      ∀ n ∈ t.touches, T.Open n := by
    rintro t ht n hn
    rw [ht, List.mem_singleton] at hn
    rwa [hn]
  have hcrash : ∀ d, (∃ s, Kept s d) → T.Left f d.files := fun d ⟨_, h⟩ ↦ h.2
  have hcreate : Spec S Kept (Act.step (.createTrunc (temporaryName name))
      (Error.runtimeError "failed to open temporary file")) (fun _ ↦ Staged []) (fun _ ↦ Kept)
      fun d ↦ T.Left f d.files := by
    refine (Spec.whole (by simp) (fun s d h ↦ ⟨⟨h.1, h.2.perform (hopen _ rfl)⟩, ?_⟩) (fun _ _ ↦ id)
      fun _ _ h ↦ h.1).conseq (fun _ _ ↦ id) (fun _ _ _ ↦ id) (fun _ _ _ ↦ id) hcrash
    rw [Disk.perform_files, Step.apply, OrderedMap.find?_insert, if_pos rfl]
  have hwrite : Spec S (Staged []) (Act.writeAll (temporaryName name) bytes
      (Error.runtimeError "failed to write temporary file")
      (Error.runtimeError "failed to write temporary file"))
      (fun _ ↦ Staged bytes) (fun _ ↦ Kept) fun d ↦ T.Left f d.files := by
    refine (Spec.writeAll _ bytes _ _ Staged ?_).conseq (fun _ _ ↦ id) (fun _ _ _ ↦ id) ?_ ?_
    · rintro done piece s d - ⟨⟨hs, hd⟩, hstaged⟩
      refine ⟨⟨hs, hd.perform (hopen _ rfl)⟩, ?_⟩
      rw [Disk.perform_files, Step.apply, hstaged]
      exact (OrderedMap.find?_insert _ _ _ _).trans (if_pos rfl)
    · rintro _ s d ⟨-, -, done, -, h⟩
      exact h.1
    · rintro d ⟨s, done, -, h⟩
      exact h.1.2
  have hprobe : ∀ onFail : Error, Spec S (Staged bytes) (Act.probe onFail) (fun _ ↦ Staged bytes)
    (fun _ ↦ Kept)
      fun d ↦ T.Left f d.files := fun onFail ↦
    Spec.probe (fun _ _ _ h ↦ h.1) fun _ _ h ↦ h.1.2
  have hfsync : Spec S (Staged bytes) (Act.step (.fsync (temporaryName name))
      (Error.systemError "failed to synchronize file")) (fun _ ↦ Staged bytes) (fun _ ↦ Kept)
      fun d ↦ T.Left f d.files :=
    (Spec.whole (by simp) (fun _ _ h ↦ h) (fun _ _ h ↦ h.1) fun _ _ h ↦ h.1).conseq (fun _ _ ↦ id)
      (fun _ _ _ ↦ id) (fun _ _ _ ↦ id) hcrash
  have hrename : Spec S (Staged bytes) (Act.step (.rename (temporaryName name) name)
      (Error.systemError "failed to publish atomic file")) (fun _ ↦ Kept) (fun _ ↦ Kept)
      fun d ↦ T.Left f d.files := by
    refine (Spec.whole (by simp) ?_ (fun _ _ h ↦ h.1) fun _ _ ↦ id).conseq (fun _ _ ↦ id)
      (fun _ _ _ ↦ id) (fun _ _ _ ↦ id) hcrash
    rintro s d ⟨⟨hs, hd⟩, hstaged⟩
    refine ⟨hs, hd.1.perform (by simpa [Step.touches, htemporary.1] using hname), ?_⟩
    rw [Disk.perform_files, Step.apply, hstaged]
    refine hkept d.files _ hd.2 (fun n hn hn' ↦ ?_) ?_
    · rw [OrderedMap.find?_insert, if_neg hn, OrderedMap.find?_erase, if_neg hn']
    · rw [OrderedMap.find?_insert, if_pos rfl]
  have hrest : Avoids T A (do
      Act.probe (Error.systemError "failed to open parent directory for synchronization")
      Act.step .fsyncDir (Error.systemError "failed to synchronize parent directory")
      Act.probe (Error.systemError "failed to close file") : Prog σ Unit) (fun _ ↦ A) A := by
    refine (Avoids.of_quiet (Quiet.probe _) A).bind fun _ ↦ ?_
    refine (Avoids.step (by simp [Step.touches]) _ A).bind fun _ ↦ ?_
    exact Avoids.of_quiet (Quiet.probe _) A
  refine Spec.bind hcreate fun _ ↦ ?_
  refine Spec.ite (fun _ ↦ Spec.throw fun _ _ h ↦ h.1) fun _ ↦ ?_
  refine Spec.bind hwrite fun _ ↦ ?_
  refine Spec.bind (Spec.bind (hprobe _) fun _ ↦ Spec.bind hfsync fun _ ↦ hprobe _) fun _ ↦ ?_
  exact Spec.bind hrename fun _ ↦ hrest S f

theorem isSegmentName_ne_manifestName {name : Bytes} (h : IsSegmentName name) :
    name ≠ manifestName := by
  rintro rfl
  exact not_isSegmentName_manifestName h

/-- Writing a segment touches its own name and that of its temporary file. -/
theorem avoids_writeSegmentFile (n : ℕ) (blocks : List SegmentBlock) (A : σ → Prop) :
    Avoids (storeTerritory f) A
      (writeSegmentFile (segmentFilename n) blocks : Prog σ SegmentFileMetadata)
      (fun _ ↦ A) A := by
  have hsegment := isSegmentName_segmentFilename n
  have hne := isSegmentName_ne_manifestName hsegment
  have hne' := isSegmentName_ne_manifestName (isSegmentName_temporaryName hsegment)
  have hname : IsStoreName (segmentFilename n) :=
    isStoreName_of_valid (validSegmentFilename_segmentFilename n)
  refine (Avoids.of_quiet (Quiet.ofExcept _) A).bind fun _ ↦ ?_
  refine (avoids_atomicWriteFile (not_spared hname)
    (open_of_isStoreName (isStoreName_temporaryName n) hne')
    (fun g g' hg hframe _ ↦ ?_) A).bind fun _ ↦ ?_
  · refine (storeTerritory f).kept_congr (fun other hother ↦ ?_) hg
    rw [show other = manifestName from hother]
    exact hframe _ hne.symm hne'.symm
  · exact Avoids.of_quiet (Quiet.pure _) A

/-- The manifest that is stored lists what it was given. -/
theorem avoids_storeManifest {state : ManifestState}
    (hstate : ∀ name ∈ state.segmentFiles, ¬Spared f (cString name)) (A : σ → Prop) :
    Avoids (storeTerritory f) A (storeManifest state : Prog σ Unit) (fun _ ↦ A) A := by
  refine (Avoids.ofExcept _ A).bind fun bytes ↦ Avoids.assume fun henc ↦ ?_
  refine avoids_atomicWriteFile (not_spared (.inr (.inr (.inl rfl))))
    (open_of_isStoreName (.inr (.inr (.inr (.inl rfl)))) (by decide)) (fun g g' _ _ hbytes ↦ ?_) A
  rintro name ⟨state', hload, listed, hlisted, rfl⟩
  rw [loadManifestIn, hbytes] at hload
  dsimp only at hload
  split at hload
  · cases hload
  · rw [segmentFiles_of_decodeManifest henc hload] at hlisted
    exact hstate listed hlisted

/-- A manifest that has been loaded lists nothing that is spared. -/
theorem avoids_loadManifest (A : σ → Prop) :
    Avoids (storeTerritory f) A (loadManifest : Prog σ ManifestState)
      (fun state s ↦ (∀ name ∈ state.segmentFiles, ¬Spared f (cString name)) ∧ A s) A :=
  Avoids.of_reads (fun g hg ↦ ⟨loadManifestIn g, fun _ ↦ reads_loadManifest_in,
      fun state hload name hname ↦
    not_spared_of_listed hg ⟨state, hload, name, hname, rfl⟩⟩) A

/-- A reader that has been opened has an ordered index. -/
theorem avoids_openSegment (name : Bytes) (A : σ → Prop) : Avoids (storeTerritory f) A
    (openSegment name : Prog σ SegmentReader) (fun reader s ↦ OrderedIndex reader.index ∧ A s) A :=
  Avoids.of_reads (fun g _ ↦ ⟨openSegmentIn g name, fun _ ↦ reads_openSegment_in name,
    fun _ ↦ ordered_of_open⟩) A

theorem avoids_openSegments (names : List Bytes) (A : σ → Prop) : Avoids (storeTerritory f) A
    (openSegments names : Prog σ (List SegmentReader × ℕ))
    (fun found s ↦ (∀ reader ∈ found.1, OrderedIndex reader.index) ∧ A s) A := by
  refine (Avoids.foldlM (I := fun found s ↦ (∀ reader ∈ found.1, OrderedIndex reader.index) ∧ A s)
    (E := A) (fun found name _ ↦ ?_) ([], 0)).conseq (fun s hs ↦ ⟨by simp, hs⟩)
    (fun _ _ ↦ id) fun _ ↦ id
  refine Avoids.assume fun hfound ↦ ?_
  refine (avoids_openSegment name A).bind fun reader ↦ Avoids.pure ?_
  rintro s ⟨hreader, hs⟩
  exact ⟨by simpa [or_imp, forall_and] using ⟨hfound, hreader⟩, hs⟩

/-- What recovery removes is the store's. -/
theorem avoids_removeObsolete (listing : Listing) (live : List Bytes) (A : σ → Prop) :
    Avoids (storeTerritory f) A (removeObsolete listing live : Prog σ Unit) (fun _ ↦ A) A := by
  refine (Avoids.of_quiet (Quiet.list _) A).bind fun names ↦ ?_
  refine Avoids.forM fun name _ ↦ Avoids.ite (fun hobsolete ↦ ?_) fun _ ↦
    Avoids.of_quiet (Quiet.probe _) A
  refine (Avoids.tryRemove (not_spared (isStoreName_of_isObsolete hobsolete))
    (fun _ hg ↦ kept_erase hg _)
    A).bind fun _ ↦ Avoids.of_quiet (Quiet.probe _) A

theorem quiet_replayWal (segments : List SegmentReader) (acc : MemTable × ℕ) :
    Quiet (replayWal (replayRecord segments) acc : Prog σ ((MemTable × ℕ) × WalReplayResult)) := by
  refine Quiet.of_reads (J := Error.IsIo) fun f ↦ ?_
  cases hwal : f.find? walName with
  | none =>
    refine ⟨.error (.systemError "failed to read WAL"), fun S ↦ ?_⟩
    exact (Reads.lookup (c := none) trivial fun _ h ↦ h ▸ hwal).bind (g := fun _ ↦ .error _)
        fun _ h ↦ by
      obtain rfl := Except.ok.inj h
      exact Reads.throw _
  | some content =>
    exact ⟨_, fun S ↦ reads_replayWal (fun acc record ↦ reads_replayRecord_in segments acc record)
      (fun _ h ↦ h ▸ hwal) acc⟩

end Files

/-! ### The log -/

section Log

variable {σ : Type} {f : Directory}

theorem avoids_walOpen (durability : WalDurability) (A : σ → Prop) : Avoids (storeTerritory f) A
    (WalWriter.open durability : Prog σ WalWriter) (fun _ ↦ A) A := by
  refine (Avoids.openAppend open_walName _ A).bind fun _ ↦ ?_
  refine (Avoids.of_quiet (Quiet.lookup _ _) A).bind fun _ ↦ ?_
  exact Avoids.of_quiet (Quiet.pure _) A

theorem avoids_walSync {T : Territory Bytes UInt8} :
    Avoids T (fun _ ↦ True) WalWriter.sync (fun _ _ ↦ True) fun _ ↦ True :=
  (Avoids.of_quiet quiet_walUsable _).bind fun _ ↦
    Avoids.onException (Avoids.step (by simp [Step.touches]) _ _) fun _ _ ↦ trivial

/-- An append touches the log only. -/
theorem avoids_append {T : Territory Bytes UInt8} (hT : T.Open walName) (record : WalPutRecord) :
    Avoids T (fun _ ↦ True) (WalWriter.append record) (fun _ _ ↦ True) fun _ ↦ True := by
  refine (Avoids.of_quiet quiet_walUsable _).bind fun _ ↦
    (Avoids.of_quiet (Quiet.ofExcept _) _).bind fun encoded ↦
        (Avoids.of_quiet Quiet.state _).bind fun _ ↦
      Avoids.ite (fun _ ↦ Avoids.throw _ fun _ ↦ id) fun _ ↦
        Avoids.onException (E := fun _ ↦ True) ?_ fun _ _ ↦ trivial
  exact (Avoids.writeAll hT _ _ _ _).bind fun _ ↦
    (Avoids.update fun _ _ ↦ trivial).bind fun _ ↦ (Avoids.of_quiet Quiet.state _).bind fun _ ↦
      Avoids.ite (fun _ ↦ avoids_walSync) fun _ ↦ Avoids.pure fun _ ↦ id

theorem avoids_reset {T : Territory Bytes UInt8} (hT : T.Open walName) :
    Avoids T (fun _ ↦ True) WalWriter.reset (fun _ _ ↦ True) fun _ ↦ True := by
  refine (Avoids.of_quiet quiet_walUsable _).bind fun _ ↦
    (Avoids.onException (Q := fun _ _ ↦ True) (E := fun _ ↦ True) ?_ fun _ _ ↦ trivial).bind fun _ ↦
      Avoids.update fun _ _ ↦ trivial
  exact (Avoids.step (by simpa [Step.touches] using hT) _ _).bind fun _ ↦
    Avoids.step (by simp [Step.touches]) _ _

theorem avoids_runHere (writer : WalWriter) (A : σ → Prop) :
    Avoids (storeTerritory f) A (writer.runHere WalWriter.sync : Prog σ Unit) (fun _ ↦ A) A :=
  Avoids.zoom avoids_walSync fun _ _ ↦ id

/-- Repair touches the log only. -/
theorem avoids_repairWalTail (result : WalReplayResult) (A : σ → Prop) :
    Avoids (storeTerritory f) A (repairWalTail result : Prog σ Unit) (fun _ ↦ A) A := by
  refine Avoids.ite (fun _ ↦ Avoids.pure fun _ ↦ id) fun _ ↦ ?_
  refine Avoids.ite (fun _ ↦ Avoids.throw _ fun _ ↦ id) fun _ ↦ ?_
  refine (Avoids.of_quiet (Quiet.lookup _ _) A).bind fun found ↦ ?_
  cases found with
  | none => exact Avoids.throw _ fun _ ↦ id
  | some content =>
    refine Avoids.ite (fun _ ↦ Avoids.throw _ fun _ ↦ id) fun _ ↦ ?_
    refine (Avoids.step (by simpa [Step.touches] using open_walName) _ A).bind fun _ ↦ ?_
    refine (avoids_walOpen _ A).bind fun writer ↦ ?_
    exact Avoids.ite (fun _ ↦ Avoids.throw _ fun _ ↦ id) fun _ ↦ avoids_runHere writer A

end Log

/-! ### The engine -/

/-- No file that is spared is listed, and the indices of the segments are in order. -/
structure StorageEngine.Proper (f : Directory) (e : StorageEngine) : Prop where
  names : ∀ name ∈ e.manifest.segmentFiles, ¬Spared f (cString name)
  ordered : ∀ reader ∈ e.segments, OrderedIndex reader.index

/-- Recovery removes and repairs files of the store only. -/
theorem avoids_recover {σ : Type} {f : Directory} (listing : Listing) (A : σ → Prop) :
    Avoids (storeTerritory f) A (recover listing : Prog σ RecoveryState) (fun r s ↦
      ((∀ name ∈ r.manifest.segmentFiles, ¬Spared f (cString name)) ∧
        ∀ reader ∈ r.segments, OrderedIndex reader.index) ∧ A s) A := by
  refine (avoids_loadManifest A).bind fun manifest ↦ Avoids.assume fun hnames ↦ ?_
  refine (avoids_openSegments _ A).bind fun ⟨segments, physical⟩ ↦ Avoids.assume fun hordered ↦ ?_
  refine (avoids_removeObsolete _ _ A).bind fun _ ↦ ?_
  refine Avoids.ite (fun _ ↦ Avoids.throw _ fun _ ↦ id) fun _ ↦ ?_
  refine (Avoids.of_quiet (Quiet.lookup _ _) A).bind fun found ↦ ?_
  cases found with
  | none =>
    refine (avoids_walOpen _ A).bind fun writer ↦ ?_
    refine (avoids_runHere writer A).bind fun _ ↦ ?_
    exact Avoids.pure fun s hs ↦ ⟨⟨hnames, hordered⟩, hs⟩
  | some content =>
    refine (Avoids.of_quiet (quiet_replayWal _ _) A).bind fun ⟨⟨_, _⟩, result⟩ ↦ ?_
    refine (avoids_repairWalTail result A).bind fun _ ↦ ?_
    exact Avoids.pure fun s hs ↦ ⟨⟨hnames, hordered⟩, hs⟩

/-- Opening touches files of the store only. -/
theorem avoids_open {σ : Type} {f : Directory} (listing : Listing) (durability : WalDurability) :
    Avoids (storeTerritory f) (fun _ ↦ True)
      (StorageEngine.open listing durability : Prog σ StorageEngine)
      (fun e _ ↦ e.Proper f) fun _ ↦ True := by
  refine (avoids_recover listing _).bind fun _ ↦ Avoids.assume fun h ↦ ?_
  refine (avoids_walOpen _ _).bind fun _ ↦ ?_
  exact Avoids.ite (fun _ ↦ Avoids.throw _ fun _ ↦ id) fun _ ↦ Avoids.pure fun _ _ ↦ ⟨h.1, h.2⟩

section Engine

variable {f : Directory}

/-- A program that keeps the engine proper and the territory of the store. -/
def Minds {α : Type} (f : Directory) (m : Prog StorageEngine α) : Prop :=
  Avoids (storeTerritory f) (StorageEngine.Proper f) m (fun _ ↦ StorageEngine.Proper f)
    (StorageEngine.Proper f)

theorem Minds.of_quiet {α : Type} {m : Prog StorageEngine α} (h : Quiet m) : Minds f m :=
  Avoids.of_quiet h _

/-- A `try` block does what it guards. -/
theorem minds_guarded {α : Type} {m : Prog StorageEngine α} (h : Minds f m) :
    Minds f (StorageEngine.guarded m) :=
  Avoids.onException h fun _ he ↦ ⟨he.names, he.ordered⟩

/-- A member function of the writer touches the log only. -/
theorem minds_onWriter {m : Prog WalWriter Unit}
    (h : Avoids (storeTerritory f) (fun _ ↦ True) m (fun _ _ ↦ True) fun _ ↦ True) :
    Minds f (StorageEngine.onWriter m) :=
  Avoids.zoom h fun _ _ he ↦ ⟨he.names, he.ordered⟩

/-- Changing the log, the table, the counter or the flag does not matter. -/
def AboutSegments (A : StorageEngine → Prop) : Prop :=
  ∀ e e', e'.manifest = e.manifest → e'.segments = e.segments → A e → A e'

/-- Whether an engine is proper depends on its manifest and its segments. -/
theorem aboutSegments_proper : AboutSegments (StorageEngine.Proper f) :=
  fun _ _ hmanifest hsegments he ↦
  ⟨hmanifest ▸ he.names, hsegments ▸ he.ordered⟩

section AboutSegments

variable {T : Territory Bytes UInt8} {A : StorageEngine → Prop}

theorem avoids_sync (hA : AboutSegments A) : Avoids T A
    (StorageEngine.guarded (StorageEngine.onWriter WalWriter.sync)) (fun _ ↦ A) A :=
  Avoids.onException (Avoids.zoom avoids_walSync fun _ _ ↦ hA _ _ rfl rfl) fun _ ↦ hA _ _ rfl rfl

/-- A put touches the log only. -/
theorem avoids_put (hT : T.Open walName) (hA : AboutSegments A) (series : SeriesKey)
    (sample : Sample) :
    Avoids T A (StorageEngine.put series sample) (fun _ ↦ A) A := by
  refine (Avoids.of_quiet quiet_ensureUsable _).bind fun _ ↦ ?_
  refine (Avoids.of_quiet (quiet_contains _ _) _).bind fun found ↦ ?_
  refine Avoids.onException (E := A) ?_ fun _ ↦ hA _ _ rfl rfl
  have happend : Avoids T A (StorageEngine.onWriter (WalWriter.append ⟨series, sample⟩))
      (fun _ ↦ A) A :=
    Avoids.zoom (avoids_append hT ⟨series, sample⟩) fun _ _ ↦ hA _ _ rfl rfl
  refine Avoids.bind (Q := fun _ ↦ A) happend fun _ ↦ ?_
  refine Avoids.bind (Q := fun _ ↦ A) (Avoids.update fun _ ↦ hA _ _ rfl rfl) fun _ ↦ ?_
  exact Avoids.ite (fun _ ↦ Avoids.pure fun _ ↦ id) fun _ ↦ Avoids.update fun _ ↦ hA _ _ rfl rfl

end AboutSegments

theorem minds_sync : Minds f (StorageEngine.guarded (StorageEngine.onWriter WalWriter.sync)) :=
  avoids_sync aboutSegments_proper

theorem minds_put (series : SeriesKey) (sample : Sample) :
    Minds f (StorageEngine.put series sample) :=
  avoids_put open_walName aboutSegments_proper series sample

/-- The next segment file has the name of a segment. -/
theorem exists_of_nextSegmentFilename {e : StorageEngine} {name : Bytes}
    (h : e.nextSegmentFilename = .ok name) : ∃ n, name = segmentFilename n := by
  rw [StorageEngine.nextSegmentFilename] at h
  split at h
  · cases h
  · exact ⟨_, (Except.ok.inj h).symm⟩

/-- The names of segments are never spared. -/
theorem not_spared_segmentFilename (n : ℕ) : ¬Spared f (segmentFilename n) :=
  not_spared (isStoreName_of_valid (validSegmentFilename_segmentFilename n))

/-- A flush writes a segment, the manifest and the log. -/
theorem minds_flush : Minds f StorageEngine.flush := by
  refine (Minds.of_quiet quiet_ensureUsable).bind fun _ ↦ ?_
  refine (Minds.of_quiet Quiet.state).bind fun _ ↦ Avoids.ite (fun _ ↦ minds_sync) fun _ ↦
    minds_guarded ?_
  refine Avoids.state.bind fun e ↦ Avoids.assume fun he ↦ ?_
  refine (Minds.of_quiet (Quiet.ofExcept _)).bind fun blocks ↦ ?_
  refine (Avoids.ofExcept _ _).bind fun filename ↦ Avoids.assume fun hname ↦ ?_
  obtain ⟨n, rfl⟩ := exists_of_nextSegmentFilename hname
  have hnames : ∀ name ∈ e.manifest.segmentFiles ++ [segmentFilename n],
      ¬Spared f (cString name) := by
    simpa [or_imp, forall_and] using ⟨he.names, not_spared_segmentFilename n⟩
  refine (avoids_writeSegmentFile n blocks _).bind fun _ ↦ ?_
  refine (avoids_openSegment _ _).bind fun reader ↦ Avoids.assume fun hreader ↦ ?_
  refine (avoids_storeManifest hnames _).bind fun _ ↦ ?_
  refine Avoids.bind (Q := fun _ ↦ StorageEngine.Proper f)
    (Avoids.update fun e' he' ↦ ⟨hnames, ?_⟩) fun _ ↦ ?_
  · simpa [or_imp, forall_and] using ⟨he'.ordered, hreader⟩
  · refine (minds_onWriter (avoids_reset open_walName)).bind fun _ ↦ ?_
    exact Avoids.update fun _ he ↦ ⟨he.names, he.ordered⟩

/-- A compaction writes a segment and the manifest, and removes what the old manifest lists. -/
theorem minds_compact : Minds f StorageEngine.compact := by
  refine (Minds.of_quiet quiet_ensureUsable).bind fun _ ↦ ?_
  refine (Minds.of_quiet Quiet.state).bind fun _ ↦ ?_
  refine Avoids.ite (fun _ ↦ Avoids.pure fun _ ↦ id) fun _ ↦ minds_guarded ?_
  refine Avoids.state.bind fun e ↦ Avoids.assume fun he ↦ ?_
  refine (Minds.of_quiet (quiet_mergeSegments _)).bind fun merged ↦ ?_
  refine Avoids.ite (fun _ ↦ Avoids.throw _ fun _ ↦ id) fun _ ↦ ?_
  refine (Minds.of_quiet (Quiet.ofExcept _)).bind fun blocks ↦ ?_
  refine (Avoids.ofExcept _ _).bind fun filename ↦ Avoids.assume fun hname ↦ ?_
  obtain ⟨n, rfl⟩ := exists_of_nextSegmentFilename hname
  have hnames : ∀ name ∈ [segmentFilename n], ¬Spared f (cString name) := by
    simpa using not_spared_segmentFilename (f := f) n
  refine (avoids_writeSegmentFile n blocks _).bind fun _ ↦ ?_
  refine (avoids_openSegment _ _).bind fun reader ↦ Avoids.assume fun hreader ↦ ?_
  refine (avoids_storeManifest hnames _).bind fun _ ↦ ?_
  refine Avoids.bind (Q := fun _ ↦ StorageEngine.Proper f)
    (Avoids.update fun e' _ ↦ ⟨hnames, by simpa using hreader⟩) fun _ ↦ ?_
  -- the old names are cut before they are removed
  exact Avoids.forM fun old hold ↦ Avoids.tryRemove (he.names old hold)
    (fun _ hg ↦ kept_erase hg _) _

/-- Every request touches files of the store only. -/
theorem minds_respond (r : Request) : Minds f r.respond := by
  refine Avoids.of_forget ?_
  rw [r.respond_forget]
  cases r with
  | put series sample => exact minds_put series sample
  | sync => exact (Minds.of_quiet quiet_ensureUsable).bind fun _ ↦ minds_sync
  | flush => exact minds_flush
  | compact => exact minds_compact
  | _ => exact Minds.of_quiet (Request.quiet rfl)

/-- **Under one lock** a call keeps to the files of the store. -/
theorem minds_advance (threshold : ℕ) (p : CallPhase) : Minds f (p.advance threshold) := by
  cases p with
  | entering r => exact (minds_respond r).bind fun _ ↦ Avoids.pure fun _ ↦ id
  | counting =>
    have hquiet : Quiet StorageEngine.memtableSampleCount :=
      quiet_ensureUsable.bind fun _ ↦ Quiet.state.bind fun _ ↦ Quiet.pure _
    exact (Minds.of_quiet hquiet).bind fun _ ↦ Avoids.pure fun _ ↦ id
  | flushing => exact minds_flush.bind fun _ ↦ Avoids.pure fun _ ↦ id
  | leaving result => exact Avoids.pure fun _ ↦ id

end Engine

/-! ### Processes -/

theorem avoids_takeLock {f : Directory} (held : Bool) :
    Avoids (storeTerritory f) (fun _ ↦ True) (takeLock held) (fun _ _ ↦ True) fun _ ↦ True := by
  refine Avoids.bind (Q := fun _ _ ↦ True) ?_ fun _ ↦ ?_
  · exact (Avoids.of_quiet (Quiet.probe _) _).bind fun _ ↦ Avoids.of_quiet (Quiet.probe _) _
  refine (Avoids.openAppend (open_of_isStoreName (.inl rfl) (by decide)) _ _).bind fun _ ↦ ?_
  exact Avoids.ite (fun _ ↦ Avoids.throw _ fun _ ↦ id) fun _ ↦ Avoids.of_quiet (Quiet.probe _) _

/-- The constructor touches files of the store only. -/
theorem avoids_constructEngine {f : Directory} (listing : Listing) (options : DatabaseOptions) :
    Avoids (storeTerritory f) (fun _ ↦ True) (constructEngine listing options)
      (fun db _ ↦ db.engine.Proper f) fun _ ↦ True :=
  (Avoids.rethrow (avoids_open listing _)).bind fun _ ↦ Avoids.pure fun _ h ↦ h

section Runs

variable {π ι : Type} [DecidableEq π] [DecidableEq ι] {f : Directory} {v : System π ι}

omit [DecidableEq ι] in
theorem System.process_moved_self (v : System π ι) (p : π) (f : Directory) (phase : ProcessPhase) :
    (v.moved p f phase).process p = phase := (System.process_moved v p f phase p).trans (if_pos rfl)

/-- Every open engine is proper. -/
def System.Proper {π ι : Type} (f : Directory) (v : System π ι) : Prop :=
  ∀ p db, v.process p = .opened db → db.engine.Proper f

omit [DecidableEq ι] in
/-- A process that moves is proper if its new phase is. -/
theorem System.Proper.moved (h : v.Proper f) {p : π} {g : Directory} {phase : ProcessPhase}
    (hphase : ∀ db, phase = .opened db → db.engine.Proper f) : (v.moved p g phase).Proper f := by
  intro q db hq
  rw [System.process_moved] at hq
  split at hq
  · exact hphase db hq
  · exact h q db hq

/-- **Every run**, on any directory, keeps the territory, and its engines are proper. -/
theorem Runs.minds (h : Runs f v) : (storeTerritory f).Left f v.files ∧ v.Proper f := by
  induction h with
  | start => exact ⟨.refl (kept_start f), fun _ _ h ↦ nomatch h⟩
  | lock options _ _ _ hrun ih =>
    exact ⟨ih.1.trans ((avoids_takeLock _).of_ok trivial ih.1.2 hrun).2,
      ih.2.moved fun _ h ↦ nomatch h⟩
  | lockFails _ _ _ hrun ih =>
    exact ⟨ih.1.trans ((avoids_takeLock _).of_error trivial ih.1.2 hrun).1,
      ih.2.moved fun _ h ↦ nomatch h⟩
  | construct _ _ hrun ih =>
    obtain ⟨hproper, hfiles⟩ := (avoids_constructEngine _ _).of_ok trivial ih.1.2 hrun
    refine ⟨ih.1.trans hfiles, ih.2.moved fun db hdb ↦ ?_⟩
    rwa [← ProcessPhase.opened.inj hdb]
  | constructFails _ _ hrun ih =>
    exact ⟨ih.1.trans ((avoids_constructEngine _ _).of_error trivial ih.1.2 hrun).1,
      ih.2.moved fun _ h ↦ nomatch h⟩
  | invoke _ _ _ _ ih => exact ih
  | @advance _ _ _ _ _ _ _ _ _ w _ hp _ _ hrun ih =>
    obtain ⟨hproper, hfiles⟩ := (minds_advance _ _).of_ok (ih.2 _ _ hp) ih.1.2 hrun
    refine ⟨ih.1.trans hfiles, ih.2.moved (g := w.files) fun db hdb ↦ ?_⟩
    rwa [← ProcessPhase.opened.inj hdb]
  | @throw _ _ _ _ _ _ _ _ _ w _ hp _ _ hrun ih =>
    obtain ⟨hfiles, hproper⟩ := (minds_advance _ _).of_error (ih.2 _ _ hp) ih.1.2 hrun
    refine ⟨ih.1.trans hfiles, ih.2.moved (g := w.files) fun db hdb ↦ ?_⟩
    rw [← ProcessPhase.opened.inj hdb]
    exact hproper ⟨_, rfl⟩
  | crash _ hp _ _ hrun ih =>
    exact ⟨ih.1.trans ((minds_advance _ _).of_error (ih.2 _ _ hp) ih.1.2 hrun).1,
      ih.2.moved (g := f) fun _ h ↦ nomatch h⟩
  | respond _ _ ih => exact ih
  | abort _ _ ih => exact ih
  | kill _ _ ih => exact ⟨ih.1, ih.2.moved (g := f) fun _ h ↦ nomatch h⟩
  | close _ _ _ ih => exact ⟨ih.1, ih.2.moved fun _ h ↦ nomatch h⟩

/-- **The store keeps to its files.** Any number of processes that share a directory, whatever it
held at first, leave every file alone that does not have a name of the store, unless the manifest
that was there at first lists a name with a NUL byte, and the operating system cuts that name to the
one of the file. -/
theorem foreign_untouched (h : Runs f v) : ∀ name, IsForeign name →
    (∀ state, loadManifestIn f = .ok state → ∀ listed ∈ state.segmentFiles, 0 ∈ listed →
      cString listed ≠ name) → v.files.find? name = f.find? name := by
  intro name hforeign hcut
  refine h.minds.1.1 name ⟨hforeign, ?_⟩
  rintro ⟨state, hload, listed, hmem, hname⟩
  by_cases hzero : 0 ∈ listed
  · exact hcut state hload listed hmem hzero hname
  · rw [cString_eq_self hzero] at hname
    rw [← hname] at hforeign
    exact hforeign (isStoreName_of_valid (valid_of_loadManifestIn hload listed hmem))

end Runs

/-! ### A small example -/

/-- A process opens a directory with one segment. -/
theorem OneSegment.exists_runs {f : Directory} {name : Bytes} {blocks : List SegmentBlock}
    (h : OneSegment f name blocks) (hlive : ¬MistakesLive [name])
    (hlock : cString name ≠ lockName) :
    ∃ (v : System Unit Unit) (db : Database), Runs f v ∧ v.process () = .opened db ∧
      db.engine.segments = [SegmentReader.of name blocks] ∧
        v.files.find? (cString name) = some (segmentBytes blocks) ∧
          ∀ n, n ≠ lockName → n ≠ walName → v.files.find? n = (cleaned [name] f).find? n := by
  obtain ⟨_, _, w, htake, -, hfiles⟩ :=
    ((@spec_takeLock [] f false).conseq (fun _ _ ↦ id) (fun _ _ _ ↦ id)
    (by
      rintro e s d ⟨hfail | ⟨hheld, -⟩, -⟩
      · exact not_failing_nil hfail
      · cases hheld) fun _ ↦ id).returns not_crashing_nil (w := ⟨⟨f, []⟩, []⟩) rfl
          (List.suffix_refl _)
  have hlocked := @Runs.lock Unit Unit _ _ f _ () false [] w ⟨.buffered, 0⟩ .start rfl
    (by simp [System.HeldElsewhere]) htake
  -- the lock is none of the files that recovery looks at
  have hone : OneSegment w.files name blocks := ⟨h.accepted, h.valid, h.short, h.pos, h.small,
    (hfiles _ (by decide)).trans h.manifest, (hfiles _ hlock).trans h.segment,
    (hfiles _ (by decide)).trans h.wal⟩
  obtain ⟨e, _, w', hopen, -, r, hrec, hrecovered, rfl⟩ :=
    ((@spec_open_finds Unit [] w.files () not_failing_nil .sorted .buffered).conseq (fun _ _ ↦ id)
      (fun _ _ _ ↦ id) (by
        rintro e s d ⟨-, he, -⟩
        rw [hone.recoverIn] at he
        cases he) fun _ ↦ id).returns not_crashing_nil (w := ⟨⟨w.files, []⟩, []⟩) ⟨rfl, rfl⟩
      (List.suffix_refl _)
  obtain rfl := Except.ok.inj (hone.recoverIn.symm.trans hrec)
  let e : StorageEngine := ⟨.empty, ⟨1, countSamples blocks, [name]⟩,
    [SegmentReader.of name blocks],
    ⟨.buffered, 0, false⟩, countSamples blocks, false⟩
  have hconstruct : constructEngine .sorted ⟨.buffered, 0⟩ ((), ⟨⟨w.files, []⟩, []⟩) =
      .ok ⟨e, 0⟩ ((), w') := by
    show (Act.rethrow DatabaseError.ofError (StorageEngine.open .sorted .buffered) >>= fun engine ↦
      pure (⟨engine, 0⟩ : Database)) ((), ⟨⟨w.files, []⟩, []⟩) = _
    rw [bind_apply, Act.rethrow, hopen]
    rfl
  refine ⟨_, _, .construct hlocked (System.process_moved_self _ _ _ _) hconstruct,
    System.process_moved_self _ _ _ _, rfl, ?_, fun n hn hn' ↦ ?_⟩
  · exact (hrecovered.segments hone.recoverIn hlive name (List.mem_singleton_self _)).trans
      hone.segment
  · show w'.files.find? n = _
    rw [hrecovered n, if_neg hn', hfiles n hn, cleaned, OrderedMap.find?_without]

/-- A directory with one segment, an orphan and a text file. -/
def sharedDirectory : Directory :=
  ((((OrderedMap.empty : Directory).insert manifestName
    (manifestBytes ⟨1, 4, [segmentFilename 1]⟩)).insert
      (segmentFilename 1) (segmentBytes storedBlocks)).insert
        (segmentFilename 9) [1]).insert (ascii "notes.txt") [1, 2]

theorem oneSegment_sharedDirectory :
    OneSegment sharedDirectory (segmentFilename 1) storedBlocks where
  accepted := segmentAccepts_storedBlocks
  valid := validSegmentFilename_segmentFilename 1
  short := by decide +kernel
  pos := by decide
  small := by decide
  manifest := by
    rw [sharedDirectory, OrderedMap.find?_insert, if_neg (by decide +kernel),
      OrderedMap.find?_insert, if_neg (by decide +kernel), OrderedMap.find?_insert,
      if_neg (by decide +kernel), OrderedMap.find?_insert, if_pos rfl]
    rfl
  segment := by
    rw [cString_segmentFilename, sharedDirectory, OrderedMap.find?_insert,
      if_neg (by decide +kernel), OrderedMap.find?_insert, if_neg (by decide +kernel),
      OrderedMap.find?_insert, if_pos rfl]
  wal := by
    rw [sharedDirectory, OrderedMap.find?_insert, if_neg (by decide +kernel),
      OrderedMap.find?_insert, if_neg (by decide +kernel), OrderedMap.find?_insert,
      if_neg (by decide +kernel), OrderedMap.find?_insert, if_neg (by decide +kernel)]
    rfl

/-- An opening of that directory removes the orphan, and not the text. -/
theorem foreign_untouched_notes : ∃ (v : System Unit Unit) (db : Database), Runs sharedDirectory v ∧
    v.process () = .opened db ∧ db.engine.segments.length = 1 ∧
      v.files.find? (segmentFilename 9) = none ∧
      v.files.find? (ascii "notes.txt") = some [1, 2] := by
  have hforeign : IsForeign (ascii "notes.txt") := by
    rintro (h | h | h | h | h | ⟨h, -⟩)
    all_goals exact absurd h (by decide +kernel)
  have hzero : 0 ∉ segmentFilename 1 := notMem_segmentFilename (Or.inl (by decide)) 1
  have hone := oneSegment_sharedDirectory
  have hlive : ¬MistakesLive [segmentFilename 1] :=
    not_mistakesLive (List.forall_mem_singleton.2 hzero) (List.forall_mem_singleton.2 hone.valid)
  obtain ⟨v, db, hruns, hopened, hsegments, -, hcleaned⟩ :=
    hone.exists_runs hlive (by decide +kernel)
  refine ⟨v, db, hruns, hopened, by rw [hsegments]; rfl, ?_, ?_⟩
  · rw [hcleaned _ (by decide +kernel) (by decide +kernel), cleaned, OrderedMap.find?_without,
      if_pos (by decide +kernel)]
  · have hnotes : sharedDirectory.find? (ascii "notes.txt") = some [1, 2] := by
      rw [sharedDirectory, OrderedMap.find?_insert, if_pos rfl]
    refine (foreign_untouched hruns _ hforeign fun state hload listed hlisted hnul ↦
      ?_).trans hnotes
    rw [hone.loadManifestIn] at hload
    rw [← Except.ok.inj hload] at hlisted
    exact absurd (List.mem_singleton.1 hlisted ▸ hnul) hzero

end ChronoStore
