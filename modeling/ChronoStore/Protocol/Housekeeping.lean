import ChronoStore.Engine.AnyDirectory
import ChronoStore.Protocol.Limits
import ChronoStore.Protocol.Ownership

/-!
# No segment file is left behind

A flush that is cut off leaves a segment that no manifest lists, or the temporary file of one; a
compaction that is cut off leaves the segments it has replaced. Recovery removes such files. From an
opening on in which no call failed, and for as long as no call fails, the segment files of the
directory are exactly those that the manifest lists, one for each segment that the engine has open
(`segment_files_accounted`), whatever failures and crashes came before.

The names that count as segment files are those that recovery would remove if the manifest listed
nothing. `Tidy` says that recovery would find nothing to remove, and every request keeps it unless
it poisons the engine. Nothing has to be known about the contents of the directory for that.
-/

namespace ChronoStore

open FaultyDisk

/-! ### Names -/

section Names

variable {live live' : List Bytes} {name : Bytes}

/-- The fewer names are listed the more are obsolete. -/
theorem isObsolete_mono (hsub : ∀ n ∈ live, n ∈ live') (h : isObsolete live' name = true) :
    isObsolete live name = true := by
  simp only [isObsolete, Bool.or_eq_true, Bool.and_eq_true, Bool.not_eq_true', List.contains_eq_mem,
    decide_eq_false_iff_not] at h ⊢
  exact h.imp_left fun horphan ↦ ⟨horphan.1, fun hmem ↦ horphan.2 (hsub name hmem)⟩

/-- What looks like a segment file and is not listed is obsolete. -/
theorem isObsolete_of_notMem (h : isObsolete live name = true) (hdead : name ∉ live') :
    isObsolete live' name = true := by
  simp only [isObsolete, Bool.or_eq_true, Bool.and_eq_true, Bool.not_eq_true', List.contains_eq_mem,
    decide_eq_false_iff_not] at h ⊢
  exact h.imp_left fun horphan ↦ ⟨horphan.1, hdead⟩

theorem isObsolete_segmentFilename (n : ℕ) : isObsolete [] (segmentFilename n) = true := by
  have hvalid := validSegmentFilename_segmentFilename n
  have hprefix := List.isPrefixOf_iff_prefix.2 (isSegmentName_segmentFilename n)
  simp only [validSegmentFilename, decide_eq_true_eq] at hvalid
  simp [isObsolete, hvalid.2.2.2, hprefix]

end Names

/-- Recovery would find nothing to remove. -/
def Tidy (live : List Bytes) (g : Directory) : Prop :=
  ∀ name, isObsolete live name = true → g.find? name = none

/-- The bytes are under the name, the temporary name is free, and nothing else has changed. -/
def Renewed (name bytes : Bytes) (f g : Directory) : Prop :=
  ∀ n, g.find? n = if n = name then some bytes else if n = temporaryName name then none
    else f.find? n

/-- A file with a name that recovery keeps may be written anew. -/
theorem Tidy.renewed {live live' : List Bytes} {f g : Directory} {name bytes : Bytes}
    (h : Tidy live f)
    (hg : Renewed name bytes f g) (hname : isObsolete live' name = false)
    (hsub : ∀ n ∈ live, n ∈ live') : Tidy live' g := by
  intro n hn
  have hne : n ≠ name := fun heq ↦ by rw [heq, hname] at hn; cases hn
  rw [hg, if_neg hne]
  split
  · rfl
  · exact h n (isObsolete_mono hsub hn)

/-- A directory is as tidy as one that agrees with it on the names of segments. -/
theorem Tidy.of_agreeOn {live : List Bytes} {f g : Directory} (h : Tidy live f)
    (hg : AgreeOn (fun n ↦ isObsolete [] n = true) f g) : Tidy live g := fun name hname ↦
  (hg name (isObsolete_mono (by simp) hname)).trans (h name hname)

/-- Recovery leaves a tidy directory. -/
theorem Recovered.tidy {f g : Directory} {r : RecoveryState} (h : Recovered f r g) :
    Tidy r.manifest.segmentFiles g := fun name hname ↦ by rw [h, if_pos hname]

/-! ### Writing files -/

section Files

variable {σ : Type} {S : List Event} {f : Directory} {s₀ : σ} (hfail : ¬Failing S)

include hfail

/-- A call that only looks, where no call fails. -/
theorem Spec.finds_probe {onFail : Error} {E : Error → σ → Disk Bytes UInt8 → Prop} :
    Spec S (Finds f s₀) (Act.probe onFail) (fun _ ↦ Finds f s₀) E (fun _ ↦ True) :=
  FaultyDisk.Spec.probe (fun _ _ hS ↦ absurd hS hfail) fun _ _ _ ↦ trivial

/-- **What an atomic write does**, where no call fails. -/
theorem spec_atomicWriteFile_finds (name bytes : Bytes) :
    Spec S (Finds f s₀) (atomicWriteFile name bytes)
      (fun _ s d ↦ s = s₀ ∧ Renewed name bytes f d.files)
      (fun _ _ _ ↦ True) (fun _ ↦ True) := by
  have hwrite := FaultyDisk.Spec.writeAll (S := S) (temporaryName name) bytes
    (Error.runtimeError "failed to write temporary file")
    (Error.runtimeError "failed to write temporary file")
    (fun done ↦ Finds (f.insert (temporaryName name) done) s₀) (by
      rintro done piece s d - ⟨rfl, hd⟩
      refine ⟨rfl, OrderedMap.ext_find? fun k ↦ ?_⟩
      rw [Disk.perform_files, Step.apply, hd, OrderedMap.find?_insert, if_pos rfl]
      dsimp only
      rw [OrderedMap.find?_insert, OrderedMap.find?_insert, OrderedMap.find?_insert]
      split <;> rfl)
  have hsync : Spec S (Finds (f.insert (temporaryName name) bytes) s₀)
    (syncFile (temporaryName name))
      (fun _ ↦ Finds (f.insert (temporaryName name) bytes) s₀) (fun _ _ _ ↦ True) (fun _ ↦ True) :=
    Spec.bind (Spec.finds_probe hfail) fun _ ↦ Spec.bind (Spec.performs hfail) fun _ ↦
      Spec.finds_probe hfail
  have hmoved : ∀ g, g = (Step.rename (temporaryName name) name).apply
      (f.insert (temporaryName name) bytes) → Renewed name bytes f g := by
    rintro g rfl n
    rw [Step.apply, OrderedMap.find?_insert, if_pos rfl]
    dsimp only
    rw [OrderedMap.find?_insert, OrderedMap.find?_erase, OrderedMap.find?_insert]
    split
    · rfl
    · split <;> rfl
  refine Spec.bind (Spec.performs hfail) fun _ ↦ Spec.ite (fun _ ↦ Spec.throw fun _ _ _ ↦ trivial)
    fun _ ↦ ?_
  refine Spec.bind (hwrite.conseq (fun _ _ ↦ id) (fun _ _ _ ↦ id) (fun _ _ _ _ ↦ trivial)
    fun _ _ ↦ trivial) fun _ ↦ Spec.bind hsync fun _ ↦ ?_
  refine Spec.bind (Spec.performs hfail) fun _ ↦ Spec.bind (Spec.finds_probe hfail) fun _ ↦
    Spec.bind (Spec.performs hfail) fun _ ↦ (Spec.finds_probe hfail).post fun _ s d hd ↦
      ⟨hd.1, hmoved _ hd.2⟩

end Files

/-! ### The engine -/

section Engine

variable {S : List Event} (hfail : ¬Failing S)

/-- The directory is tidy for what the manifest of the engine lists. -/
def TidyFor (e : StorageEngine) (d : Disk Bytes UInt8) : Prop :=
  Tidy e.manifest.segmentFiles d.files

/-- A quiet program that returns leaves everything as it is. -/
theorem spec_quiet {α σ : Type} {A : σ → Disk Bytes UInt8 → Prop} {m : Prog σ α} (h : Quiet m) :
    Spec S A m (fun _ ↦ A) (fun _ _ _ ↦ True) (fun _ ↦ True) :=
  (h.spec A).conseq (fun _ _ ↦ id) (fun _ _ _ ↦ id) (fun _ _ _ _ ↦ trivial) fun _ _ ↦ trivial

/-- A request that touches no segment file, and leaves the manifest of the engine. -/
theorem spec_tidy_of_avoids {m : Prog StorageEngine Unit}
    (h : ∀ manifest, Avoids (.ofNames fun n ↦ isObsolete [] n = true)
      (fun e ↦ e.manifest = manifest) m
      (fun _ e ↦ e.manifest = manifest) fun e ↦ e.manifest = manifest) :
    Spec S TidyFor m (fun _ ↦ TidyFor) (fun _ ↦ TidyFor) (fun _ ↦ True) := by
  intro e w htidy hsuf
  have hends := h e.manifest S w.files e w ⟨rfl, .refl trivial⟩ hsuf
  have hkeeps : ∀ (e' : StorageEngine) (d : Disk Bytes UInt8), e'.manifest = e.manifest ∧
      (Territory.ofNames fun n ↦ isObsolete [] n = true).Left w.files d.files → TidyFor e' d := by
    rintro e' d ⟨hmanifest, hleft⟩
    rw [TidyFor, hmanifest]
    exact htidy.of_agreeOn (Territory.left_ofNames.1 hleft)
  revert hends
  rcases m (e, w) with ⟨_, e', w'⟩ | ⟨err | -, e', w'⟩
  · exact fun hends ↦ ⟨hkeeps e' _ hends.1, hends.2⟩
  · exact fun hends ↦ hkeeps e' _ hends
  · exact fun hends ↦ ⟨hends.1, trivial⟩

theorem aboutSegments_manifest (manifest : ManifestState) :
    AboutSegments fun e ↦ e.manifest = manifest := fun _ _ hmanifest _ he ↦ hmanifest.trans he

theorem open_ofNames_walName :
    (Territory.ofNames fun n ↦ isObsolete [] n = true : Territory Bytes UInt8).Open walName := by
  rw [Territory.open_ofNames, isObsolete_walName]
  exact Bool.false_ne_true

/-- The names that the engine lists are handed over whole. -/
def StorageEngine.ListsWhole (e : StorageEngine) : Prop :=
  ∀ name ∈ e.manifest.segmentFiles, 0 ∉ name

include hfail

/-- Writing the next segment file, as one that will be listed. -/
theorem spec_tidy_writeSegmentFile {live : List Bytes} (n : ℕ) (blocks : List SegmentBlock) :
    Spec S (fun (_ : StorageEngine) d ↦ Tidy live d.files)
      (writeSegmentFile (segmentFilename n) blocks)
      (fun _ _ d ↦ Tidy (live ++ [segmentFilename n]) d.files) (fun _ _ _ ↦ True)
      (fun _ ↦ True) := by
  refine Spec.bind (spec_quiet (Quiet.ofExcept _)) fun _ ↦
    Spec.bind (Q := fun _ _ d ↦ Tidy (live ++ [segmentFilename n]) d.files) ?_ fun _ ↦
      Spec.pure fun _ _ ↦ id
  intro e w htidy hsuf
  refine (@spec_atomicWriteFile_finds _ S w.files e hfail _ _).conseq (fun _ _ ↦ id) ?_
    (fun _ _ _ ↦ id) (fun _ ↦ id) e w ⟨rfl, rfl⟩ hsuf
  rintro _ e' d ⟨-, hrenewed⟩
  exact htidy.renewed hrenewed (isObsolete_of_mem (by simp)
    (validSegmentFilename_segmentFilename n))
    fun _ ↦ List.mem_append_left _

/-- Storing a manifest leaves the directory as tidy as it was. -/
theorem spec_tidy_storeManifest {live : List Bytes} (state : ManifestState) :
    Spec S (fun (_ : StorageEngine) d ↦ Tidy live d.files) (storeManifest state)
      (fun _ _ d ↦ Tidy live d.files) (fun _ _ _ ↦ True) (fun _ ↦ True) := by
  refine Spec.bind (spec_quiet (Quiet.ofExcept _)) fun bytes ↦ ?_
  intro e w htidy hsuf
  refine (@spec_atomicWriteFile_finds _ S w.files e hfail _ _).conseq (fun _ _ ↦ id) ?_
    (fun _ _ _ ↦ id) (fun _ ↦ id) e w ⟨rfl, rfl⟩ hsuf
  rintro _ e' d ⟨-, hrenewed⟩
  exact htidy.renewed hrenewed (isObsolete_manifestName _) fun _ ↦ id

/-- The file that a publication writes is listed by the manifest that it stores. -/
theorem spec_tidy_publishMemtable :
    Spec S TidyFor StorageEngine.publishMemtable (fun _ ↦ TidyFor) (fun _ _ _ ↦ True)
      (fun _ ↦ True) := by
  refine Spec.bind (Spec.state (R := fun e _ d ↦ TidyFor e d) fun _ _ ↦ id) fun e ↦
    Spec.bind (spec_quiet (Quiet.ofExcept _)) fun blocks ↦
      Spec.bind (Q := fun name _ d ↦ (∃ n, name = segmentFilename n) ∧ TidyFor e d)
        (Spec.ofExcept (fun _ _ _ hname htidy ↦ ⟨exists_of_nextSegmentFilename hname, htidy⟩)
          fun _ _ _ _ _ ↦ trivial) fun name ↦ Spec.assume ?_
  rintro ⟨n, rfl⟩
  refine Spec.bind (spec_tidy_writeSegmentFile hfail n blocks) fun _ ↦
    Spec.bind (spec_quiet (quiet_openSegment _)) fun reader ↦
      Spec.bind (spec_tidy_storeManifest hfail _) fun _ ↦
        Spec.bind (Q := fun _ ↦ TidyFor) (Spec.update fun _ _ ↦ id) fun _ ↦
          Spec.bind (Q := fun _ ↦ TidyFor) ?_ fun _ ↦ Spec.update fun _ _ ↦ id
  refine (spec_tidy_of_avoids fun manifest ↦ ?_).conseq (fun _ _ ↦ id) (fun _ _ _ ↦ id)
    (fun _ _ _ _ ↦ trivial) fun _ ↦ id
  exact Avoids.zoom (avoids_reset open_ofNames_walName) fun _ _ ↦ id

/-- The files that a compaction replaces are removed one by one. -/
theorem spec_tidy_publishCompacted :
    Spec S (fun e d ↦ e.ListsWhole ∧ TidyFor e d) StorageEngine.publishCompacted (fun _ ↦ TidyFor)
      (fun _ _ _ ↦ True) (fun _ ↦ True) := by
  refine Spec.bind (Spec.state (R := fun e _ d ↦ e.ListsWhole ∧ TidyFor e d) fun _ _ ↦ id) fun e ↦
    Spec.assume fun hwhole ↦ ?_
  refine Spec.bind (spec_quiet (quiet_mergeSegments _)) fun merged ↦ ?_
  refine Spec.ite (fun _ ↦ Spec.throw fun _ _ _ ↦ trivial) fun _ ↦ ?_
  refine Spec.bind (spec_quiet (Quiet.ofExcept _)) fun blocks ↦ ?_
  refine Spec.bind (Q := fun name _ d ↦ (∃ n, name = segmentFilename n) ∧ TidyFor e d)
    (Spec.ofExcept (fun _ _ _ hname htidy ↦ ⟨exists_of_nextSegmentFilename hname, htidy⟩)
      fun _ _ _ _ _ ↦ trivial) fun name ↦ Spec.assume ?_
  rintro ⟨n, rfl⟩
  -- the engine lists the new file alone, and of the old ones those visited are gone
  let Removed (done : List Bytes) (e' : StorageEngine) (d : Disk Bytes UInt8) : Prop :=
    e'.manifest.segmentFiles = [segmentFilename n] ∧ ∀ name,
      isObsolete [segmentFilename n] name = true → (name ∈ done ∨ name ∉ e.manifest.segmentFiles) →
        d.files.find? name = none
  refine Spec.bind (spec_tidy_writeSegmentFile hfail n blocks) fun _ ↦
    Spec.bind (spec_quiet (quiet_openSegment _)) fun reader ↦
      Spec.bind (spec_tidy_storeManifest hfail _) fun _ ↦
        Spec.bind (Q := fun _ ↦ Removed []) (Spec.update fun e' d htidy ↦ ⟨rfl, ?_⟩) fun _ ↦ ?_
  · rintro name hname (hmem | hdead)
    · cases hmem
    · refine htidy name (isObsolete_of_notMem hname ?_)
      rw [List.mem_append, not_or]
      refine ⟨hdead, fun hmem ↦ ?_⟩
      rw [isObsolete_of_mem hmem
        (List.mem_singleton.1 hmem ▸ validSegmentFilename_segmentFilename n)] at hname
      cases hname
  refine (Spec.forM Removed fun done old rest hold ↦ ?_).post fun _ e' d hd ↦ ?_
  · have hmem : old ∈ e.manifest.segmentFiles := by
      rw [hold]
      simp
    rw [cString_eq_self (hwhole old hmem)]
    refine Spec.tryStep ?_ (fun _ _ _ hS ↦ absurd hS hfail) fun _ _ _ _ ↦ trivial
    rintro e' d ⟨hlive, hgone⟩
    refine ⟨hlive, fun name hname hvisited ↦ ?_⟩
    rw [Disk.perform_files, Step.apply, OrderedMap.find?_erase]
    split
    · rfl
    · rename_i hne
      refine hgone name hname (hvisited.imp_left fun hmem ↦ ?_)
      exact (List.mem_append.1 hmem).resolve_right fun hlast ↦ hne (List.mem_singleton.1 hlast)
  · obtain ⟨hlive, hgone⟩ := hd
    intro name hname
    rw [hlive] at hname
    exact hgone name hname (em _)

/-- What a request keeps: an engine that has not failed finds its directory tidy. -/
def KeptTidy (e : StorageEngine) (d : Disk Bytes UInt8) : Prop := e.failed = false → TidyFor e d

omit hfail in
/-- A handler that poisons the engine owes nothing. -/
theorem spec_tidy_guarded {A : StorageEngine → Disk Bytes UInt8 → Prop}
    {m : Prog StorageEngine Unit}
    (h : Spec S A m (fun _ ↦ TidyFor) (fun _ _ _ ↦ True) (fun _ ↦ True)) :
    Spec S A (StorageEngine.guarded m) (fun _ ↦ TidyFor) (fun _ ↦ KeptTidy) (fun _ ↦ True) :=
  Spec.onException (h.conseq (fun _ _ ↦ id) (fun _ _ _ ↦ id)
    (fun _ _ _ _ (hpoisoned : true = false) ↦ nomatch hpoisoned) fun _ ↦ id)

/-- **A request keeps the directory tidy**, or poisons the engine. -/
theorem spec_tidy_request (r : Request) :
    Spec S (fun e d ↦ (e.failed = false → e.ListsWhole) ∧ KeptTidy e d) r.run (fun _ ↦ KeptTidy)
      (fun _ ↦ KeptTidy) (fun _ ↦ True) := by
  have husable : Spec S TidyFor StorageEngine.ensureUsable (fun _ ↦ TidyFor) (fun _ ↦ KeptTidy)
      (fun _ ↦ True) := (quiet_ensureUsable.spec _).conseq (fun _ _ ↦ id) (fun _ _ _ ↦ id)
    (fun _ _ _ htidy _ ↦ htidy) fun _ _ ↦ trivial
  have hstate : Spec S TidyFor (Act.state : Prog StorageEngine StorageEngine) (fun _ ↦ TidyFor)
      (fun _ ↦ KeptTidy) (fun _ ↦ True) := Spec.state fun _ _ ↦ id
  have hsync : Spec S TidyFor (StorageEngine.guarded (StorageEngine.onWriter WalWriter.sync))
      (fun _ ↦ TidyFor) (fun _ ↦ KeptTidy) (fun _ ↦ True) :=
    (spec_tidy_of_avoids fun manifest ↦ avoids_sync (aboutSegments_manifest manifest)).conseq
      (fun _ _ ↦ id) (fun _ _ _ ↦ id) (fun _ _ _ htidy _ ↦ htidy) fun _ ↦ id
  have hrun : Spec S (fun e d ↦ e.ListsWhole ∧ TidyFor e d) r.run (fun _ ↦ TidyFor)
    (fun _ ↦ KeptTidy)
      (fun _ ↦ True) := by
    by_cases hcompact : r = .compact
    · subst hcompact
      have huse : Spec S (fun e d ↦ e.ListsWhole ∧ TidyFor e d) StorageEngine.ensureUsable
          (fun _ e d ↦ e.ListsWhole ∧ TidyFor e d) (fun _ ↦ KeptTidy) (fun _ ↦ True) :=
        (quiet_ensureUsable.spec _).conseq (fun _ _ ↦ id) (fun _ _ _ ↦ id) (fun _ _ _ h _ ↦ h.2)
          fun _ _ ↦ trivial
      refine Spec.bind huse fun _ ↦ ?_
      refine Spec.bind (Spec.state (R := fun _ e d ↦ e.ListsWhole ∧ TidyFor e d) fun _ _ ↦ id)
        fun _ ↦ ?_
      exact Spec.ite (fun _ ↦ Spec.pure fun _ _ h ↦ h.2) fun _ ↦
        spec_tidy_guarded (spec_tidy_publishCompacted hfail)
    refine Spec.pre ?_ fun e d h ↦ h.2
    cases r with
    | put series sample =>
      exact (spec_tidy_of_avoids fun manifest ↦ avoids_put open_ofNames_walName
        (aboutSegments_manifest manifest) series sample).conseq (fun _ _ ↦ id) (fun _ _ _ ↦ id)
          (fun _ _ _ htidy _ ↦ htidy) fun _ ↦ id
    | sync => exact Spec.bind husable fun _ ↦ hsync
    | flush =>
      exact Spec.bind husable fun _ ↦ Spec.bind hstate fun _ ↦ Spec.ite (fun _ ↦ hsync) fun _ ↦
        spec_tidy_guarded (spec_tidy_publishMemtable hfail)
    | compact => exact absurd rfl hcompact
    | _ =>
      exact ((Request.quiet rfl).spec TidyFor).conseq (fun _ _ ↦ id) (fun _ _ _ ↦ id)
        (fun _ _ _ htidy _ ↦ htidy) fun _ _ ↦ trivial
  intro e w hkept hsuf
  by_cases hfailed : e.failed = true
  · rw [Request.run_of_failed hfailed]
    exact hkept.2
  · have hkeeps : Spec S (fun e d ↦ e.ListsWhole ∧ TidyFor e d) r.run (fun _ ↦ KeptTidy)
        (fun _ ↦ KeptTidy) (fun _ ↦ True) := hrun.post fun _ _ _ htidy _ ↦ htidy
    have husable : e.failed = false := Bool.not_eq_true _ ▸ hfailed
    exact hkeeps e w ⟨hkept.1 husable, hkept.2 husable⟩ hsuf

end Engine

/-! ### Sessions -/

section Sessions

variable {f : Directory} {before after : List Entry} {x : Entry} {m m' : Machine}

/-- The directory of a machine is tidy for its engine, if it has a usable one. -/
def Machine.Tidy (m : Machine) : Prop := ∀ e, m.engine = some e → KeptTidy e m.disk

/-- Opening makes the directory tidy. -/
theorem Machine.tidy_of_open {sched : List Event} {listing : Listing} {durability : WalDurability}
    {outcome : Outcome} (hfail : ¬Failing sched)
    (hstep : m.perform sched (.open listing durability) = some (outcome, m')) : m'.Tidy := by
  have hopen := @spec_open_finds _ sched m.disk.files () hfail listing durability ()
    ⟨m.disk, sched⟩ ⟨rfl, rfl⟩ (List.suffix_refl _)
  rw [Machine.perform] at hstep
  revert hopen hstep
  rcases StorageEngine.open listing durability ((), ⟨m.disk, sched⟩) with
    ⟨e, s, w⟩ | ⟨err | -, s, w⟩
  · rintro hstep ⟨⟨-, r, -, hrecovered, rfl⟩, -⟩
    obtain ⟨-, rfl⟩ := Prod.mk.inj (Option.some.inj hstep)
    intro e he _
    obtain rfl := Option.some.inj he
    exact hrecovered.tidy
  all_goals
    intro hstep _
    obtain ⟨-, rfl⟩ := Prod.mk.inj (Option.some.inj hstep)
    intro e he
    cases he

/-- A call keeps the directory tidy. -/
theorem Machine.Tidy.perform (h : m.Tidy)
    (hwhole : ∀ e, m.engine = some e → e.failed = false → e.ListsWhole) {sched : List Event}
    {call : Call}
    {outcome : Outcome} (hfail : ¬Failing sched)
    (hstep : m.perform sched call = some (outcome, m')) : m'.Tidy := by
  cases call with
  | «open» listing durability => exact Machine.tidy_of_open hfail hstep
  | request r =>
    rw [Machine.perform] at hstep
    obtain ⟨e, he, hstep⟩ := Option.map_eq_some_iff.1 hstep
    have hrun := spec_tidy_request hfail r e ⟨m.disk, sched⟩ ⟨hwhole e he, h e he⟩
      (List.suffix_refl _)
    revert hrun hstep
    rcases r.run (e, ⟨m.disk, sched⟩) with ⟨_, e', w⟩ | ⟨err | -, e', w⟩
    · intro hstep hrun e'' he''
      obtain ⟨-, rfl⟩ := Prod.mk.inj hstep
      exact Option.some.inj he'' ▸ hrun.1
    · intro hstep hrun e'' he''
      obtain ⟨-, rfl⟩ := Prod.mk.inj hstep
      exact Option.some.inj he'' ▸ hrun
    · intro hstep _ e'' he''
      obtain ⟨-, rfl⟩ := Prod.mk.inj hstep
      cases he''

/-- The names that a store has given to its segments hold no NUL bytes. -/
theorem Session.listsWhole (hf : Fresh f) {history : List Entry} (h : Session f history m)
    {e : StorageEngine} (he : m.engine = some e) (hfailed : e.failed = false) : e.ListsWhole := by
  obtain ⟨_, _, c, _, -, -, rfl, -⟩ := h.usable hf he hfailed
  intro name hname
  obtain ⟨l, -, rfl⟩ := List.mem_map.1 hname
  exact notMem_segmentFilename (Or.inl (by decide)) l.number

/-- **From an opening on** the directory is tidy. -/
theorem Session.tidy (hf : Fresh f) (h : Session f (before ++ x :: after) m) {listing : Listing}
    {durability : WalDurability} (hx : x.call = .open listing durability)
    (hfail : ∀ y ∈ x :: after, ¬Failing y.sched) : m.Tidy := by
  generalize hwhole : before ++ x :: after = history at h
  induction h generalizing after with
  | start => simp at hwhole
  | @call history m₁ m₂ y hsession hstep ih =>
    rcases List.eq_nil_or_concat after with rfl | ⟨rest, last, rfl⟩
    · obtain ⟨-, hxy⟩ := List.append_inj' hwhole rfl
      obtain rfl : x = y := by simpa using hxy
      rw [hx] at hstep
      exact Machine.tidy_of_open (hfail x List.mem_cons_self) hstep
    · rw [List.concat_eq_append] at hwhole hfail
      rw [← List.cons_append, ← List.append_assoc] at hwhole
      obtain ⟨hhistory, hlast⟩ := List.append_inj' hwhole rfl
      obtain rfl : last = y := by simpa using hlast
      rw [← List.cons_append] at hfail
      exact (ih (fun z hz ↦ hfail z (List.mem_append_left _ hz)) hhistory).perform
        (fun e he ↦ hsession.listsWhole hf he)
        (hfail last (List.mem_append_right _ List.mem_cons_self)) hstep

/-- **Every segment file is accounted for.** -/
theorem segment_files_accounted (hf : Fresh f) (h : Session f (before ++ x :: after) m)
    {listing : Listing} {durability : WalDurability} (hx : x.call = .open listing durability)
    (hfail : ∀ y ∈ x :: after, ¬Failing y.sched) {e : StorageEngine} (he : m.engine = some e)
    (hfailed : e.failed = false) :
    (m.disk.files.keys.filter (isObsolete [])).Perm e.manifest.segmentFiles ∧
      e.manifest.segmentFiles = e.segments.map SegmentReader.path := by
  have htidy := h.tidy hf hx hfail e he hfailed
  obtain ⟨puts, mode, c, log, -, -, rfl, hat⟩ := h.usable hf he hfailed
  refine ⟨(List.perm_ext_iff_of_nodup ?_ c.names_nodup).2 fun name ↦ ?_, ?_⟩
  · exact List.Nodup.filter _ (m.disk.files.keys_sorted.imp fun hlt ↦ ne_of_lt hlt)
  · rw [List.mem_filter, ← OrderedMap.find?_isSome_iff]
    constructor
    · rintro ⟨hthere, hlooks⟩
      by_contra hdead
      rw [htidy name (isObsolete_of_notMem hlooks hdead)] at hthere
      cases hthere
    · intro hname
      obtain ⟨l, hl, rfl⟩ := List.mem_map.1 hname
      refine ⟨?_, isObsolete_segmentFilename _⟩
      rw [hat.holds.layer_files l hl]
      rfl
  · show c.layers.map Layer.name = (c.layers.map Layer.reader).map SegmentReader.path
    rw [List.map_map]
    rfl

/-- Two flushes make two segment files. -/
theorem segment_files_accounted_cpu : ∃ e d,
    Session OrderedMap.empty ([openCall] ++ [cpuRecord, cpuRecord].flatMap
      fun r ↦ [putCall r, flushCall]) ⟨some e, d⟩ ∧
    (d.files.keys.filter (isObsolete [])).Perm e.manifest.segmentFiles ∧
      e.manifest.segmentFiles = e.segments.map SegmentReader.path := by
  obtain ⟨e, d, durability, hsession, husable, -, -, -⟩ :=
    exists_rounds [cpuRecord, cpuRecord] (by
      intro r hr
      obtain rfl : r = cpuRecord := by simpa using hr
      decide +kernel) (by decide +kernel) (by decide)
  exact ⟨e, d, hsession, @segment_files_accounted _ [] _ openCall _ fresh_empty hsession _ _ rfl
    (by simp [openCall, putCall, flushCall, Failing]) e rfl husable.failed_eq⟩

end Sessions

end ChronoStore
