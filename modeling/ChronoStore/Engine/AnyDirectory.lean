import ChronoStore.Engine.Inspection
import ChronoStore.Engine.WalRepair

/-!
# Recovery of a directory of any content

`StorageEngine::recover` where nothing is known about the files and no call fails. It computes
`recoverIn`; what it changes is the clean-up of names that no manifest lists, and, only after every
check has passed, the log: a missing one is created, a tail is cut off. So an exception leaves
everything behind that a repair by hand would need (`Spares`), and what a successful recovery leaves
behind (`Recovered`) recovers again, to the same state and without any change.
-/

namespace ChronoStore

open FaultyDisk

/-! ### Which names are looked at -/

section Congruence

variable {f g : Directory} {live : List Bytes}

/-- The manifest depends on its own file only. -/
theorem loadManifestIn_congr (h : g.find? manifestName = f.find? manifestName) :
    loadManifestIn g = loadManifestIn f := by
  rw [loadManifestIn, loadManifestIn, h]

/-- The readers depend on the files that are opened. -/
theorem openSegmentsIn_congr
    (h : ∀ name ∈ live, g.find? (cString name) = f.find? (cString name)) :
    openSegmentsIn g live = openSegmentsIn f live := by
  have main : ∀ (rest : List Bytes) (acc : List SegmentReader × ℕ), (∀ name ∈ rest, name ∈ live) →
      rest.foldlM (fun (acc : List SegmentReader × ℕ) filename ↦ do
        let reader ← openSegmentIn g filename
        return (acc.1 ++ [reader], addU64 acc.2 reader.sampleCount)) acc =
      rest.foldlM (fun (acc : List SegmentReader × ℕ) filename ↦ do
        let reader ← openSegmentIn f filename
        return (acc.1 ++ [reader], addU64 acc.2 reader.sampleCount)) acc := by
    intro rest
    induction rest with
    | nil => intro acc _; rfl
    | cons name rest ih =>
      intro acc hrest
      have hopen : openSegmentIn g name = openSegmentIn f name := by
        rw [openSegmentIn, openSegmentIn, h name (hrest name List.mem_cons_self)]
      rw [List.foldlM_cons, List.foldlM_cons, hopen]
      exact bind_congr fun acc' ↦ ih acc' fun n hn ↦ hrest n (List.mem_cons_of_mem _ hn)
  exact main live ([], 0) fun _ h ↦ h

theorem getIn_congr {segments : List SegmentReader}
    (h : ∀ segment ∈ segments, g.find? (cString segment.path) = f.find? (cString segment.path))
    (series : SeriesKey) (t : Timestamp) :
    getIn g series t segments = getIn f series t segments := by
  induction segments with
  | nil => rfl
  | cons segment older ih =>
    rw [getIn, getIn, h segment List.mem_cons_self,
      ih fun s hs ↦ h s (List.mem_cons_of_mem _ hs)]

theorem replayRecordIn_congr {segments : List SegmentReader}
    (h : ∀ segment ∈ segments, g.find? (cString segment.path) = f.find? (cString segment.path)) :
    replayRecordIn g segments = replayRecordIn f segments := by
  funext acc record
  have hget := getIn_congr (fun s hs ↦ h s (List.mem_reverse.1 hs))
    record.series record.sample.timestamp
  rw [replayRecordIn, replayRecordIn, containsIn, containsIn, hget]

/-- A reader keeps the name of the file it was opened on. -/
theorem path_of_openSegmentIn {name : Bytes} {reader : SegmentReader}
    (h : openSegmentIn f name = .ok reader) : reader.path = name := by
  obtain ⟨_, _, -, hopened⟩ := SegmentReader.of_open h
  exact hopened.path_eq

/-- **The readers of recovery** are those of the listed segments. -/
theorem of_openSegmentsIn {names : List Bytes} {segments : List SegmentReader} {physical : ℕ}
    (h : openSegmentsIn f names = .ok (segments, physical)) :
    List.Forall₂ (fun name reader ↦ openSegmentIn f name = .ok reader) names segments := by
  have main : ∀ (rest : List Bytes) (acc acc' : List SegmentReader × ℕ),
      rest.foldlM (fun (acc : List SegmentReader × ℕ) filename ↦ do
        let reader ← openSegmentIn f filename
        return (acc.1 ++ [reader], addU64 acc.2 reader.sampleCount)) acc = .ok acc' →
      ∃ readers, acc'.1 = acc.1 ++ readers ∧
        List.Forall₂ (fun name reader ↦ openSegmentIn f name = .ok reader) rest readers := by
    intro rest
    induction rest with
    | nil =>
      intro acc acc' h
      obtain rfl : acc = acc' := Except.ok.inj h
      exact ⟨[], (List.append_nil _).symm, .nil⟩
    | cons name rest ih =>
      intro acc acc' h
      rw [List.foldlM_cons] at h
      obtain ⟨next, hnext, h⟩ := bind_eq_ok.1 h
      obtain ⟨reader, hreader, hnext⟩ := bind_eq_ok.1 hnext
      obtain rfl := Except.ok.inj hnext
      obtain ⟨readers, heq, hall⟩ := ih _ _ h
      exact ⟨reader :: readers, by rw [heq, List.append_assoc]; rfl, .cons hreader hall⟩
  obtain ⟨readers, heq, hall⟩ := main names ([], 0) (segments, physical) h
  rw [show segments = readers from heq]
  exact hall

/-- A reader has one of the names that were to be opened. -/
theorem path_mem_of_openSegmentsIn {names : List Bytes} {segments : List SegmentReader}
    {physical : ℕ} (h : openSegmentsIn f names = .ok (segments, physical)) :
    ∀ segment ∈ segments, segment.path ∈ names := by
  have hall := of_openSegmentsIn h
  clear h
  induction hall with
  | nil => simp
  | @cons name reader names readers hreader _ ih =>
    intro segment hsegment
    rcases List.mem_cons.1 hsegment with rfl | hsegment
    · rw [path_of_openSegmentIn hreader]
      exact List.mem_cons_self
    · exact List.mem_cons_of_mem _ (ih segment hsegment)

end Congruence

/-! ### The clean-up -/

/-- The manifest and the log are not cleaned up. -/
theorem isObsolete_of_not_isPrefixOf {live : List Bytes} {name : Bytes}
    (h : (ascii "segment-").isPrefixOf name = false) : isObsolete live name = false := by
  simp only [isObsolete, h, Bool.and_false, Bool.false_and, Bool.or_self]

theorem isObsolete_manifestName (live : List Bytes) : isObsolete live manifestName = false :=
  isObsolete_of_not_isPrefixOf (by decide)

/-- Recovery removes neither the manifest nor the log. -/
theorem isObsolete_walName (live : List Bytes) : isObsolete live walName = false :=
  isObsolete_of_not_isPrefixOf (by decide)

/-- Nor is a name that is listed. -/
theorem isObsolete_of_mem {live : List Bytes} {name : Bytes} (hmem : name ∈ live)
    (hvalid : validSegmentFilename name = true) : isObsolete live name = false := by
  simp only [validSegmentFilename, decide_eq_true_eq] at hvalid
  have hcontains : live.contains name = true := by simpa using hmem
  have hext : decide (extension name = ascii ".tmp") = false := by
    rw [hvalid.2.2.2]
    decide
  simp only [isObsolete, hcontains, hext, Bool.not_true, Bool.and_false, Bool.or_self]

/-- **The clean-up mistakes a live segment for an orphan**: a listed name holds a NUL byte, so that
the segment was opened under the part in front of it, and that part is a name to be removed. -/
def MistakesLive (live : List Bytes) : Prop := ∃ name ∈ live, isObsolete live (cString name) = true

instance : DecidablePred MistakesLive := fun live ↦
  inferInstanceAs (Decidable (∃ name ∈ live, isObsolete live (cString name) = true))

/-- Without NUL bytes there is no such mistake. -/
theorem not_mistakesLive {live : List Bytes} (hzero : ∀ name ∈ live, 0 ∉ name)
    (hvalid : ∀ name ∈ live, validSegmentFilename name = true) : ¬MistakesLive live := by
  rintro ⟨name, hname, hobsolete⟩
  rw [cString_eq_self (hzero name hname), isObsolete_of_mem hname (hvalid name hname)] at hobsolete
  cases hobsolete

/-- The obsolete names are gone, and nothing else has changed. -/
def Cleaned (live : List Bytes) (f g : Directory) : Prop :=
  ∀ name, g.find? name = if isObsolete live name = true then none else f.find? name

/-- Directories cleaned up alike read alike. -/
theorem Cleaned.find?_eq {live : List Bytes} {f g : Directory} (h : Cleaned live f g)
    (name : Bytes) :
    g.find? name = (cleaned live f).find? name := by
  rw [h, cleaned, OrderedMap.find?_without]

variable {σ : Type} {S : List Event} {f : Directory} {s₀ : σ}

/-- The removal of segments, where nothing fails: it leaves a directory that has been cleaned. -/
theorem spec_removeObsolete_finds (hfail : ¬Failing S) (listing : Listing) (live : List Bytes)
    {E : Error → σ → Disk Bytes UInt8 → Prop} :
    Spec S (Finds f s₀) (removeObsolete listing live)
      (fun _ s d ↦ s = s₀ ∧ Cleaned live f d.files) E (fun _ ↦ True) := by
  have hlist : Spec S (Finds f s₀) (Act.list (.systemError "failed to inspect database directory"))
      (fun names s d ↦ names = f.keys ∧ Finds f s₀ s d) E (fun _ ↦ True) := by
    refine Spec.bind (FaultyDisk.Spec.probe (fun _ _ hS ↦ absurd hS hfail) fun _ _ _ ↦ trivial)
      fun _ ↦ ?_
    refine Spec.bind (Spec.files (R := fun g s d ↦ g = f ∧ Finds f s₀ s d) fun s d hd ↦ ⟨hd.2, hd⟩)
      fun g ↦ Spec.assume fun hg ↦ ?_
    rw [hg]
    exact Spec.pure fun s d hd ↦ ⟨rfl, hd⟩
  refine Spec.bind hlist fun names ↦ Spec.assume fun hnames ↦ ?_
  subst hnames
  -- the loop has removed the obsolete names among those it has visited
  let Done (done : List Bytes) (s : σ) (d : Disk Bytes UInt8) : Prop := s = s₀ ∧ ∀ name,
    d.files.find? name = if name ∈ done ∧ isObsolete live name = true then none else f.find? name
  have hloop : Spec S (Done []) ((listing.order f.keys).forM fun filename ↦ do
      if isObsolete live filename then Act.tryStep (.remove filename) else pure ()
      Act.probe (.systemError "failed to inspect database directory"))
      (fun _ ↦ Done (listing.order f.keys)) E (fun _ ↦ True) := by
    refine Spec.forM Done fun done name rest _ ↦ ?_
    have hcall : Spec S (Done (done ++ [name]))
        (Act.probe (.systemError "failed to inspect database directory"))
        (fun _ ↦ Done (done ++ [name])) E (fun _ ↦ True) :=
      FaultyDisk.Spec.probe (fun _ _ hS ↦ absurd hS hfail) fun _ _ _ ↦ trivial
    dsimp only
    split
    · rename_i hobsolete
      refine Spec.bind (Q := fun _ ↦ Done (done ++ [name])) ?_ fun _ ↦ hcall
      refine Spec.tryStep ?_ (fun _ _ _ hS ↦ absurd hS hfail) fun _ _ _ _ ↦ trivial
      rintro s d ⟨rfl, hd⟩
      refine ⟨rfl, fun other ↦ ?_⟩
      rw [Disk.perform_files, Step.apply, OrderedMap.find?_erase, hd]
      by_cases hother : other = name
      · simp [hother, hobsolete]
      · simp [hother]
    · rename_i hkept
      refine hcall.pre ?_
      rintro s d ⟨rfl, hd⟩
      refine ⟨rfl, fun other ↦ ?_⟩
      rw [hd]
      by_cases hother : other = name
      · simp [hother, hkept]
      · simp [hother]
  refine hloop.conseq ?_ ?_ (fun _ _ _ h ↦ h) fun _ h ↦ h
  · rintro s d ⟨rfl, rfl⟩
    exact ⟨rfl, by simp⟩
  · rintro _ s d ⟨rfl, hd⟩
    refine ⟨rfl, fun name ↦ ?_⟩
    have hvisited := (listing.perm f.keys).mem_iff (a := name)
    rw [hd]
    by_cases hmem : name ∈ f.keys
    · simp [hvisited.2 hmem]
    · rw [OrderedMap.find?_eq_none_iff.2 hmem]
      simp

/-! ### The log -/

/-- **The shape of a log that replays**, with any callback. -/
theorem of_replayStream {α : Type} {replay : α → WalPutRecord → Except Error α} {content : Bytes}
    {acc acc' : α} {result : WalReplayResult}
    (h : replayStream walReadChunkSize (pure ()) replay content acc = .ok (acc', result)) :
    ∃ front tail records, content = front ++ tail ∧ WalDecodes front records ∧
      IncompleteTail tail ∧ result = ⟨records.length, front.length, tail.length⟩ ∧
      records.foldlM replay acc = .ok acc' := by
  rw [replayStream_eq_decodeWhole (by decide)] at h
  obtain ⟨acc'', hfold, h⟩ := bind_eq_ok.1 h
  cases hend : (decodeWhole 0 content).2 with
  | error e =>
    rw [hend] at h
    cases h
  | ok tailBytes =>
    rw [hend] at h
    obtain ⟨rfl, rfl⟩ := Prod.mk.inj (Except.ok.inj h)
    obtain ⟨front, tail, rfl, hfront, htail, rfl⟩ :=
      @exists_walDecodes_of_decodeWhole _ _ _ (decodeWhole 0 content).1 (Prod.ext rfl hend)
    refine ⟨front, tail, _, rfl, hfront, htail, ?_, hfold⟩
    rw [List.length_append, Nat.add_sub_cancel]

/-- Opening a log that is not there creates it. -/
theorem spec_createWal_finds (hfail : ¬Failing S) (hnone : f.find? walName = none)
    {E : Error → σ → Disk Bytes UInt8 → Prop} :
    Spec S (Finds f s₀) (WalWriter.open .buffered)
      (fun w s d ↦ w = ⟨.buffered, 0, false⟩ ∧ Finds (f.insert walName []) s₀ s d) E
      (fun _ ↦ True) := by
  have hcreate : Spec S (Finds f s₀) (Act.openAppend walName (.systemError "failed to open WAL"))
      (fun _ ↦ Finds (f.insert walName []) s₀) E (fun _ ↦ True) := by
    refine Spec.bind (Spec.files (R := fun g s d ↦ g = f ∧ Finds f s₀ s d) fun s d hd ↦ ⟨hd.2, hd⟩)
      fun g ↦ Spec.assume fun hg ↦ ?_
    rw [hg, hnone]
    refine (Spec.performs hfail).post fun _ s d hd ↦ ?_
    rwa [Step.apply, hnone, Option.isSome_none, if_neg (by simp)] at hd
  have hlookup : Reads S Error.IsIo (fun g ↦ g = f.insert walName [])
      (Act.lookup walName (.systemError "failed to inspect WAL") : Prog σ _) (.ok (some [])) :=
    Reads.lookup trivial fun g hg ↦ by rw [hg, OrderedMap.find?_insert, if_pos rfl]
  refine Spec.bind hcreate fun _ ↦ Spec.bind (Spec.finds_ok hfail hlookup rfl) fun content ↦
    Spec.assume fun hc ↦ ?_
  subst hc
  exact Spec.pure fun s d hd ↦ ⟨rfl, hd⟩

/-- **The repair after a replay**, or its refusal. -/
theorem spec_repairWalTail_replayed (hfail : ¬Failing S) {front tail : Bytes} {count : ℕ}
    (hfile : f.find? walName = some (front ++ tail)) :
    Spec S (Finds f s₀) (repairWalTail ⟨count, front.length, tail.length⟩)
      (fun _ s d ↦ ¬(tail ≠ [] ∧ tail.length > 2 ^ 64 - 1 - front.length) ∧
        Finds (f.insert walName front) s₀ s d)
      (fun e s d ↦ (tail ≠ [] ∧ tail.length > 2 ^ 64 - 1 - front.length) ∧
        e = .overflowError "recovered WAL size would overflow" ∧
        Finds f s₀ s d) (fun _ ↦ True) := by
  by_cases hover : tail ≠ [] ∧ tail.length > 2 ^ 64 - 1 - front.length
  · have hhad : (⟨count, front.length, tail.length⟩ : WalReplayResult).hadIncompleteTail =
      true := by
      simpa [WalReplayResult.hadIncompleteTail] using hover.1
    rw [repairWalTail, hhad, if_neg (by simp), if_pos hover.2]
    exact Spec.throw fun s d hd ↦ ⟨hover, rfl, hd⟩
  · refine (spec_repairWalTail_finds hfail hfile (fun htail ↦ ?_) _ rfl rfl).post fun _ s d hd ↦
      ⟨hover, hd⟩
    have hfit := not_and.1 hover htail
    have hpos := List.length_pos_of_ne_nil htail
    rw [List.length_append]
    omega

/-! ### Recovery -/

/-- What recovery should not touch when it throws. The segments are those that it opens. -/
structure Spares (f g : Directory) : Prop where
  manifest : g.find? manifestName = f.find? manifestName
  wal : g.find? walName = f.find? walName
  segments : ∀ content state, f.find? manifestName = some content →
    decodeManifest content = .ok state →
      ∀ name ∈ state.segmentFiles, g.find? (cString name) = f.find? (cString name)

/-- Recovery gets as far as the clean-up, which then removes a live segment. -/
def Severed (f : Directory) : Prop :=
  ∃ manifest opened, loadManifestIn f = .ok manifest ∧
    openSegmentsIn f manifest.segmentFiles = .ok opened ∧ MistakesLive manifest.segmentFiles

/-- What recovery leaves behind when it throws: the directory as it was, or cleaned up. -/
def Abandoned (f g : Directory) : Prop :=
  (g = f ∧ ∀ manifest opened, loadManifestIn f = .ok manifest →
      openSegmentsIn f manifest.segmentFiles ≠ .ok opened) ∨
    ∃ manifest opened, loadManifestIn f = .ok manifest ∧
      openSegmentsIn f manifest.segmentFiles = .ok opened ∧ Cleaned manifest.segmentFiles f g

/-- What a successful recovery leaves behind: the obsolete names are gone and the log is cut. -/
def Recovered (f : Directory) (r : RecoveryState) (g : Directory) : Prop :=
  ∀ name, g.find? name = if isObsolete r.manifest.segmentFiles name = true then none
    else if name = walName then some (((f.find? walName).getD []).take r.walSize)
    else f.find? name

theorem Spares.refl (f : Directory) : Spares f f := ⟨rfl, rfl, fun _ _ _ _ _ _ ↦ rfl⟩

/-- The manifest that is loaded is the one that is there. -/
theorem loadManifestIn_of_decodes {content : Bytes} {state : ManifestState}
    (hfile : f.find? manifestName = some content) (h : decodeManifest content = .ok state) :
    loadManifestIn f = .ok state := by
  rw [loadManifestIn, hfile]
  dsimp only
  rw [if_neg (not_lt.2 (of_decodeManifest h).2), h]

/-- The names that a loaded manifest lists are valid. -/
theorem valid_of_loadManifestIn {state : ManifestState} (h : loadManifestIn f = .ok state) :
    ∀ name ∈ state.segmentFiles, validSegmentFilename name = true := by
  rw [loadManifestIn] at h
  split at h
  · obtain rfl := Except.ok.inj h
    simp
  · split at h
    · cases h
    · exact (of_decodeManifest h).1

/-- The names that a decoded manifest lists are those that are loaded. -/
theorem loadManifestIn_eq_iff {state : ManifestState} (hload : loadManifestIn f = .ok state)
    {content : Bytes} {state' : ManifestState} (hfile : f.find? manifestName = some content)
    (hdec : decodeManifest content = .ok state') : state' = state :=
  Except.ok.inj ((loadManifestIn_of_decodes hfile hdec).symm.trans hload)

/-- Cleaning up leaves the live segments, unless the manifest names one that is cut short. -/
theorem Cleaned.segments {g : Directory} {live : List Bytes} (h : Cleaned live f g)
    (hlive : ¬MistakesLive live) :
    ∀ name ∈ live, g.find? (cString name) = f.find? (cString name) := by
  intro name hname
  rw [h, if_neg fun hobsolete ↦ hlive ⟨name, hname, hobsolete⟩]

/-- Cleaning up leaves the log. -/
theorem Cleaned.wal {g : Directory} {live : List Bytes} (h : Cleaned live f g) :
    g.find? walName = f.find? walName := by
  rw [h, isObsolete_walName, if_neg (by simp)]

/-- **What a failed recovery spares**, unless it has mistaken a live segment for an orphan. -/
theorem Abandoned.spares {g : Directory} (h : Abandoned f g) (hlive : ¬Severed f) : Spares f g := by
  rcases h with ⟨rfl, -⟩ | ⟨manifest, opened, hload, hopen, hclean⟩
  · exact .refl g
  · refine ⟨?_, hclean.wal, fun content state hfile hdec ↦ ?_⟩
    · rw [hclean, isObsolete_manifestName, if_neg (by simp)]
    · obtain rfl := loadManifestIn_eq_iff hload hfile hdec
      exact hclean.segments fun hmistakes ↦ hlive ⟨state, opened, hload, hopen, hmistakes⟩

/-- Cleaning up and then writing the log. -/
theorem Cleaned.recovered {g : Directory} {r : RecoveryState}
    (h : Cleaned r.manifest.segmentFiles f g)
    {front : Bytes} (hfront : ((f.find? walName).getD []).take r.walSize = front) :
    Recovered f r (g.insert walName front) := by
  intro name
  rw [OrderedMap.find?_insert]
  by_cases hname : name = walName
  · rw [if_pos hname, if_pos hname, hname, isObsolete_walName, if_neg (by simp), hfront]
  · rw [if_neg hname, if_neg hname, h]

/-- **Recovery of a directory of any content.** -/
theorem spec_recover_finds (hfail : ¬Failing S) (listing : Listing) :
    Spec S (Finds f s₀) (recover listing)
      (fun r s d ↦ s = s₀ ∧ recoverIn f = .ok r ∧ Recovered f r d.files)
      (fun e s d ↦ s = s₀ ∧ recoverIn f = .error e ∧ Abandoned f d.files) (fun _ ↦ True) := by
  refine Spec.bind ((Spec.finds hfail reads_loadManifest_in rfl).conseq (fun _ _ ↦ id)
    (fun _ _ _ ↦ id) ?_ fun _ ↦ id) fun manifest ↦ Spec.assume fun hload ↦ ?_
  · rintro e s d ⟨he, rfl, rfl⟩
    refine ⟨rfl, by rw [recoverIn, he]; rfl, Or.inl ⟨rfl, fun manifest opened hload ↦ ?_⟩⟩
    rw [he] at hload
    cases hload
  refine Spec.bind ((Spec.finds hfail (reads_openSegments_in manifest.segmentFiles) rfl).conseq
    (fun _ _ ↦ id) (fun _ _ _ ↦ id) ?_ fun _ ↦ id) fun opened ↦ Spec.assume fun hopen ↦ ?_
  · rintro e s d ⟨he, rfl, rfl⟩
    refine ⟨rfl, by rw [recoverIn, hload]; dsimp only [bind, Except.bind]; rw [he],
      Or.inl ⟨rfl, fun manifest' opened hload' hopen ↦ ?_⟩⟩
    obtain rfl := Except.ok.inj (hload.symm.trans hload')
    rw [he] at hopen
    cases hopen
  obtain ⟨segments, physical⟩ := opened
  -- what is left of the computation, once manifest and segments are known
  have hrest := recoverIn.eq_1 f
  rw [hload] at hrest
  dsimp only [bind, Except.bind] at hrest
  rw [hopen] at hrest
  dsimp only at hrest
  refine Spec.bind (spec_removeObsolete_finds hfail listing manifest.segmentFiles) fun _ ↦ ?_
  refine Spec.pre (A := fun s d ↦ ∃ g, Cleaned manifest.segmentFiles f g ∧ Finds g s₀ s d) ?_ ?_
  swap
  · rintro s d ⟨rfl, hclean⟩
    exact ⟨d.files, hclean, rfl, rfl⟩
  refine Spec.exists_pre fun g ↦ Spec.assume fun hclean ↦ ?_
  have habandoned : Abandoned f g := Or.inr ⟨manifest, _, hload, hopen, hclean⟩
  dsimp only
  split
  · rename_i hcount
    refine Spec.throw ?_
    rintro s d ⟨rfl, rfl⟩
    exact ⟨rfl, by rw [hrest, if_pos hcount]; rfl, habandoned⟩
  rename_i hcount
  rw [if_neg hcount] at hrest
  have hlookup : Reads S Error.IsIo (fun g' ↦ g' = g)
      (Act.lookup walName (.systemError "failed to inspect WAL") : Prog σ _)
      (.ok (f.find? walName)) := Reads.lookup trivial fun g' hg ↦ hg ▸ hclean.wal
  refine Spec.bind (Spec.finds_ok hfail hlookup rfl) fun content ↦ Spec.assume fun hc ↦ ?_
  subst hc
  cases hwal : f.find? walName with
  | none =>
    rw [hwal] at hrest
    refine Spec.bind (spec_createWal_finds hfail (hclean.wal.trans hwal)) fun writer ↦
      Spec.assume fun hw ↦ ?_
    subst hw
    refine Spec.bind (spec_syncWal_finds rfl hfail) fun _ ↦ Spec.pure ?_
    rintro s d ⟨rfl, hd⟩
    refine ⟨rfl, hrest, ?_⟩
    rw [hd]
    exact Cleaned.recovered (r := ⟨.empty, manifest, segments, manifest.logicalSampleCount, 0⟩)
      hclean (List.take_zero)
  | some content =>
    rw [hwal] at hrest
    dsimp only at hrest
    have hsame : replayRecordIn g segments =
        replayRecordIn (cleaned manifest.segmentFiles f) segments :=
      replayRecordIn_congr fun segment _ ↦ hclean.find?_eq _
    have hreplay := reads_replayWal (reads_replayRecord_in (σ := σ) (S := S) (f := g) segments)
      (fun _ hg ↦ hg ▸ hclean.wal.trans hwal) (MemTable.empty, manifest.logicalSampleCount)
    rw [hsame] at hreplay
    refine Spec.bind ((Spec.finds hfail hreplay rfl).conseq (fun _ _ ↦ id) (fun _ _ _ ↦ id)
      ?_ fun _ ↦ id) fun replayed ↦ Spec.assume fun hr ↦ ?_
    · rintro e s d ⟨he, rfl, rfl⟩
      refine ⟨rfl, ?_, habandoned⟩
      rw [hrest, replayIn, he]
      rfl
    obtain ⟨⟨memtable, count⟩, result⟩ := replayed
    obtain ⟨front, tail, records, rfl, -, -, rfl, -⟩ := of_replayStream hr
    have hhad : ∀ n, (⟨n, front.length, tail.length⟩ : WalReplayResult).hadIncompleteTail = true ↔
        tail ≠ [] := by simp [WalReplayResult.hadIncompleteTail]
    refine Spec.bind ((spec_repairWalTail_replayed hfail (hclean.wal.trans hwal)).conseq
      (fun _ _ ↦ id) (fun _ _ _ ↦ id) ?_ fun _ ↦ id) fun _ ↦ Spec.assume fun hfit ↦ Spec.pure ?_
    · rintro e s d ⟨hover, rfl, rfl, rfl⟩
      refine ⟨rfl, ?_, habandoned⟩
      rw [hrest, replayIn, hr]
      dsimp only [bind, Except.bind]
      rw [if_pos ⟨(hhad _).2 hover.1, hover.2⟩]
    · rintro s d ⟨rfl, hd⟩
      refine ⟨rfl, ?_, ?_⟩
      · rw [hrest, replayIn, hr]
        dsimp only [bind, Except.bind]
        rw [if_neg fun h ↦ hfit ⟨(hhad _).1 h.1, h.2⟩]
        rfl
      · rw [hd]
        refine Cleaned.recovered
          (r := ⟨memtable, manifest, segments, count, front.length⟩) hclean ?_
        rw [hwal]
        exact List.take_left

/-- The segments that the manifest names are there, and no file is larger than a file can be. As in
every directory, no file has a NUL byte in its name. -/
structure Complete (f : Directory) : Prop where
  wal : ∀ content, f.find? walName = some content → content.length < 2 ^ 63
  segments : ∀ state, loadManifestIn f = .ok state → ∀ name ∈ state.segmentFiles,
    ∃ content, f.find? name = some content ∧ content.length < 2 ^ 63
  names : ∀ name ∈ f.keys, 0 ∉ name

/-- In a complete directory, no name of the manifest holds a NUL byte. -/
theorem Complete.zero_notMem (h : Complete f) {state : ManifestState}
    (hload : loadManifestIn f = .ok state) {name : Bytes} (hname : name ∈ state.segmentFiles) :
    0 ∉ name := by
  obtain ⟨content, hfile, -⟩ := h.segments state hload name hname
  refine h.names name (not_not.1 fun hnot ↦ ?_)
  rw [OrderedMap.find?_eq_none_iff.2 hnot] at hfile
  cases hfile

/-- In a complete directory, every name of the manifest is that of a file. -/
theorem Complete.exists_file (h : Complete f) {state : ManifestState}
    (hload : loadManifestIn f = .ok state) {name : Bytes} (hname : name ∈ state.segmentFiles) :
    ∃ content, f.find? (cString name) = some content ∧ content.length < 2 ^ 63 := by
  rw [cString_eq_self (h.zero_notMem hload hname)]
  exact h.segments state hload name hname

theorem Complete.not_mistakesLive (h : Complete f) {state : ManifestState}
    (hload : loadManifestIn f = .ok state) : ¬MistakesLive state.segmentFiles :=
  ChronoStore.not_mistakesLive (fun _ hname ↦ h.zero_notMem hload hname)
    (valid_of_loadManifestIn hload)

/-- In a complete directory, the indexes lie in their files. -/
theorem Complete.allFit (h : Complete f) {state : ManifestState}
    (hload : loadManifestIn f = .ok state)
    {segments : List SegmentReader} {physical : ℕ}
    (hopen : openSegmentsIn f state.segmentFiles = .ok (segments, physical)) :
    AllFit f segments := by
  have hnames : ∀ name ∈ state.segmentFiles, _ := fun name hname ↦ h.exists_file hload hname
  have hall := of_openSegmentsIn hopen
  clear hopen hload
  generalize state.segmentFiles = names at hnames hall
  induction hall with
  | nil => simp [AllFit]
  | @cons name reader names readers hreader _ ih =>
    refine List.forall_mem_cons.2 ⟨?_, ih fun n hn ↦ hnames n (List.mem_cons_of_mem _ hn)⟩
    obtain ⟨content, hfile, hsize⟩ := hnames name List.mem_cons_self
    rw [path_of_openSegmentIn hreader]
    exact ⟨content, hfile, (openSegmentIn_cases hfile hsize).2 reader hreader⟩

/-- In a complete directory, a segment that cannot be opened is reported as damaged. -/
theorem Complete.openSegments (h : Complete f) {state : ManifestState}
    (hload : loadManifestIn f = .ok state) :
    FormatErrorsOnly (openSegmentsIn f state.segmentFiles) := by
  refine foldlM_formatErrorsOnly (fun acc name hname ↦ ?_) _
  obtain ⟨content, hfile, hsize⟩ := h.exists_file hload hname
  exact (openSegmentIn_cases hfile hsize).1.bind fun _ _ ↦ formatErrorsOnly_ok _

theorem FormatErrorsOnly.isFormat {α : Type} {r : Except Error α} (h : FormatErrorsOnly r)
    {e : Error}
    (he : r = .error e) : e.IsFormat := by
  obtain ⟨what, rfl⟩ := h e he
  trivial

/-- Replay throws what its callback throws, or a format error of the log. -/
theorem isFormat_of_replayStream {α : Type} {replay : α → WalPutRecord → Except Error α}
    (hreplay : ∀ acc r, FormatErrorsOnly (replay acc r)) {content : Bytes} {acc : α} {e : Error}
    (h : replayStream walReadChunkSize (pure ()) replay content acc = .error e) : e.IsFormat := by
  rw [replayStream_eq_decodeWhole (by decide)] at h
  cases hfold : (decodeWhole 0 content).1.foldlM replay acc with
  | error e' =>
    rw [hfold] at h
    obtain rfl := Except.error.inj h
    exact (foldlM_formatErrorsOnly (fun b a _ ↦ hreplay b a) acc).isFormat hfold
  | ok acc' =>
    rw [hfold] at h
    dsimp only [bind, Except.bind] at h
    split at h
    · cases h
    · rename_i e' hend
      obtain rfl := Except.error.inj h
      obtain ⟨offset, error, rfl⟩ := decodeWhole_walFormatError hend
      trivial

/-- **Recovery of a complete directory throws format errors only.** -/
theorem Complete.isFormat (h : Complete f) {e : Error} (he : recoverIn f = .error e) :
    e.IsFormat := by
  rw [recoverIn] at he
  cases hload : loadManifestIn f with
  | error e' =>
    rw [hload] at he
    obtain rfl := Except.error.inj he
    rw [loadManifestIn] at hload
    split at hload
    · cases hload
    split at hload
    · rw [← Except.error.inj hload]
      trivial
    · obtain ⟨what, rfl⟩ := decodeManifest_error hload
      trivial
  | ok manifest =>
  rw [hload] at he
  dsimp only [bind, Except.bind] at he
  cases hopen : openSegmentsIn f manifest.segmentFiles with
  | error e' =>
    rw [hopen] at he
    obtain rfl := Except.error.inj he
    exact (h.openSegments hload).isFormat hopen
  | ok opened =>
  obtain ⟨segments, physical⟩ := opened
  rw [hopen] at he
  dsimp only at he
  split at he
  · rw [← Except.error.inj he]
    trivial
  split at he
  · cases he
  rename_i content hwal
  have hsmall := h.wal content hwal
  have hfit : AllFit (cleaned manifest.segmentFiles f) segments := fun segment hsegment ↦ by
    have hclean : Cleaned manifest.segmentFiles f (cleaned manifest.segmentFiles f) := fun name ↦
      OrderedMap.find?_without f _ name
    rw [hclean.segments (h.not_mistakesLive hload) _
      (path_mem_of_openSegmentsIn hopen segment hsegment)]
    exact h.allFit hload hopen segment hsegment
  cases hstream : replayStream walReadChunkSize (pure ())
      (replayRecordIn (cleaned manifest.segmentFiles f) segments) content
      (MemTable.empty, manifest.logicalSampleCount) with
  | error e' =>
    rw [replayIn, hstream] at he
    obtain rfl := Except.error.inj he
    exact isFormat_of_replayStream hfit.replayRecord hstream
  | ok replayed =>
    -- the log is too short for its size to overflow
    obtain ⟨acc, result⟩ := replayed
    obtain ⟨front, tail, records, rfl, -, -, rfl, -⟩ := of_replayStream hstream
    rw [List.length_append] at hsmall
    rw [replayIn, hstream] at he
    dsimp only [bind, Except.bind] at he
    rw [if_neg (by omega)] at he
    cases he

/-! ### Recovery of what recovery left behind -/

/-- **What a successful recovery has found.** -/
theorem of_recoverIn {r : RecoveryState} (h : recoverIn f = .ok r) :
    ∃ physical, loadManifestIn f = .ok r.manifest ∧
      openSegmentsIn f r.manifest.segmentFiles = .ok (r.segments, physical) ∧
      ¬(r.manifest.logicalSampleCount > physical ∨
        r.segments.isEmpty = true ∧ r.manifest.logicalSampleCount ≠ 0) ∧
      (f.find? walName = none ∧ r.memtable = .empty ∧
          r.logicalSampleCount = r.manifest.logicalSampleCount ∧ r.walSize = 0 ∨
        ∃ front tail records, f.find? walName = some (front ++ tail) ∧ WalDecodes front records ∧
          IncompleteTail tail ∧ r.walSize = front.length ∧
          records.foldlM (replayRecordIn (cleaned r.manifest.segmentFiles f) r.segments)
            (MemTable.empty, r.manifest.logicalSampleCount) =
              .ok (r.memtable, r.logicalSampleCount)) := by
  rw [recoverIn] at h
  obtain ⟨manifest, hload, h⟩ := bind_eq_ok.1 h
  obtain ⟨⟨segments, physical⟩, hopen, h⟩ := bind_eq_ok.1 h
  dsimp only at h
  split at h
  · cases h
  rename_i hcount
  split at h
  · rename_i hwal
    obtain rfl := Except.ok.inj h
    exact ⟨physical, hload, hopen, hcount, Or.inl ⟨hwal, rfl, rfl, rfl⟩⟩
  · rename_i content hwal
    obtain ⟨⟨⟨memtable, count⟩, result⟩, hreplay, h⟩ := bind_eq_ok.1 h
    obtain rfl := Except.ok.inj h
    rw [replayIn] at hreplay
    obtain ⟨⟨acc, result'⟩, hstream, hreplay⟩ := bind_eq_ok.1 hreplay
    dsimp only at hreplay
    split at hreplay
    · cases hreplay
    obtain ⟨rfl, rfl⟩ := Prod.mk.inj (Except.ok.inj hreplay)
    obtain ⟨front, tail, records, rfl, hfront, htail, rfl, hfold⟩ := of_replayStream hstream
    exact ⟨physical, hload, hopen, hcount,
      Or.inr ⟨front, tail, records, hwal, hfront, htail, rfl, hfold⟩⟩

/-- **A recovery that finds nothing to do** does nothing. -/
theorem reads_recover_settled {r : RecoveryState} {physical : ℕ} {front : Bytes}
    {records : List WalPutRecord} (listing : Listing)
    (hclean : ∀ name ∈ f.keys, isObsolete r.manifest.segmentFiles name = false)
    (hload : loadManifestIn f = .ok r.manifest)
    (hopen : openSegmentsIn f r.manifest.segmentFiles = .ok (r.segments, physical))
    (hcount : ¬(r.manifest.logicalSampleCount > physical ∨
      r.segments.isEmpty = true ∧ r.manifest.logicalSampleCount ≠ 0))
    (hwal : f.find? walName = some front) (hfront : WalDecodes front records)
    (hsize : r.walSize = front.length)
    (hfold : records.foldlM (replayRecordIn f r.segments)
      (MemTable.empty, r.manifest.logicalSampleCount) = .ok (r.memtable, r.logicalSampleCount)) :
    Reads S Error.IsIo (fun g ↦ g = f) (recover listing : Prog σ RecoveryState) (.ok r) := by
  have hremove : Reads S Error.IsIo (fun g ↦ g = f)
      (removeObsolete listing r.manifest.segmentFiles : Prog σ Unit) (.ok ()) := by
    refine (Reads.list (l := f.keys) trivial fun g hg ↦ by rw [hg]).bind (g := fun _ ↦ .ok ())
      fun names hnames ↦ ?_
    obtain rfl := Except.ok.inj hnames
    refine Reads.forM fun name hname ↦ ?_
    rw [hclean name ((listing.perm _).mem_iff.1 hname)]
    exact Reads.probe trivial
  have hmanifest := reads_loadManifest_in (σ := σ) (S := S) (f := f)
  rw [hload] at hmanifest
  have hsegments := reads_openSegments_in (σ := σ) (S := S) (f := f) r.manifest.segmentFiles
  rw [hopen] at hsegments
  have hreplay := reads_replayWal (reads_replayRecord_in (σ := σ) (S := S) (f := f) r.segments)
    (fun _ hg ↦ hg ▸ hwal) (MemTable.empty, r.manifest.logicalSampleCount)
  have hstream := replayStream_of_walDecodes (show 0 < walReadChunkSize by decide)
    (replayRecordIn f r.segments) hfront incompleteTail_nil
    (MemTable.empty, r.manifest.logicalSampleCount)
  rw [List.append_nil, hfold] at hstream
  rw [hstream] at hreplay
  refine hmanifest.bind (g := fun _ ↦ .ok r) fun manifest hm ↦ ?_
  obtain rfl := Except.ok.inj hm
  refine hsegments.bind (g := fun _ ↦ .ok r) fun opened ho ↦ ?_
  obtain rfl := Except.ok.inj ho
  refine hremove.bind (g := fun _ ↦ .ok r) fun _ _ ↦ ?_
  dsimp only
  rw [if_neg hcount]
  refine (Reads.lookup (c := some front) trivial fun g hg ↦ hg ▸ hwal).bind
    (g := fun _ ↦ .ok r) fun content hc ↦ ?_
  obtain rfl := Except.ok.inj hc
  refine hreplay.bind (g := fun _ ↦ .ok r) fun replayed hr ↦ ?_
  obtain rfl := Except.ok.inj hr
  have hresult : (⟨r.memtable, r.manifest, r.segments, r.logicalSampleCount, front.length⟩ :
      RecoveryState) = r := by rw [← hsize]
  have hpure := Reads.pure (S := S) (J := Error.IsIo) (F := fun g ↦ g = f) (σ := σ) (B := UInt8) r
  rw [← hresult] at hpure ⊢
  exact hpure

/-- A segment does not replay as a log: its first four bytes are other ones. -/
theorem decodeWalRecord_of_open {content path : Bytes} {reader : SegmentReader}
    (h : SegmentReader.open path (.ok content.length : Except Error ℕ) (readFileRange content) =
      .ok reader) : decodeWalRecord content = walDecodeError .invalidMagic := by
  obtain ⟨_, envelope, hsize, hopened⟩ := SegmentReader.of_open h
  obtain rfl := Except.ok.inj hsize
  have hlarge := hopened.large
  unfold segmentHeaderSize segmentFooterSize segmentIndexHeaderSize checksumSize at hlarge
  obtain ⟨bytes, hread, hheader⟩ := hopened.header
  obtain ⟨rfl, -, -⟩ := of_decodeHeader hheader
  have hfront : encodeHeader envelope = content.take segmentHeaderSize := by
    rw [readFileRange] at hread
    split at hread
    · cases hread
    split at hread
    · cases hread
    split at hread
    · cases hread
    · rw [← Except.ok.inj hread, List.drop_zero]
  have hmagic : (walHeaderOf content).magic = segmentFileMagic := by
    have htake : content.take 4 = (encodeHeader envelope).take 4 := by
      rw [hfront, List.take_take]
      rfl
    have hbytes : (encodeHeader envelope).take 4 = writeU32 segmentFileMagic := by
      rw [encodeHeader, withChecksum, headerBody, List.append_assoc]
      exact List.take_left' (length_writeU32 _)
    show littleEndian (content.take 4) = _
    rw [htake, hbytes, writeU32, littleEndian_writeUnsigned (by decide)]
  rw [decodeWalRecord_eq (by unfold walHeaderSize; omega), decodeWalFramed, hmagic,
    if_pos (by decide)]

/-- **A log that replays** is not a segment. -/
theorem not_open_of_walDecodes {front tail path : Bytes} {records : List WalPutRecord}
    {reader : SegmentReader} (hfront : WalDecodes front records) (htail : IncompleteTail tail) :
    SegmentReader.open path (.ok (front ++ tail).length : Except Error ℕ)
      (readFileRange (front ++ tail)) ≠ .ok reader := by
  intro h
  have hmagic := decodeWalRecord_of_open h
  cases hfront with
  | nil =>
    rw [List.nil_append, htail] at hmagic
    cases hmagic
  | @cons frame bytes record records head =>
    rw [List.append_assoc, decodeWalRecord_append (by rw [head]; simp), head] at hmagic
    cases hmagic

/-- Each listed segment was opened. -/
theorem exists_reader_of_mem {names : List Bytes} {segments : List SegmentReader} {physical : ℕ}
    (h : openSegmentsIn f names = .ok (segments, physical)) {name : Bytes} (hname : name ∈ names) :
    ∃ reader, openSegmentIn f name = .ok reader := by
  have hall := of_openSegmentsIn h
  clear h
  induction hall with
  | nil => cases hname
  | @cons name' reader names readers hreader _ ih =>
    rcases List.mem_cons.1 hname with rfl | hname
    · exact ⟨reader, hreader⟩
    · exact ih hname

/-- The files of the listed segments were there. -/
theorem find?_ne_none_of_openSegmentsIn {names : List Bytes} {segments : List SegmentReader}
    {physical : ℕ} (h : openSegmentsIn f names = .ok (segments, physical)) {name : Bytes}
    (hname : name ∈ names) : f.find? (cString name) ≠ none := by
  intro hnone
  obtain ⟨reader, hreader⟩ := exists_reader_of_mem h hname
  rw [openSegmentIn, hnone] at hreader
  cases hreader

/-- Where recovery succeeds, no listed name is handed over as the name of the log. -/
theorem cString_ne_walName_of_recoverIn {r : RecoveryState} (hrec : recoverIn f = .ok r)
    {name : Bytes} (hname : name ∈ r.manifest.segmentFiles) : cString name ≠ walName := by
  intro hcut
  obtain ⟨physical, -, hopen, -, hlog⟩ := of_recoverIn hrec
  have hsome := find?_ne_none_of_openSegmentsIn hopen hname
  rcases hlog with ⟨hnone, -⟩ | ⟨front, tail, records, hwal, hfront, htail, -⟩
  · rw [hcut, hnone] at hsome
    exact hsome rfl
  · obtain ⟨reader, hreader⟩ := exists_reader_of_mem hopen hname
    rw [openSegmentIn, hcut, hwal] at hreader
    exact not_open_of_walDecodes hfront htail hreader

/-- What a successful recovery leaves of a segment is what the clean-up leaves of it. -/
theorem Recovered.find?_eq {g : Directory} {r : RecoveryState} (hrec : recoverIn f = .ok r)
    (h : Recovered f r g) {name : Bytes} (hname : name ∈ r.manifest.segmentFiles) :
    g.find? (cString name) = (cleaned r.manifest.segmentFiles f).find? (cString name) := by
  rw [h, if_neg (cString_ne_walName_of_recoverIn hrec hname), cleaned, OrderedMap.find?_without]

/-- The directory that recovery leaves behind agrees with the one it found, where it has not
mistaken a live segment for an orphan. -/
theorem Recovered.segments {g : Directory} {r : RecoveryState} (hrec : recoverIn f = .ok r)
    (h : Recovered f r g) (hlive : ¬MistakesLive r.manifest.segmentFiles) :
    ∀ name ∈ r.manifest.segmentFiles, g.find? (cString name) = f.find? (cString name) := by
  intro name hname
  rw [h, if_neg fun hobsolete ↦ hlive ⟨name, hname, hobsolete⟩,
    if_neg (cString_ne_walName_of_recoverIn hrec hname)]

/-- Recovery leaves the manifest. -/
theorem Recovered.manifest {g : Directory} {r : RecoveryState} (h : Recovered f r g) :
    g.find? manifestName = f.find? manifestName := by
  rw [h, isObsolete_manifestName, if_neg (by simp), if_neg (by decide)]

/-- The log that recovery leaves behind is as long as recovery says. -/
theorem Recovered.wal {g : Directory} {r : RecoveryState} (hrec : recoverIn f = .ok r)
    (h : Recovered f r g) :
    ∃ content, g.find? walName = some content ∧ content.length = r.walSize := by
  obtain ⟨-, -, -, -, hlog⟩ := of_recoverIn hrec
  refine ⟨((f.find? walName).getD []).take r.walSize, ?_, ?_⟩
  · rw [h, isObsolete_walName, if_neg (by simp), if_pos rfl]
  · rcases hlog with ⟨-, -, -, hsize⟩ | ⟨front, tail, -, hsome, -, -, hsize, -⟩
    · rw [hsize]
      rfl
    · rw [hsome, Option.getD_some, hsize, List.take_left]

/-- **Opening a directory of any content.** -/
theorem spec_open_finds (hfail : ¬Failing S) (listing : Listing) (durability : WalDurability) :
    Spec S (Finds f s₀) (StorageEngine.open listing durability)
      (fun e s d ↦ s = s₀ ∧ ∃ r, recoverIn f = .ok r ∧ Recovered f r d.files ∧
        e = ⟨r.memtable, r.manifest, r.segments, ⟨durability, r.walSize, false⟩,
          r.logicalSampleCount, false⟩)
      (fun err s d ↦ s = s₀ ∧ recoverIn f = .error err ∧ Abandoned f d.files) (fun _ ↦ True) := by
  refine Spec.bind (spec_recover_finds hfail listing) fun r ↦ ?_
  refine Spec.pre (A := fun s d ↦ ∃ g, (recoverIn f = .ok r ∧ Recovered f r g) ∧
    Finds g s₀ s d) ?_ ?_
  swap
  · rintro s d ⟨rfl, hrec, hg⟩
    exact ⟨d.files, ⟨hrec, hg⟩, rfl, rfl⟩
  refine Spec.exists_pre fun g ↦ Spec.assume ?_
  rintro ⟨hrec, hg⟩
  obtain ⟨content, hwal, hsize⟩ := hg.wal hrec
  have hopen : Reads S Error.IsIo (fun g' ↦ g' = g) (WalWriter.open durability : Prog σ WalWriter)
      (.ok ⟨durability, content.length, false⟩) := by
    refine (Reads.openAppend trivial fun g' hg' ↦ hg' ▸ hwal).bind (g := fun _ ↦ .ok _) fun _ _ ↦ ?_
    refine (Reads.lookup (c := some content) trivial fun g' hg' ↦ hg' ▸ hwal).bind
      (g := fun _ ↦ .ok _) fun found hfound ↦ ?_
    obtain rfl := Except.ok.inj hfound
    exact Reads.pure _
  refine Spec.bind (Spec.finds_ok hfail hopen rfl) fun writer ↦ Spec.assume fun hw ↦ ?_
  subst hw
  rw [hsize, if_neg (by simp)]
  refine Spec.pure ?_
  rintro s d ⟨rfl, rfl⟩
  exact ⟨rfl, r, hrec, hg, rfl⟩

/-- **A recovered directory** recovers to the same state, and recovery finds nothing to do, where no
live segment was mistaken for an orphan. -/
theorem reads_recover_recovered {g : Directory} {r : RecoveryState} (listing : Listing)
    (hrec : recoverIn f = .ok r) (h : Recovered f r g)
    (hlive : ¬MistakesLive r.manifest.segmentFiles) :
    Reads S Error.IsIo (fun g' ↦ g' = g) (recover listing : Prog σ RecoveryState) (.ok r) := by
  obtain ⟨physical, hload, hopen, hcount, hlog⟩ := of_recoverIn hrec
  have hsame : replayRecordIn g r.segments =
      replayRecordIn (cleaned r.manifest.segmentFiles f) r.segments :=
    replayRecordIn_congr fun segment hsegment ↦
      h.find?_eq hrec (path_mem_of_openSegmentsIn hopen segment hsegment)
  have hclean : ∀ name ∈ g.keys, isObsolete r.manifest.segmentFiles name = false := by
    intro name hname
    by_contra hobsolete
    rw [Bool.not_eq_false] at hobsolete
    have hnone := h name
    rw [if_pos hobsolete, OrderedMap.find?_eq_none_iff] at hnone
    exact hnone hname
  have hwal : g.find? walName = some (((f.find? walName).getD []).take r.walSize) := by
    rw [h, isObsolete_walName, if_neg (by simp), if_pos rfl]
  have hload' := (loadManifestIn_congr h.manifest).trans hload
  have hopen' := (openSegmentsIn_congr (h.segments hrec hlive)).trans hopen
  rcases hlog with ⟨hnone, hmemtable, hcounter, hsize⟩ |
    ⟨front, tail, records, hsome, hfront, htail, hsize, hfold⟩
  · rw [hnone, Option.getD_none, List.take_nil] at hwal
    refine reads_recover_settled listing hclean hload' hopen' hcount hwal .nil ?_ ?_
    · rw [hsize]
      rfl
    · rw [hmemtable, hcounter]
      rfl
  · rw [hsome, Option.getD_some, hsize, List.take_left] at hwal
    refine reads_recover_settled listing hclean hload' hopen' hcount hwal hfront hsize ?_
    rw [hsame]
    exact hfold

/-! ### When recovery is non-destructive and idempotent -/

/-- A directory listed in the order of its names. -/
def Listing.sorted : Listing := ⟨id, fun _ ↦ .refl _⟩

/-- **Recovery is non-destructive and idempotent** on a directory, in whatever order it is listed,
where no call fails. If it throws one of the exceptions `E`, the manifest, the log and every segment
that a decodable manifest names are as they were. If it succeeds, recovering again returns the same
state and performs no step at all. -/
def SparesAndRepeats (E : Error → Prop) (f : Directory) : Prop :=
  ∀ (listing again : Listing) (log : List (Step Bytes UInt8)) (sched : List Event), ¬Failing sched →
    (∀ e s w, recover listing ((), ⟨⟨f, log⟩, sched⟩) = .error (.exn e) (s, w) → E e →
      Spares f w.files) ∧
    ∀ r s w, recover listing ((), ⟨⟨f, log⟩, sched⟩) = .ok r (s, w) →
      ∀ sched', ¬Failing sched' → ¬Crashing sched' →
        ∃ rest, recover again (s, ⟨w.toDisk, sched'⟩) = .ok r (s, ⟨w.toDisk, rest⟩)

/-- The log cannot be replayed over what the clean-up leaves, and not because of what it says: the
replay asks a segment that is gone. -/
def Interrupted (f : Directory) : Prop :=
  ∃ manifest segments physical content e, loadManifestIn f = .ok manifest ∧
    openSegmentsIn f manifest.segmentFiles = .ok (segments, physical) ∧
    ¬(manifest.logicalSampleCount > physical ∨
      segments.isEmpty = true ∧ manifest.logicalSampleCount ≠ 0) ∧
    f.find? walName = some content ∧
    replayIn (cleaned manifest.segmentFiles f) segments content
      (MemTable.empty, manifest.logicalSampleCount) = .error e ∧ ¬e.IsFormat

/-- Then recovery throws what the replay throws. -/
theorem Interrupted.recoverIn (h : Interrupted f) :
    ∃ e, ChronoStore.recoverIn f = .error e ∧ ¬e.IsFormat := by
  obtain ⟨manifest, segments, physical, content, e, hload, hopen, hcount, hwal, hreplay, he⟩ := h
  refine ⟨e, ?_, he⟩
  rw [ChronoStore.recoverIn, hload]
  dsimp only [bind, Except.bind]
  rw [hopen]
  dsimp only
  rw [if_neg hcount, hwal]
  dsimp only
  rw [hreplay]

/-- Past the clean-up nothing else throws anything but a format error. -/
theorem interrupted_of_recoverIn {manifest : ManifestState} {segments : List SegmentReader}
    {physical : ℕ} {e : Error} (hload : loadManifestIn f = .ok manifest)
    (hopen : openSegmentsIn f manifest.segmentFiles = .ok (segments, physical))
    (hrec : recoverIn f = .error e) (he : ¬e.IsFormat) : Interrupted f := by
  rw [recoverIn, hload] at hrec
  dsimp only [bind, Except.bind] at hrec
  rw [hopen] at hrec
  dsimp only at hrec
  split at hrec
  · rw [← Except.error.inj hrec] at he
    exact absurd trivial he
  rename_i hcount
  split at hrec
  · cases hrec
  rename_i content hwal
  cases hreplay : replayIn (cleaned manifest.segmentFiles f) segments content
      (MemTable.empty, manifest.logicalSampleCount) with
  | error e' =>
    rw [hreplay] at hrec
    obtain rfl := Except.error.inj hrec
    exact ⟨manifest, segments, physical, content, e', hload, hopen, hcount, hwal, hreplay, he⟩
  | ok replayed =>
    rw [hreplay] at hrec
    cases hrec

/-- A live segment that is mistaken for an orphan is gone after the clean-up. -/
theorem Abandoned.not_spares {g : Directory} (h : Abandoned f g) (hsevered : Severed f) :
    ¬Spares f g := by
  obtain ⟨manifest, opened, hload, hopen, name, hname, hobsolete⟩ := hsevered
  rcases h with ⟨-, hnot⟩ | ⟨manifest', opened', hload', -, hclean⟩
  · exact absurd hopen (hnot manifest opened hload)
  · obtain rfl := Except.ok.inj (hload.symm.trans hload')
    have hsome := find?_ne_none_of_openSegmentsIn hopen hname
    intro hspares
    cases hfile : f.find? manifestName with
    | none =>
      rw [loadManifestIn, hfile] at hload
      rw [← Except.ok.inj hload] at hname
      cases hname
    | some content =>
      rw [loadManifestIn, hfile] at hload
      dsimp only at hload
      split at hload
      · cases hload
      have hsame := hspares.segments content manifest hfile hload name hname
      rw [hclean, if_pos hobsolete] at hsame
      exact hsome hsame.symm

/-- And recovery finds it missing the next time. -/
theorem Recovered.not_recovers {g : Directory} {r r' : RecoveryState} (hrec : recoverIn f = .ok r)
    (h : Recovered f r g) (hsevered : Severed f) : recoverIn g ≠ .ok r' := by
  intro hagain
  obtain ⟨physical, hload, -, -, -⟩ := of_recoverIn hrec
  obtain ⟨physical', hload', hopen', -, -⟩ := of_recoverIn hagain
  obtain ⟨manifest, -, hload'', -, name, hname, hobsolete⟩ := hsevered
  obtain rfl := Except.ok.inj (hload.symm.trans hload'')
  have hsame : r'.manifest = r.manifest :=
    Except.ok.inj (hload'.symm.trans ((loadManifestIn_congr h.manifest).trans hload))
  rw [hsame] at hopen'
  exact find?_ne_none_of_openSegmentsIn hopen' hname (by rw [h, if_pos hobsolete])

/-- Where no segment is severed, recovery is non-destructive and idempotent, whatever it throws. -/
theorem sparesAndRepeats_of_not_severed (hlive : ¬Severed f) (E : Error → Prop) :
    SparesAndRepeats E f := by
  intro listing again log sched hfail
  have hspec := @spec_recover_finds Unit sched f () hfail listing () ⟨⟨f, log⟩, sched⟩ ⟨rfl, rfl⟩
    (List.suffix_refl _)
  constructor
  · intro e s w hrun _
    rw [hrun] at hspec
    exact hspec.2.2.spares hlive
  · intro r s w hrun sched' hfail' hcrash'
    rw [hrun] at hspec
    obtain ⟨⟨rfl, hrec, hrecovered⟩, -⟩ := hspec
    have hlive' : ¬MistakesLive r.manifest.segmentFiles := fun hmistakes ↦ by
      obtain ⟨physical, hload, hopen, -, -⟩ := of_recoverIn hrec
      exact hlive ⟨r.manifest, _, hload, hopen, hmistakes⟩
    have hreads := reads_recover_recovered (σ := Unit) (S := sched') again hrec hrecovered hlive' ()
      ⟨w.toDisk, sched'⟩ rfl (List.suffix_refl _)
    revert hreads
    rcases recover again ((), ⟨w.toDisk, sched'⟩) with ⟨r', s', w'⟩ | ⟨e | -, s', w'⟩
    · rintro ⟨⟨hr, rfl, hd⟩, -⟩
      obtain rfl := Except.ok.inj hr
      have hd' : w'.toDisk = w.toDisk := hd
      exact ⟨w'.sched, by rw [← hd']⟩
    · rintro ⟨he | hS, -⟩
      · cases he
      · exact absurd hS.1 hfail'
    · exact fun hc ↦ absurd hc.1 hcrash'

/-- Where recovery cannot return and throws none of the exceptions, nothing is asked of it. -/
theorem sparesAndRepeats_of_recoverIn {E : Error → Prop} {e : Error} (hrec : recoverIn f = .error e)
    (he : ¬E e) : SparesAndRepeats E f := by
  intro listing again log sched hfail
  have hspec := @spec_recover_finds Unit sched f () hfail listing () ⟨⟨f, log⟩, sched⟩ ⟨rfl, rfl⟩
    (List.suffix_refl _)
  constructor
  · intro e' s w hrun hE
    rw [hrun] at hspec
    obtain ⟨-, hrec', -⟩ := hspec
    obtain rfl := Except.error.inj (hrec.symm.trans hrec')
    exact absurd hE he
  · intro r s w hrun
    rw [hrun] at hspec
    obtain ⟨⟨-, hrec', -⟩, -⟩ := hspec
    rw [hrec] at hrec'
    cases hrec'

/-- **A severed directory** is damaged by a recovery that throws, and one that succeeds does not
succeed again. What is left is an exception that is none of `E`. -/
theorem Severed.recoverIn {E : Error → Prop} (hsevered : Severed f) (h : SparesAndRepeats E f) :
    ∃ e, ChronoStore.recoverIn f = .error e ∧ ¬E e := by
  obtain ⟨hspares, hrepeats⟩ := h Listing.sorted Listing.sorted [] [] not_failing_nil
  have hspec := @spec_recover_finds Unit [] f () not_failing_nil Listing.sorted ()
    ⟨⟨f, []⟩, []⟩ ⟨rfl, rfl⟩ (List.suffix_refl _)
  revert hspec hspares hrepeats
  rcases recover Listing.sorted ((), ⟨⟨f, []⟩, []⟩) with ⟨r, s, w⟩ | ⟨e | -, s, w⟩
  · rintro - hrepeats ⟨⟨rfl, hrec, hrecovered⟩, -⟩
    obtain ⟨rest, hagain⟩ := hrepeats r () w rfl [] not_failing_nil not_crashing_nil
    have hspec' := @spec_recover_finds Unit [] w.files () not_failing_nil Listing.sorted ()
      ⟨w.toDisk, []⟩ ⟨rfl, rfl⟩ (List.suffix_refl _)
    rw [hagain] at hspec'
    exact absurd hspec'.1.2.1 (hrecovered.not_recovers hrec hsevered)
  · rintro hspares - ⟨-, hrec, habandoned⟩
    exact ⟨e, hrec, fun hE ↦ habandoned.not_spares hsevered (hspares e s w rfl hE)⟩
  · rintro - - ⟨hcrash, -⟩
    exact absurd hcrash not_crashing_nil

/-- **When recovery is non-destructive and idempotent**, whatever the directory holds. For every
exception it is so exactly when no listed segment is opened under a name that the clean-up takes for
an orphan; a listed name without a NUL byte is opened under itself, and is none. For the format
errors alone there is one more case: the severed segment is missed by the replay already, which
throws another exception. -/
theorem recover_spares_and_repeats (f : Directory) :
    (SparesAndRepeats Error.IsFormat f ↔ ¬Severed f ∨ Interrupted f) ∧
      (SparesAndRepeats (fun _ ↦ True) f ↔ ¬Severed f) := by
  refine ⟨⟨fun h ↦ ?_, ?_⟩, fun h hsevered ↦ ?_,
    fun hlive ↦ sparesAndRepeats_of_not_severed hlive _⟩
  · refine or_iff_not_imp_left.2 fun hsevered ↦ ?_
    rw [not_not] at hsevered
    obtain ⟨e, hrec, he⟩ := hsevered.recoverIn h
    obtain ⟨manifest, ⟨segments, physical⟩, hload, hopen, -⟩ := hsevered
    exact interrupted_of_recoverIn hload hopen hrec he
  · rintro (hlive | hinterrupted)
    · exact sparesAndRepeats_of_not_severed hlive _
    · obtain ⟨e, hrec, he⟩ := hinterrupted.recoverIn
      exact sparesAndRepeats_of_recoverIn hrec he
  · obtain ⟨e, -, he⟩ := hsevered.recoverIn h
    exact he trivial

/-- A directory with one segment and no log. The manifest calls the segment by a name that need not
be the one of its file. -/
structure OneSegment (f : Directory) (name : Bytes) (blocks : List SegmentBlock) : Prop where
  accepted : SegmentAccepts blocks
  valid : validSegmentFilename name = true
  short : name.length ≤ 255
  pos : 0 < countSamples blocks
  small : countSamples blocks < 2 ^ 64
  manifest : f.find? manifestName = some (manifestBytes ⟨1, countSamples blocks, [name]⟩)
  segment : f.find? (cString name) = some (segmentBytes blocks)
  wal : f.find? walName = none

namespace OneSegment

variable {name : Bytes} {blocks : List SegmentBlock} (h : OneSegment f name blocks)

include h

theorem loadManifestIn : ChronoStore.loadManifestIn f = .ok ⟨1, countSamples blocks, [name]⟩ := by
  have hshort := h.short
  refine loadManifestIn_of_decodes h.manifest (decodeManifest_manifestBytes
    ⟨?_, List.forall_mem_singleton.2 h.valid, List.nodup_singleton _, ?_⟩ ?_ h.small)
  · show 1 ≤ maxManifestSegments
    decide
  · rw [manifestPayload, List.flatMap_singleton, length_stringBytes]
    unfold maxManifestPayloadSize
    omega
  · show 1 < 2 ^ 64
    decide

theorem openSegmentsIn : ChronoStore.openSegmentsIn f [name] =
    .ok ([SegmentReader.of name blocks], countSamples blocks) := by
  have hopen : openSegmentIn f name = .ok (SegmentReader.of name blocks) := by
    rw [openSegmentIn, h.segment]
    exact open_segmentBytes h.accepted name
  have hcount : (SegmentReader.of name blocks).sampleCount = countSamples blocks := rfl
  rw [ChronoStore.openSegmentsIn, List.foldlM_cons, hopen]
  show Except.ok ([SegmentReader.of name blocks],
    addU64 0 (SegmentReader.of name blocks).sampleCount) = _
  rw [hcount, addU64, Nat.zero_add, Nat.mod_eq_of_lt h.small]

/-- It recovers to this segment and an empty table. -/
theorem recoverIn : ChronoStore.recoverIn f = .ok ⟨.empty, ⟨1, countSamples blocks, [name]⟩,
    [SegmentReader.of name blocks], countSamples blocks, 0⟩ := by
  rw [ChronoStore.recoverIn, h.loadManifestIn]
  dsimp only [bind, Except.bind]
  rw [h.openSegmentsIn]
  dsimp only
  rw [if_neg (by simp), h.wal]
  rfl

end OneSegment

/-- A name whose part in front of the NUL byte is the first segment's. -/
def severedName : Bytes := segmentFilename 1 ++ 0 :: ascii ".cst"

/-- A directory whose manifest lists that name, and that holds the file it is opened as. -/
def severedDirectory : Directory :=
  (OrderedMap.empty.insert manifestName (manifestBytes ⟨1, 4, [severedName]⟩)).insert
    (segmentFilename 1) (segmentBytes storedBlocks)

theorem oneSegment_severedDirectory : OneSegment severedDirectory severedName storedBlocks where
  accepted := segmentAccepts_storedBlocks
  valid := by decide +kernel
  short := by decide +kernel
  pos := by decide
  small := by decide
  manifest := by
    rw [severedDirectory, OrderedMap.find?_insert, if_neg (by decide +kernel),
      OrderedMap.find?_insert, if_pos rfl]
    rfl
  segment := by
    rw [show cString severedName = segmentFilename 1 by decide +kernel, severedDirectory,
      OrderedMap.find?_insert, if_pos rfl]
  wal := by
    rw [severedDirectory, OrderedMap.find?_insert, if_neg (by decide +kernel),
      OrderedMap.find?_insert, if_neg (by decide +kernel)]
    rfl

/-- Recovery succeeds there, and the one segment that the manifest lists is gone. -/
theorem recover_unlinks_live :
    (∃ r w', recover Listing.sorted ((), ⟨⟨severedDirectory, []⟩, []⟩) = .ok r ((), w') ∧
        r.segments.length = 1 ∧ severedDirectory.find? (segmentFilename 1) ≠ none ∧
        w'.files.find? (segmentFilename 1) = none) ∧
      ¬SparesAndRepeats Error.IsFormat severedDirectory := by
  have hone := oneSegment_severedDirectory
  have hcut : cString severedName = segmentFilename 1 := by decide +kernel
  have hfile : severedDirectory.find? (segmentFilename 1) = some (segmentBytes storedBlocks) :=
    hcut ▸ hone.segment
  have hobsolete : isObsolete [severedName] (segmentFilename 1) = true := by decide +kernel
  have hsevered : Severed severedDirectory :=
    ⟨_, _, hone.loadManifestIn, hone.openSegmentsIn, severedName, List.mem_singleton_self _,
      hcut.symm ▸ hobsolete⟩
  constructor
  · obtain ⟨r, _, w', hrun, -, hr, hrecovered⟩ :=
      ((@spec_recover_finds Unit [] severedDirectory () not_failing_nil Listing.sorted).conseq
        (fun _ _ ↦ id) (fun _ _ _ ↦ id) (by
          rintro e s d ⟨-, he, -⟩
          rw [hone.recoverIn] at he
          cases he) fun _ ↦ id).returns not_crashing_nil (w := ⟨⟨severedDirectory, []⟩, []⟩)
            ⟨rfl, rfl⟩
        (List.suffix_refl _)
    obtain rfl := Except.ok.inj (hone.recoverIn.symm.trans hr)
    exact ⟨_, w', hrun, rfl, by simp [hfile], by rw [hrecovered, if_pos hobsolete]⟩
  · intro h
    obtain ⟨e, he, -⟩ := hsevered.recoverIn h
    rw [hone.recoverIn] at he
    cases he

/-- Recovery of one record with a torn record behind it, twice. -/
theorem recover_spares_and_repeats_torn :
    ∃ r w', recover Listing.sorted ((), tornLog) = .ok r ((), w') ∧
      r.memtable = MemTable.empty.put cpuRecord.series cpuRecord.sample ∧ r.walSize = 45 ∧
      ∃ rest, recover Listing.sorted ((), ⟨w'.toDisk, []⟩) = .ok r ((), ⟨w'.toDisk, rest⟩) := by
  have hdec : decodeWalRecord (walFrame cpuRecord) =
      ⟨some cpuRecord, .none, (walFrame cpuRecord).length⟩ := by decide +kernel
  have hone : WalDecodes (walFrame cpuRecord ++ []) [cpuRecord] := .cons hdec .nil
  rw [List.append_nil] at hone
  have hlen : (walFrame cpuRecord).length = 45 := by decide +kernel
  have hwal : tornLog.files.find? walName = some (walFrame cpuRecord ++ [0x43]) := by
    rw [tornLog, OrderedMap.find?_insert, if_pos rfl]
  have hload : loadManifestIn tornLog.files = .ok {} := by
    rw [loadManifestIn, tornLog, OrderedMap.find?_insert, if_neg (by decide)]
    rfl
  have hrec : recoverIn tornLog.files =
      .ok ⟨MemTable.empty.put cpuRecord.series cpuRecord.sample, {}, [], 1, 45⟩ := by
    rw [recoverIn, hload]
    dsimp only [bind, Except.bind, openSegmentsIn, List.foldlM_nil, pure, Except.pure]
    rw [hwal]
    dsimp only
    rw [replayIn,
      replayStream_of_walDecodes (by decide) _ hone (show IncompleteTail [0x43] from rfl), hlen]
    rfl
  have hrun := @spec_recover_finds Unit [] tornLog.files () not_failing_nil Listing.sorted
  rw [hrec] at hrun
  obtain ⟨r, _, w', hreturns, -, hr, -⟩ := (hrun.conseq (fun _ _ ↦ id) (fun _ _ _ ↦ id) (by
    rintro e s d ⟨-, he, -⟩
    cases he) fun _ ↦ id).returns not_crashing_nil (w := tornLog) ⟨rfl, rfl⟩ (List.suffix_refl _)
  obtain rfl := Except.ok.inj hr
  -- a directory without a manifest lists no segment
  have hlive : ¬Severed tornLog.files := by
    rintro ⟨manifest, opened, hload', -, name, hname, -⟩
    rw [hload] at hload'
    rw [← Except.ok.inj hload'] at hname
    cases hname
  have hspares := (recover_spares_and_repeats tornLog.files).2.2 hlive Listing.sorted Listing.sorted
    [] [] not_failing_nil
  exact ⟨_, w', hreturns, rfl, rfl, hspares.2 _ _ _ hreturns [] not_failing_nil not_crashing_nil⟩

end ChronoStore
