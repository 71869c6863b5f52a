import ChronoStore.Protocol.Logging

/-!
# Recovery follows the protocol

Recovery reads the meaning of the directory, removes what nothing names, and cuts off the tail of
the log. What it computes is determined by the catalog and the records of the log (`recoveryOf`),
and so is the engine built from it (`engineOf`). It throws only where a call fails.
-/

namespace ChronoStore

open FaultyDisk WriteHistory

/-- What recovery computes. -/
def recoveryOf (c : Catalog) (log : WalLog) : RecoveryState where
  memtable := .ofRecords log.records
  manifest := c.manifest
  segments := c.layers.map Layer.reader
  logicalSampleCount := (keys (c.entries ++ log.entries)).card
  walSize := log.bytes.length

/-- The engine that means what a catalog and a log mean. -/
def engineOf (c : Catalog) (log : WalLog) (durability : WalDurability) : StorageEngine where
  memtable := .ofRecords log.records
  manifest := c.manifest
  segments := c.layers.map Layer.reader
  walWriter := ⟨durability, log.bytes.length, false⟩
  logicalSampleCount := (keys (c.entries ++ log.entries)).card
  failed := false

/-- What recovery removes is a segment that the manifest does not name. -/
theorem isObsolete_spec {c : Catalog} {name : Bytes}
    (h : isObsolete c.manifest.segmentFiles name = true) :
    IsSegmentName name ∧ name ∉ c.manifest.segmentFiles := by
  have hext : ∀ name ∈ c.manifest.segmentFiles, extension name = ascii ".cst" := by
    intro name hname
    have := c.accepts.valid name hname
    simp only [validSegmentFilename, decide_eq_true_eq] at this
    exact this.2.2.2
  simp only [isObsolete, Bool.or_eq_true, Bool.and_eq_true, decide_eq_true_eq, Bool.not_eq_true',
    List.contains_eq_mem, decide_eq_false_iff_not, List.isPrefixOf_iff_prefix] at h
  rcases h with ⟨⟨-, hpre⟩, hdead⟩ | ⟨hpre, htmp⟩
  · exact ⟨hpre, hdead⟩
  · refine ⟨hpre, fun hmem ↦ ?_⟩
    rw [hext name hmem] at htmp
    exact absurd htmp (by decide)

variable {o : Origin} {σ : Type} {S : List Event} {T : Catalog → Option WalLog → Prop} {s₀ : σ}
  {R : Error → Prop} {c : Catalog} {log : Option WalLog}

section Recover

/-- A removal that may fail unnoticed. -/
theorem spec_tryRemove {name : Bytes} (hname : IsSegmentName name)
    (hdead : name ∉ c.manifest.segmentFiles) (ht : T c log) :
    Spec S (Here o ⟨c, log, none, .idle⟩ s₀) (Act.tryStep (.remove name))
      (fun _ ↦ Here o ⟨c, log, none, .idle⟩ s₀) (Throws o S T R) (Reaches o T) := by
  have hmove : Move ⟨c, log, none, .idle⟩ (.remove name) ⟨c, log, none, .idle⟩ :=
    .removeFile hname hdead
  have hpart : ∀ d n, At o d ⟨c, log, none, .idle⟩ →
      At o (d.performAll (Step.truncated n (.remove name))) ⟨c, log, none, .idle⟩ := by
    intro d n hat
    rcases Step.truncated_eq (s := (.remove name : Step Bytes UInt8)) (by simp) n with heq | heq
    · rw [heq]
      exact hat
    · rw [heq]
      exact hat.perform hmove
  refine Spec.tryStep ?_ ?_ ?_
  · rintro s d ⟨rfl, hat⟩
    exact ⟨rfl, hat.perform hmove⟩
  · rintro s d n - ⟨rfl, hat⟩
    exact ⟨rfl, hpart d n hat⟩
  · rintro s d n ⟨rfl, hat⟩
    exact (hpart d n hat).atSome (.idle ht)

/-- **The clean-up** does not change the meaning of the directory. -/
theorem spec_removeObsolete (listing : Listing) (ht : T c log) :
    Spec S (Here o ⟨c, log, none, .idle⟩ s₀) (removeObsolete listing c.manifest.segmentFiles)
      (fun _ ↦ Here o ⟨c, log, none, .idle⟩ s₀) (Throws o S T R) (Reaches o T) := by
  have hlist : Spec S (Here o ⟨c, log, none, .idle⟩ s₀)
      (Act.list (.systemError "failed to inspect database directory"))
      (fun _ ↦ Here o ⟨c, log, none, .idle⟩ s₀) (Throws o S T R) (Reaches o T) := by
    refine Spec.bind (Spec.call trivial (.idle ht)) fun _ ↦ ?_
    exact Spec.bind (Spec.files (R := fun _ ↦ Here o ⟨c, log, none, .idle⟩ s₀) fun _ _ h ↦ h)
      fun _ ↦ Spec.pure fun _ _ h ↦ h
  refine Spec.bind hlist fun names ↦ ?_
  refine Spec.forM (fun _ ↦ Here o ⟨c, log, none, .idle⟩ s₀) fun _ name _ _ ↦ ?_
  dsimp only
  split
  · rename_i hobsolete
    obtain ⟨hname, hdead⟩ := isObsolete_spec hobsolete
    exact Spec.bind (spec_tryRemove hname hdead ht) fun _ ↦ Spec.call trivial (.idle ht)
  · exact Spec.call trivial (.idle ht)

/-- **Recovery computes the meaning of the directory**, and throws only where a call fails. -/
theorem spec_recover (listing : Listing)
    (ht : ∀ log', recordsOf log' = recordsOf log → AsDurable log log' → T c log') :
    Spec S (Here o ⟨c, log, none, .idle⟩ s₀) (recover listing)
      (fun r s d ↦ ∃ log' : WalLog, log'.records = recordsOf log ∧ log'.tail = [] ∧
        AsDurable log (some log') ∧ r = recoveryOf c log' ∧
          Here o ⟨c, some log', none, .idle⟩ s₀ s d)
      (Throws o S T R) (Reaches o T) := by
  have ht₀ : T c log := ht log rfl (.refl _)
  have hmanifest : Reads S Error.IsIo (fun f ↦ Holds f ⟨c, log, none, .idle⟩)
      (loadManifest : Prog σ _) (.ok c.manifest) := by
    refine Reads.of_forall fun f hf ↦ reads_loadManifest ?_
    rcases hf.manifest_file with ⟨hnone, hc⟩ | hsome
    · refine Or.inl ⟨fun g hg ↦ hg ▸ hnone, ?_⟩
      exact congrArg Catalog.manifest hc
    · exact Or.inr ⟨fun g hg ↦ hg ▸ hsome, c.accepts, c.generation_lt, c.logicalSampleCount_lt⟩
  have hopen : Reads S Error.IsIo (fun f ↦ Holds f ⟨c, log, none, .idle⟩)
      (openSegments c.manifest.segmentFiles : Prog σ _)
      (.ok (c.layers.map Layer.reader, c.entries.length)) := by
    rw [← c.physicalSamples]
    exact reads_openSegments fun f hf l hl ↦ hf.layer_files l hl
  have hcount : ¬(c.manifest.logicalSampleCount > c.entries.length ∨
      (c.layers.map Layer.reader).isEmpty = true ∧ c.manifest.logicalSampleCount ≠ 0) := by
    have hle : c.manifest.logicalSampleCount ≤ c.entries.length := card_keys_le_length _
    rintro (hlt | ⟨hempty, hne⟩)
    · omega
    · rw [List.isEmpty_iff, List.map_eq_nil_iff] at hempty
      refine hne (Nat.le_zero.1 (hle.trans ?_))
      rw [Catalog.entries, hempty]
      exact le_refl 0
  refine Spec.bind (Spec.look hmanifest (.idle ht₀)) fun manifest ↦ Spec.assume fun hm ↦ ?_
  subst hm
  refine Spec.bind (Spec.look hopen (.idle ht₀)) fun opened ↦ Spec.assume fun hop ↦ ?_
  subst hop
  refine Spec.bind (spec_removeObsolete listing ht₀) fun _ ↦ ?_
  dsimp only
  rw [if_neg hcount]
  have hlookup : Reads S Error.IsIo (fun f ↦ Holds f ⟨c, log, none, .idle⟩)
      (Act.lookup walName (.systemError "failed to inspect WAL") : Prog σ _)
      (.ok (log.map WalLog.bytes)) := Reads.lookup trivial fun f hf ↦ hf.wal_file
  refine Spec.bind (Spec.look hlookup (.idle ht₀)) fun content ↦ Spec.assume fun hc ↦ ?_
  subst hc
  cases log with
  | none =>
    have hempty : AsDurable none (some WalLog.empty) := ⟨Nat.zero_le _, fun _ ↦ False.elim⟩
    refine Spec.bind (spec_createWal .buffered ht₀ (ht _ rfl hempty)) fun writer ↦
      Spec.assume fun hw ↦ ?_
    subst hw
    refine Spec.bind (spec_runHere (spec_syncWal _ _ rfl (Or.inl rfl)
      (.idle (ht _ rfl hempty)) (.idle (ht _ rfl (hempty.trans (.synchronized _)))))) fun _ ↦
        Spec.pure fun s d h ↦ ?_
    refine ⟨WalLog.empty.synchronized, rfl, rfl, hempty.trans (.synchronized _), ?_, h⟩
    rw [recoveryOf, show WalLog.empty.synchronized.entries = [] from rfl, List.append_nil]
    rfl
  | some log =>
    have hreplay := reads_replayWal_ok (σ := σ) (S := S)
      (F := fun f ↦ Holds f ⟨c, some log, none, .idle⟩)
      (reads_replayRecord fun f hf l hl ↦ hf.layer_files l hl) log.accepted log.incomplete
      (fun f hf ↦ hf.wal_file) (MemTable.empty, c.manifest.logicalSampleCount)
    rw [show c.manifest.logicalSampleCount = (keys (layeredEntries c.layers)).card from rfl,
      foldl_replayedRecord c.layers log.records (Nat.lt_of_succ_lt (c.length_add_length_lt log))]
        at hreplay
    refine Spec.bind (Spec.look hreplay (.idle ht₀)) fun replayed ↦ Spec.assume fun hr ↦ ?_
    subst hr
    refine Spec.bind (spec_repairWalTail _ ht₀ (ht _ rfl ⟨le_refl _, fun _ ↦ id⟩)
      (ht _ rfl ⟨log.synced_le, fun _ ↦ False.elim⟩)) fun _ ↦ Spec.pure ?_
    rintro s d ⟨log', hrec, htail, hsync, hhere⟩
    refine ⟨log', hrec, htail, hsync, ?_, hhere⟩
    rw [recoveryOf, WalLog.entries, WalLog.bytes, hrec, htail, List.append_nil]
    rfl

/-- **Opening the store** gives the engine of the directory. -/
theorem spec_open (listing : Listing) (durability : WalDurability)
    (ht : ∀ log', recordsOf log' = recordsOf log → AsDurable log log' → T c log') :
    Spec S (Here o ⟨c, log, none, .idle⟩ s₀) (StorageEngine.open listing durability)
      (fun e s d ↦ ∃ log' : WalLog, log'.records = recordsOf log ∧ log'.tail = [] ∧
        AsDurable log (some log') ∧ e = engineOf c log' durability ∧
          Here o ⟨c, some log', none, .idle⟩ s₀ s d)
      (Throws o S T R) (Reaches o T) := by
  refine Spec.bind (spec_recover listing ht) fun recovered ↦ Spec.exists_pre fun log' ↦
    Spec.assume fun hrec ↦ Spec.assume fun htail ↦ Spec.assume fun hsync ↦ Spec.assume fun hr ↦ ?_
  subst hr
  refine Spec.bind (spec_openWal durability (.idle (ht _ hrec hsync))) fun writer ↦
    Spec.assume fun hw ↦ ?_
  subst hw
  rw [if_neg (by simp [recoveryOf])]
  exact Spec.pure fun s d h ↦ ⟨log', hrec, htail, hsync, rfl, h⟩

end Recover

end ChronoStore
