import ChronoStore.Protocol.Publication
import ChronoStore.Protocol.Recovery
import ChronoStore.Protocol.Tracking

/-!
# The operations of the engine follow the protocol

An engine is `Usable` for a history when it is the engine of a catalog and a log that track it, on a
disk at the stage that says so. Each operation is specified by what it makes of a usable engine.
-/

namespace ChronoStore

open FaultyDisk WriteHistory

/-! ### Usable engines -/

/-- The engine is usable and stands for the history. -/
def Usable (o : Origin) (history : List WalPutRecord) (n : ℕ) (durability : WalDurability)
    (e : StorageEngine) (d : Disk Bytes UInt8) : Prop :=
  ∃ (c : Catalog) (log : WalLog), log.tail = [] ∧ Tracks history n c (some log) ∧
    Here o ⟨c, some log, none, .idle⟩ (engineOf c log durability) e d

section Engine

variable {o : Origin} {S : List Event} {P : Stage → Prop} {R : Error → Prop}
  {c : Catalog} {log : WalLog} {st : Stage} {e₀ : StorageEngine} {durability : WalDurability}

/-- A program at a usable engine may be specified at its catalog and log. -/
theorem Spec.usable {α : Type} {m : Prog StorageEngine α} {history : List WalPutRecord} {n : ℕ}
    {Q : α → StorageEngine → Disk Bytes UInt8 → Prop}
    {E : Error → StorageEngine → Disk Bytes UInt8 → Prop} {C : Disk Bytes UInt8 → Prop}
    (h : ∀ (c : Catalog) (log : WalLog), log.tail = [] → Tracks history n c (some log) →
      e₀ = engineOf c log durability →
        Spec S (Here o ⟨c, some log, none, .idle⟩ (engineOf c log durability)) m Q E C) :
    Spec S (fun e d ↦ e = e₀ ∧ Usable o history n durability e d) m Q E C := by
  rintro e w ⟨rfl, c, log, htail, htracks, heq, hat⟩ hs
  exact h c log htail htracks heq e w ⟨heq, hat⟩ hs

/-- How a guarded part throws: the engine is poisoned. -/
def PoisonsAt (o : Origin) (S : List Event) (P : Stage → Prop) (R : Error → Prop) (err : Error)
    (e : StorageEngine) (d : Disk Bytes UInt8) : Prop :=
  e.failed = true ∧ ThrowsAt o S P R err e d

/-- How a guarded part throws where catalog and log satisfy `T`. -/
abbrev Poisons (o : Origin) (S : List Event) (T : Catalog → Option WalLog → Prop)
    (R : Error → Prop) :
    Error → StorageEngine → Disk Bytes UInt8 → Prop :=
  PoisonsAt o S (Stage.Is T) R

/-- A usable engine passes the check. -/
theorem spec_usable (h₀ : e₀.failed = false)
    {E : Error → StorageEngine → Disk Bytes UInt8 → Prop} {C : Disk Bytes UInt8 → Prop} :
    Spec S (Here o st e₀) StorageEngine.ensureUsable (fun _ ↦ Here o st e₀) E C := by
  refine Spec.bind (Spec.state (R := fun e e' d ↦ e.failed = false ∧ Here o st e₀ e' d)
    fun e d h ↦ ⟨h.1 ▸ h₀, h⟩) fun e ↦ Spec.assume fun he ↦ ?_
  rw [he]
  exact Spec.pure fun _ _ h ↦ h

/-- An exception that passes a `try` block poisons the engine. -/
theorem spec_guarded {α : Type} {A : StorageEngine → Disk Bytes UInt8 → Prop}
    {m : Prog StorageEngine α} {Q : α → StorageEngine → Disk Bytes UInt8 → Prop}
    {C : Disk Bytes UInt8 → Prop} (h : Spec S A m Q (ThrowsAt o S P R) C) :
    Spec S A (StorageEngine.guarded m) Q (PoisonsAt o S P R) C :=
  Spec.onException (h.conseq (fun _ _ ↦ id) (fun _ _ _ ↦ id) (fun _ _ _ he ↦ ⟨rfl, he⟩) fun _ ↦ id)

/-- Running the writer of the engine. -/
theorem spec_onWriter {m : Prog WalWriter Unit} {P : WalWriter → Disk Bytes UInt8 → Prop}
    {E : Error → Disk Bytes UInt8 → Prop} {C : Disk Bytes UInt8 → Prop}
    (h : Spec S (Here o st e₀.walWriter) m (fun _ ↦ P) (fun err _ d ↦ E err d) C) :
    Spec S (Here o st e₀) (StorageEngine.onWriter m)
      (fun _ e d ↦ ∃ w, e = { e₀ with walWriter := w } ∧ P w d) (fun err _ d ↦ E err d) C := by
  refine Spec.zoom fun e ↦ ?_
  refine (Spec.assume (P := e = e₀) (A := Here o st e₀.walWriter) fun he ↦
    h.conseq (fun _ _ ↦ id) ?_ (fun _ _ _ h ↦ h) fun _ ↦ id).pre ?_
  · rintro _ w d hP
    exact ⟨w, by rw [he], hP⟩
  · rintro w d ⟨rfl, rfl, hat⟩
    exact ⟨rfl, rfl, hat⟩

section Operations

/-- The engine holds what it held. -/
structure StorageEngine.SameContents (e₀ e : StorageEngine) : Prop where
  memtable_eq : e.memtable = e₀.memtable
  manifest_eq : e.manifest = e₀.manifest
  segments_eq : e.segments = e₀.segments

/-- Synchronizing the log of the engine. -/
theorem spec_syncEngine {history : List WalPutRecord} {n : ℕ} (htail : log.tail = [])
    (htracks : Tracks history n c (some log)) :
    Spec S (Here o ⟨c, some log, none, .idle⟩ (engineOf c log durability))
      (StorageEngine.guarded (StorageEngine.onWriter WalWriter.sync))
      (fun _ e d ↦ (engineOf c log durability).SameContents e ∧
        Usable o history history.length durability e d)
      (Poisons o S (Tracks history n) R) (Reaches o (Tracks history n)) := by
  have htracks' : Tracks history n c (some log.synchronized) :=
    htracks.of_log rfl (.synchronized log)
  have hsync := spec_syncWal (o := o) (S := S) (P := Stage.Is (Tracks history n))
    (R := R) none .idle
    (w := (engineOf c log durability).walWriter) rfl (Or.inl rfl) (.idle htracks) (.idle htracks')
  refine (spec_guarded (spec_onWriter (E := fun err d ↦ Throws o S (Tracks history n) R err () d)
    hsync)).post ?_
  rintro _ e d ⟨w, rfl, rfl, hat⟩
  exact ⟨⟨rfl, rfl, rfl⟩, c, log.synchronized, htail,
    htracks'.synchronized log.durable_synchronized, rfl, hat⟩

/-- **`sync`.** -/
theorem spec_sync {history : List WalPutRecord} {n : ℕ} (e₀ : StorageEngine) :
    Spec S (fun e d ↦ e = e₀ ∧ Usable o history n durability e d) StorageEngine.sync
      (fun _ e d ↦ e₀.SameContents e ∧ Usable o history history.length durability e d)
      (Poisons o S (Tracks history n) R) (Reaches o (Tracks history n)) := by
  refine Spec.usable fun c log htail htracks he ↦ ?_
  subst he
  exact Spec.bind (spec_usable rfl) fun _ ↦ spec_syncEngine htail htracks

/-- What a call that may do its puts leaves behind. -/
def MayPut (history more : List WalPutRecord) (n : ℕ) (st : Stage) : Prop :=
  st.Is (Tracks history n) ∨ st.Is (Tracks (history ++ more) n)

/-- The record fits the limits of the encoder and of the log. -/
def StorageEngine.Loggable (e : StorageEngine) (r : WalPutRecord) : Prop :=
  WalAccepts r ∧ e.walWriter.sizeBytes + (walFrame r).length < 2 ^ 64

/-- The table has one more record, and the segments are the same. -/
structure StorageEngine.Grown (e₀ : StorageEngine) (r : WalPutRecord) (e : StorageEngine) :
    Prop where
  memtable_eq : e.memtable = e₀.memtable.put r.series r.sample
  manifest_eq : e.manifest = e₀.manifest
  segments_eq : e.segments = e₀.segments

/-- How a put throws: from its existence check with the engine as it was, from a failing call of the
append with the record possibly in the log, or because the record is refused. -/
def PutThrows (o : Origin) (S : List Event) (history : List WalPutRecord) (n : ℕ)
    (durability : WalDurability) (e₀ : StorageEngine) (r : WalPutRecord) (err : Error)
    (e : StorageEngine) (d : Disk Bytes UInt8) : Prop :=
  (Failing S ∧ err.IsIo) ∧ e = e₀ ∧ Usable o history n durability e d ∨
    e.failed = true ∧ ((Failing S ∧ err.IsIo) ∧ AtSome o (MayPut history [r] n) d ∨
      (¬e₀.Loggable r ∧ err.IsRefusal) ∧ Reaches o (Tracks history n) d)

/-- The existence check. -/
theorem spec_contains (series : SeriesKey) (t : Timestamp) :
    Spec S (Here o ⟨c, some log, none, .idle⟩ (engineOf c log durability))
      (StorageEngine.contains series t)
      (fun b e d ↦ b = (lastWrite (c.entries ++ log.entries) (series, t)).isSome ∧
        Here o ⟨c, some log, none, .idle⟩ (engineOf c log durability) e d)
      (fun err e d ↦ (Failing S ∧ err.IsIo) ∧
        Here o ⟨c, some log, none, .idle⟩ (engineOf c log durability) e d)
      (fun d ↦ At o d ⟨c, some log, none, .idle⟩) := by
  refine Spec.bind (Spec.state (R := fun e e' d ↦ e = engineOf c log durability ∧
    Here o ⟨c, some log, none, .idle⟩ (engineOf c log durability) e' d)
      fun e d h ↦ ⟨h.1, h⟩) fun e ↦ Spec.assume fun he ↦ ?_
  subst he
  have hreads := reads_containsAnywhere (σ := StorageEngine) (S := S)
    (F := fun f ↦ Holds f ⟨c, some log, none, .idle⟩)
    (fun f hf l hl ↦ hf.layer_files l hl) (MemTable.ofRecords log.records) series t
  refine Spec.reads hreads (fun e d h ↦ h.2.holds) ?_ ?_ fun e d h ↦ h.2
  · intro b e d hb h
    refine ⟨?_, h⟩
    rw [← Except.ok.inj hb, lastWrite_append, Option.isSome_or, MemTable.get_eq,
      MemTable.find_ofRecords, Option.isSome_map]
    rfl
  · rintro err e d (herr | herr) h
    · cases herr
    · exact ⟨herr, h⟩

/-- The guarded part of a put whose record is accepted. -/
theorem spec_putAccepted {history : List WalPutRecord} {n : ℕ} {r : WalPutRecord}
    (hacc : WalAccepts r) (htail : log.tail = [])
    (hfit : log.bytes.length + (walFrame r).length < 2 ^ 64)
    (htracks : Tracks history n c (some log)) :
    Spec S (Here o ⟨c, some log, none, .idle⟩ (engineOf c log durability))
      (do
        StorageEngine.onWriter (WalWriter.append r)
        Act.update fun e ↦ { e with memtable := e.memtable.put r.series r.sample }
        if (lastWrite (c.entries ++ log.entries) (r.series, r.sample.timestamp)).isSome then pure ()
        else Act.update fun e ↦ { e with logicalSampleCount := addU64 e.logicalSampleCount 1 })
      (fun _ e d ↦ (engineOf c log durability).Grown r e ∧
        Usable o (history ++ [r]) (if durability = .syncOnAppend then history.length + 1 else n)
          durability e d)
      (ThrowsAt o S (MayPut history [r] n) R) (AtSome o (MayPut history [r] n)) := by
  have happend := spec_appendWal (o := o) (S := S) (P := MayPut history [r] n)
    (R := R) none durability
    hacc htail hfit fun log' hrec hdurable ↦ hrec.imp (fun h ↦ .idle (htracks.of_log h hdurable))
      fun h ↦ .idle (htracks.put h hdurable)
  refine Spec.bind (spec_onWriter (E := fun err d ↦ ThrowsAt o S (MayPut history [r] n) R err () d)
    happend) fun _ ↦ ?_
  -- the rest only brings the table and the counter up to date
  have hcount := c.length_add_length_lt log
  have hle := card_keys_le_length (c.entries ++ log.entries)
  rw [List.length_append, WalLog.entries, List.length_map, ← WalLog.entries] at hle
  have hfinal : ∀ (w : WalWriter) (log' : WalLog) (d : Disk Bytes UInt8),
      log'.records = log.records ++ [r] → log'.tail = [] → AsDurable (some log) (some log') →
      (durability = .syncOnAppend → log'.Durable) →
      Here o ⟨c, some log', none, .idle⟩ ⟨durability, log'.bytes.length, false⟩ w d →
      Usable o (history ++ [r]) (if durability = .syncOnAppend then history.length + 1 else n)
        durability ⟨(MemTable.ofRecords log.records).put r.series r.sample, c.manifest,
          c.layers.map Layer.reader, w,
          if (lastWrite (c.entries ++ log.entries) (r.series, r.sample.timestamp)).isSome
          then (keys (c.entries ++ log.entries)).card
          else addU64 (keys (c.entries ++ log.entries)).card 1, false⟩ d := by
    rintro w log' d hrec htl hdurable hsynced ⟨rfl, hat⟩
    have hput : Tracks (history ++ [r]) n c (some log') := htracks.put hrec hdurable
    refine ⟨c, log', htl, ?_, ?_, hat⟩
    · split
      · have := hput.synchronized (hsynced ‹_›)
        rwa [List.length_append, List.length_singleton] at this
      · exact hput
    · have hentries : c.entries ++ log'.entries = (c.entries ++ log.entries) ++ [r.entry] := by
        rw [WalLog.entries, hrec, List.map_append, ← List.append_assoc]
        rfl
      rw [engineOf, hrec, MemTable.ofRecords_concat, hentries, card_keys_concat]
      congr 1
      show (if _ then _ else _) =
        if (lastWrite _ (r.series, r.sample.timestamp)).isSome then _ else _
      split
      · rfl
      · rw [addU64, Nat.mod_eq_of_lt (by omega)]
  refine Spec.bind (Q := fun _ e d ↦ ∃ w log', (log'.records = log.records ++ [r] ∧ log'.tail = [] ∧
      AsDurable (some log) (some log') ∧ (durability = .syncOnAppend → log'.Durable) ∧
      Here o ⟨c, some log', none, .idle⟩ ⟨durability, log'.bytes.length, false⟩ w d) ∧
      e = ⟨(MemTable.ofRecords log.records).put r.series r.sample, c.manifest,
          c.layers.map Layer.reader, w, (keys (c.entries ++ log.entries)).card, false⟩)
    (Spec.update ?_) fun _ ↦ ?_
  · rintro e d ⟨w, rfl, log', h⟩
    exact ⟨w, log', h, rfl⟩
  · split
    · rename_i hexists
      refine Spec.pure ?_
      rintro e d ⟨w, log', ⟨h₁, h₂, h₃, h₄, h₅⟩, rfl⟩
      have := hfinal w log' d h₁ h₂ h₃ h₄ h₅
      rw [if_pos hexists] at this
      exact ⟨⟨rfl, rfl, rfl⟩, this⟩
    · rename_i hexists
      refine Spec.update ?_
      rintro e d ⟨w, log', ⟨h₁, h₂, h₃, h₄, h₅⟩, rfl⟩
      have := hfinal w log' d h₁ h₂ h₃ h₄ h₅
      rw [if_neg hexists] at this
      exact ⟨⟨rfl, rfl, rfl⟩, this⟩

/-- **`put`.** -/
theorem spec_put {history : List WalPutRecord} {n : ℕ} (e₀ : StorageEngine) (series : SeriesKey)
    (sample : Sample) :
    Spec S (fun e d ↦ e = e₀ ∧ Usable o history n durability e d) (StorageEngine.put series sample)
      (fun _ e d ↦ e₀.Loggable ⟨series, sample⟩ ∧ e₀.Grown ⟨series, sample⟩ e ∧
        Usable o (history ++ [⟨series, sample⟩])
          (if durability = .syncOnAppend then history.length + 1 else n) durability e d)
      (PutThrows o S history n durability e₀ ⟨series, sample⟩)
      (AtSome o (MayPut history [⟨series, sample⟩] n)) := by
  refine Spec.usable fun c log htail htracks he ↦ ?_
  subst he
  refine Spec.bind (spec_usable rfl) fun _ ↦ ?_
  refine Spec.bind ((spec_contains series sample.timestamp).conseq (fun _ _ ↦ id) (fun _ _ _ ↦ id)
    ?_ ?_) fun alreadyExists ↦ Spec.assume fun hexists ↦ ?_
  · rintro err e d ⟨hS, hhere⟩
    exact Or.inl ⟨hS, hhere.1, c, log, htail, htracks, hhere⟩
  · intro d hat
    exact hat.atSome (Or.inl (.idle htracks))
  subst hexists
  by_cases hacc : (engineOf c log durability).Loggable ⟨series, sample⟩
  · refine (spec_guarded (spec_putAccepted (R := fun _ ↦ False) hacc.1 htail hacc.2
      htracks)).conseq (fun _ _ ↦ id) (fun _ _ _ h ↦ ⟨hacc, h⟩) ?_ fun _ ↦ id
    rintro err e d ⟨hfailed, hsome, hS | hfalse⟩
    · exact Or.inr ⟨hfailed, Or.inl ⟨hS, hsome⟩⟩
    · exact hfalse.elim
  · have hrefused := spec_appendWal_refused (S := S) (o := o) ⟨c, some log, none, .idle⟩
      (r := ⟨series, sample⟩) (w := (engineOf c log durability).walWriter) rfl
      (not_and_or.1 hacc) (Q := fun _ _ _ ↦ False)
      (C := AtSome o (MayPut history [⟨series, sample⟩] n))
    refine Spec.onException (Spec.bind (Q := fun _ _ _ ↦ False) ((spec_onWriter
      (E := fun err d ↦ err.IsRefusal ∧ At o d ⟨c, some log, none, .idle⟩) (hrefused.conseq
        (fun _ _ ↦ id) (fun _ _ _ ↦ id) (fun _ _ _ h ↦ ⟨h.1, h.2.2⟩) fun _ ↦ id)).conseq
          (fun _ _ ↦ id) ?_ ?_ fun _ ↦ id) fun _ ↦ fun _ _ h ↦ h.elim)
    · rintro _ e d ⟨w, -, hfalse⟩
      exact hfalse
    · rintro err e d ⟨herr, hat⟩
      exact Or.inr ⟨rfl, Or.inr ⟨⟨hacc, herr⟩, hat.atSome (.idle htracks)⟩⟩

end Operations

end Engine

end ChronoStore
