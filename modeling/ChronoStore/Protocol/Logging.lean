import ChronoStore.Protocol.Following

/-!
# Logging follows the protocol

The writer of the log and the repair of its tail, as moves. An append that is cut short leaves a log
with an incomplete tail, which recovery cuts off; an append that runs to its end leaves one more
record. There is nothing in between, because a proper prefix of a record is never taken for a
record.
-/

namespace ChronoStore

open FaultyDisk WriteHistory

variable {o : Origin} {σ : Type} {S : List Event} {T : Catalog → Option WalLog → Prop}
  {P : Stage → Prop} {R : Error → Prop} {c : Catalog} {log : WalLog} {ready : Option Layer}
  {phase : Phase}

/-! ### Appending a record -/

/-- The log after `done`, a prefix of the frame of `r`, was written behind it. -/
structure Appended (log : WalLog) (r : WalPutRecord) (done : Bytes) (log' : WalLog) : Prop where
  bytes_eq : log'.bytes = log.bytes ++ done
  synced_eq : log'.synced = log.synced
  older_eq : log'.older = log.older
  partly : done ≠ walFrame r → log'.records = log.records
  wholly : done = walFrame r → log'.records = log.records ++ [r] ∧ log'.tail = []

/-- An append that is under way has added its record or not. -/
theorem Appended.records {r : WalPutRecord} {done : Bytes} {log' : WalLog}
    (h : Appended log r done log') :
    log'.records = log.records ∨ log'.records = log.records ++ [r] := by
  by_cases hdone : done = walFrame r
  · exact Or.inr (h.wholly hdone).1
  · exact Or.inl (h.partly hdone)

/-- An append that is under way loses nothing. -/
theorem Appended.asDurable {r : WalPutRecord} {done : Bytes} {log' : WalLog}
    (h : Appended log r done log') : AsDurable (some log) (some log') :=
  ⟨h.synced_eq.ge, fun records hrecords ↦ by
    rw [olderOf, h.older_eq] at hrecords
    exact hrecords⟩

/-- Every prefix of the frame of an accepted record can be written behind a log without a tail. -/
theorem exists_appended {r : WalPutRecord} (hacc : WalAccepts r) (htail : log.tail = [])
    (hfit : log.bytes.length + (walFrame r).length < 2 ^ 64) {done : Bytes}
    (hdone : done <+: walFrame r) : ∃ log', Appended log r done log' := by
  have hlen := hdone.length_le
  have hbytes : log.bytes = walBytes log.records := by rw [WalLog.bytes, htail, List.append_nil]
  rw [hbytes] at hfit
  by_cases hall : done = walFrame r
  · have hwal : walBytes (log.records ++ [r]) = walBytes log.records ++ walFrame r := by
      simp [walBytes]
    refine ⟨⟨log.records ++ [r], [], log.synced, log.older, ?_, incompleteTail_nil, ?_, ?_⟩,
      ?_, rfl, rfl, fun h ↦ absurd hall h, fun _ ↦ ⟨rfl, rfl⟩⟩
    · intro r' hr'
      rcases List.mem_append.1 hr' with hr' | hr'
      · exact log.accepted r' hr'
      · exact List.mem_singleton.1 hr' ▸ hacc
    · rw [hwal, List.append_nil, List.length_append]
      exact hfit
    · rw [List.length_append]
      exact Nat.le_add_right_of_le log.synced_le
    · rw [hbytes, hall]
      exact (List.append_nil _).trans hwal
  · refine ⟨⟨log.records, done, log.synced, log.older, log.accepted,
      incompleteTail_of_cut hacc hdone hall, ?_, log.synced_le⟩, ?_, rfl, rfl, fun _ ↦ rfl,
      fun h ↦ absurd h hall⟩
    · rw [List.length_append]
      omega
    · rw [hbytes]
      rfl

/-- Writing on is a move. -/
theorem Appended.move {r : WalPutRecord} {done piece : Bytes} {log' log'' : WalLog}
    (h : Appended log r done log') (h' : Appended log r (done ++ piece) log'')
    (hpre : done ++ piece <+: walFrame r) :
    Move ⟨c, some log', ready, .idle⟩ (.append walName piece) ⟨c, some log'', ready, .idle⟩ := by
  refine .appendWal ?_ ?_ (h'.synced_eq.trans h.synced_eq.symm) (h'.older_eq.trans h.older_eq.symm)
  · rw [h'.bytes_eq, h.bytes_eq, List.append_assoc]
  · by_cases hdone : done = walFrame r
    · -- the frame is complete, so nothing is left to write
      have hlen := hpre.length_le
      rw [List.length_append, hdone] at hlen
      have hnil : piece = [] := List.length_eq_zero_iff.1 (by omega)
      rw [(h.wholly hdone).1, (h'.wholly (by rw [hnil, List.append_nil, hdone])).1]
    · rw [h.partly hdone]
      rcases h'.records with heq | heq
      · rw [heq]
      · rw [heq]
        exact List.prefix_append _ _

section Writer

/-- A usable writer passes the check. -/
theorem spec_walUsable {st : Stage} {w : WalWriter} (hw : w.failed = false)
    {E : Error → WalWriter → Disk Bytes UInt8 → Prop} {C : Disk Bytes UInt8 → Prop} :
    Spec S (Here o st w) WalWriter.ensureUsable (fun _ ↦ Here o st w) E C := by
  refine Spec.bind (Spec.state (R := fun s s' d ↦ s.failed = false ∧ Here o st w s' d)
    fun s d h ↦ ⟨h.1 ▸ hw, h⟩) fun s ↦ Spec.assume fun hs ↦ ?_
  rw [hs]
  exact Spec.pure fun _ _ h ↦ h

/-- Opening a log that is there. -/
theorem spec_openWal {s₀ : σ} (durability : WalDurability)
    (hst : P ⟨c, some log, ready, phase⟩) :
    Spec S (Here o ⟨c, some log, ready, phase⟩ s₀) (WalWriter.open durability)
      (fun w s d ↦ w = ⟨durability, log.bytes.length, false⟩ ∧
        Here o ⟨c, some log, ready, phase⟩ s₀ s d)
      (ThrowsAt o S P R) (AtSome o P) := by
  have hfile : ∀ f, Holds f ⟨c, some log, ready, phase⟩ → f.find? walName = some log.bytes :=
    fun f hf ↦ hf.wal_file
  refine Spec.look ?_ hst
  refine (Reads.openAppend trivial hfile).bind (g := fun _ ↦ .ok _) fun _ _ ↦ ?_
  refine (Reads.lookup (c := some log.bytes) trivial hfile).bind (g := fun _ ↦ .ok _)
    fun content hc ↦ ?_
  obtain rfl := Except.ok.inj hc
  exact Reads.pure _

/-- Opening a log that is not there creates it. -/
theorem spec_createWal {s₀ : σ} (durability : WalDurability) (ht : T c none)
    (ht' : T c (some .empty)) :
    Spec S (Here o ⟨c, none, none, .idle⟩ s₀) (WalWriter.open durability)
      (fun w s d ↦ w = ⟨durability, 0, false⟩ ∧ Here o ⟨c, some .empty, none, .idle⟩ s₀ s d)
      (Throws o S T R) (Reaches o T) := by
  have hcreate : Spec S (Here o ⟨c, none, none, .idle⟩ s₀)
      (Act.openAppend walName (.systemError "failed to open WAL"))
      (fun _ ↦ Here o ⟨c, some .empty, none, .idle⟩ s₀) (Throws o S T R) (Reaches o T) := by
    refine Spec.bind (Spec.files (R := fun f s d ↦ f.find? walName = none ∧
      Here o ⟨c, none, none, .idle⟩ s₀ s d) fun s d h ↦ ⟨h.2.holds.wal_file, h⟩) fun f ↦
        Spec.assume fun hf ↦ ?_
    rw [hf]
    exact Spec.move trivial .createWal (by simp) (.idle ht) (.idle ht')
  have hlookup : Reads S Error.IsIo (fun f ↦ Holds f ⟨c, some .empty, none, .idle⟩)
      (Act.lookup walName (.systemError "failed to inspect WAL") : Prog σ _) (.ok (some [])) :=
    Reads.lookup trivial fun f hf ↦ hf.wal_file
  refine Spec.bind hcreate fun _ ↦ Spec.bind (Spec.look hlookup (.idle ht')) fun content ↦
    Spec.assume fun hc ↦ ?_
  subst hc
  exact Spec.pure fun s d h ↦ ⟨rfl, h⟩

/-- Synchronizing the log, whether or not it was just cut. -/
theorem spec_syncWal (ready : Option Layer) (phase : Phase) {w : WalWriter} (hw : w.failed = false)
    (hphase : phase = .idle ∨ ∃ previous, phase = .truncated previous)
    (hst : P ⟨c, some log, ready, phase⟩) (hst' : P ⟨c, some log.synchronized, ready, .idle⟩) :
    Spec S (Here o ⟨c, some log, ready, phase⟩ w) WalWriter.sync
      (fun _ ↦ Here o ⟨c, some log.synchronized, ready, .idle⟩ w) (ThrowsAt o S P R)
      (AtSome o P) := by
  have hmove : Move ⟨c, some log, ready, phase⟩ (.fsync walName)
      ⟨c, some log.synchronized, ready, .idle⟩ := by
    rcases hphase with rfl | ⟨previous, rfl⟩
    · exact .syncWal
    · exact .settleWal
  exact Spec.bind (spec_walUsable hw) fun _ ↦
    Spec.onException (Spec.move trivial hmove (by simp) hst hst')

/-- A writer that lives only for one call. -/
theorem spec_runHere {s₀ : σ} {st st' : Stage} {w w' : WalWriter} {m : Prog WalWriter Unit}
    (h : Spec S (Here o st w) m (fun _ ↦ Here o st' w') (ThrowsAt o S P R) (AtSome o P)) :
    Spec S (Here o st s₀) (w.runHere m) (fun _ ↦ Here o st' s₀) (ThrowsAt o S P R)
      (AtSome o P) := by
  refine Spec.zoom fun s ↦ ?_
  refine (Spec.assume (P := s = s₀) (A := Here o st w) fun hs ↦ h.conseq (fun _ _ ↦ id)
    (fun _ _ _ hq ↦ ⟨hs, hq.2⟩) (fun _ _ _ he ↦ he) fun _ ↦ id).pre ?_
  rintro t d ⟨rfl, rfl, hat⟩
  exact ⟨rfl, rfl, hat⟩

/-- **The append.** -/
theorem spec_appendWal (ready : Option Layer) {r : WalPutRecord} (durability : WalDurability)
    (hacc : WalAccepts r)
    (htail : log.tail = []) (hfit : log.bytes.length + (walFrame r).length < 2 ^ 64)
    (hst : ∀ log' : WalLog, log'.records = log.records ∨ log'.records = log.records ++ [r] →
      AsDurable (some log) (some log') → P ⟨c, some log', ready, .idle⟩) :
    Spec S (Here o ⟨c, some log, ready, .idle⟩ ⟨durability, log.bytes.length, false⟩)
      (WalWriter.append r)
      (fun _ w d ↦ ∃ log' : WalLog, log'.records = log.records ++ [r] ∧ log'.tail = [] ∧
        AsDurable (some log) (some log') ∧ (durability = .syncOnAppend → log'.Durable) ∧
        Here o ⟨c, some log', ready, .idle⟩ ⟨durability, log'.bytes.length, false⟩ w d)
      (ThrowsAt o S P R) (AtSome o P) := by
  have hwrite := FaultyDisk.Spec.writeAll (S := S) walName (walFrame r)
    (Error.systemError "failed to append WAL")
    (Error.runtimeError "zero-byte write while appending WAL")
    (fun done w d ↦ w = (⟨durability, log.bytes.length, false⟩ : WalWriter) ∧
      ∃ log', Appended log r done log' ∧ At o d ⟨c, some log', ready, .idle⟩) (by
    rintro done piece w d hpre ⟨rfl, log', happ, hat⟩
    obtain ⟨log'', happ'⟩ := exists_appended hacc htail hfit hpre
    exact ⟨rfl, log'', happ', hat.perform (happ.move happ' hpre)⟩)
  have hall : ∀ {done log'}, Appended log r done log' → P ⟨c, some log', ready, .idle⟩ := fun happ ↦
    hst _ happ.records happ.asDurable
  refine Spec.bind (spec_walUsable rfl) fun _ ↦ ?_
  rw [encodeWalRecord_of_accepts hacc, Act.ofExcept_ok, pure_bind]
  refine Spec.bind (Spec.state (R := fun w w' d ↦ w.sizeBytes = log.bytes.length ∧
    Here o ⟨c, some log, ready, .idle⟩ ⟨durability, log.bytes.length, false⟩ w' d)
      fun w d h ↦ ⟨by rw [h.1], h⟩) fun w ↦ Spec.assume fun hw ↦ ?_
  rw [if_neg (by omega)]
  refine Spec.onException ?_
  refine Spec.bind (Q := fun _ w d ↦ w = (⟨durability, log.bytes.length, false⟩ : WalWriter) ∧
      ∃ log', Appended log r (walFrame r) log' ∧ At o d ⟨c, some log', ready, .idle⟩)
    (hwrite.conseq ?_ (fun _ _ _ ↦ id) ?_ ?_) fun _ ↦ ?_
  · rintro w d ⟨rfl, hat⟩
    have hne : [] ≠ walFrame r := by
      intro h
      have hlen := length_walFrame r
      rw [← h, List.length_nil] at hlen
      unfold walHeaderSize at hlen
      omega
    exact ⟨rfl, log, ⟨by simp, rfl, rfl, fun _ ↦ rfl, fun h ↦ absurd h hne⟩, hat⟩
  · rintro e w d ⟨he, hS, done, -, rfl, log', happ, hat⟩
    have hio : e.IsIo := by rcases he with rfl | rfl <;> trivial
    exact ⟨hat.atSome (hall happ), Or.inl ⟨hS, hio⟩⟩
  · rintro d ⟨w, done, -, rfl, log', happ, hat⟩
    exact hat.atSome (hall happ)
  · -- the frame is in the log; what is left is the size and, in one mode, the synchronization
    refine (Spec.exists_pre fun log' ↦ Spec.assume fun happ ↦ ?_).pre
      (A := fun w d ↦ ∃ log', Appended log r (walFrame r) log' ∧
        Here o ⟨c, some log', ready, .idle⟩ ⟨durability, log.bytes.length, false⟩ w d) ?_
    swap
    · rintro w d ⟨rfl, log', happ, hat⟩
      exact ⟨log', happ, rfl, hat⟩
    obtain ⟨hrec, htl⟩ := happ.wholly rfl
    have hsize : log.bytes.length + (walFrame r).length = log'.bytes.length := by
      rw [happ.bytes_eq, List.length_append]
    refine Spec.bind (Q := fun _ ↦ Here o ⟨c, some log', ready, .idle⟩
      ⟨durability, log'.bytes.length, false⟩) (Spec.update ?_) fun _ ↦ ?_
    · rintro w d ⟨rfl, hat⟩
      exact ⟨by rw [← hsize], hat⟩
    refine Spec.bind (Spec.state (R := fun w w' d ↦ w.durability = durability ∧
      Here o ⟨c, some log', ready, .idle⟩ ⟨durability, log'.bytes.length, false⟩ w' d)
        fun w d h ↦ ⟨by rw [h.1], h⟩) fun w ↦ Spec.assume fun hdur ↦ ?_
    rw [hdur]
    split
    · have hdurable : AsDurable (some log) (some log'.synchronized) :=
        happ.asDurable.trans (.synchronized log')
      refine (spec_syncWal _ _ rfl (Or.inl rfl) (hall happ) (hst _ (Or.inr hrec) hdurable)).post ?_
      exact fun _ w d h ↦
        ⟨log'.synchronized, hrec, htl, hdurable, fun _ ↦ log'.durable_synchronized, h⟩
    · rename_i hdur
      exact Spec.pure fun w d h ↦
        ⟨log', hrec, htl, happ.asDurable, fun h ↦ absurd h hdur, h⟩

/-- A record that the encoder or the size of the log refuses leaves everything as it is. -/
theorem spec_appendWal_refused (st : Stage) {r : WalPutRecord} {w : WalWriter}
    (hw : w.failed = false)
    (hrefused : ¬WalAccepts r ∨ ¬w.sizeBytes + (walFrame r).length < 2 ^ 64)
    {Q : Unit → WalWriter → Disk Bytes UInt8 → Prop} {C : Disk Bytes UInt8 → Prop} :
    Spec S (Here o st w) (WalWriter.append r) Q (fun e w' d ↦ e.IsRefusal ∧
      Here o st w w' d) C := by
  refine Spec.bind (spec_walUsable hw) fun _ ↦ ?_
  by_cases hacc : WalAccepts r
  · have hfit := hrefused.resolve_left (not_not.2 hacc)
    rw [encodeWalRecord_of_accepts hacc, Act.ofExcept_ok, pure_bind]
    refine Spec.bind (Spec.state (R := fun s s' d ↦ s = w ∧ Here o st w s' d)
      fun s d h ↦ ⟨h.1, h⟩) fun s ↦ Spec.assume fun hs ↦ ?_
    have hpos := length_walFrame r
    unfold walHeaderSize at hpos
    rw [hs, if_pos (by omega)]
    exact Spec.throw fun s d h ↦ ⟨trivial, h⟩
  · obtain ⟨what, herr⟩ := encodeWalRecord_of_not_accepts hacc
    rw [herr, Act.ofExcept_error, Act.throw_bind]
    exact Spec.throw fun s d h ↦ ⟨trivial, h⟩

/-- **Emptying the log** once the layers say what it says. -/
theorem spec_resetWal {durability : WalDurability} {size : ℕ} (hdurable : c.older = [])
    (habsorbed : ∀ k, lastWrite (c.entries ++ log.entries) k = lastWrite c.entries k)
    (ht : T c (some log)) (ht' : T c (some .empty)) :
    Spec S (Here o ⟨c, some log, ready, .idle⟩ ⟨durability, size, false⟩) WalWriter.reset
      (fun _ ↦ Here o ⟨c, some .empty, ready, .idle⟩ ⟨durability, 0, false⟩)
      (Throws o S T R) (Reaches o T) := by
  refine Spec.bind (spec_walUsable rfl) fun _ ↦ ?_
  refine Spec.bind (Spec.onException (Spec.bind
    (Spec.move trivial (.resetWal hdurable habsorbed) (by simp) (.idle ht)
      (.truncated ht' ht)) fun _ ↦
      Spec.move trivial .settleWal (by simp) (.truncated ht' ht) (.idle ht'))) fun _ ↦
        Spec.update ?_
  rintro w d ⟨rfl, hat⟩
  exact ⟨rfl, hat⟩

/-- **Cutting off the tail** of a log, if there is one. -/
theorem spec_repairWalTail {s₀ : σ} (n : ℕ) (ht : T c (some log))
    (ht' : T c (some log.trimmed)) (ht'' : T c (some log.trimmed.synchronized)) :
    Spec S (Here o ⟨c, some log, ready, .idle⟩ s₀)
      (repairWalTail ⟨n, (walBytes log.records).length, log.tail.length⟩)
      (fun _ s d ↦ ∃ log' : WalLog, log'.records = log.records ∧ log'.tail = [] ∧
        AsDurable (some log) (some log') ∧ Here o ⟨c, some log', ready, .idle⟩ s₀ s d)
      (Throws o S T R) (Reaches o T) := by
  have hsmall := log.small
  rw [List.length_append] at hsmall
  rw [repairWalTail]
  by_cases htail : log.tail = []
  · rw [if_pos (by simp [WalReplayResult.hadIncompleteTail, htail])]
    exact Spec.pure fun s d h ↦ ⟨log, rfl, htail, .refl _, h⟩
  have hpos := List.length_pos_of_ne_nil htail
  rw [if_neg (by simpa [WalReplayResult.hadIncompleteTail] using htail),
    if_neg (by dsimp only; omega)]
  have hlookup : Reads S Error.IsIo (fun f ↦ Holds f ⟨c, some log, ready, .idle⟩)
      (Act.lookup walName (.systemError "failed to inspect WAL before repair") : Prog σ _)
      (.ok (some log.bytes)) := Reads.lookup trivial fun f hf ↦ hf.wal_file
  refine Spec.bind (Spec.look hlookup (.idle ht)) fun content ↦ Spec.assume fun hc ↦ ?_
  subst hc
  dsimp only
  rw [if_neg (by rw [WalLog.bytes, List.length_append]; simp)]
  refine Spec.bind (Spec.move trivial .trimWal (by simp) (.idle ht) (.truncated ht' ht)) fun _ ↦ ?_
  refine Spec.bind (spec_openWal .buffered (.truncated ht' ht)) fun writer ↦
    Spec.assume fun hwriter ↦ ?_
  rw [hwriter, if_neg (by rw [WalLog.bytes_trimmed]; simp)]
  refine (spec_runHere (spec_syncWal _ _ rfl (Or.inr ⟨log, rfl⟩) (.truncated ht' ht)
    (.idle ht''))).post ?_
  exact fun _ s d h ↦
    ⟨log.trimmed.synchronized, rfl, rfl, ⟨log.synced_le, fun _ ↦ False.elim⟩, h⟩

end Writer

end ChronoStore
