import ChronoStore.Foundation.Linearizability
import ChronoStore.Protocol.Clients
import ChronoStore.Protocol.Responses

/-!
# Processes that share a directory

Any number of processes open the database of one directory, any number of clients call it in each of
them, and processes end when they like: this module is the model of that, and the two results about
it are in `Linearization`.

What a process does between two points at which another may act is one step: it takes the lock of
the directory, it constructs its engine, or one of its clients does what a call of `Database` does
under the lock of the engine. `Database::put` takes that lock up to three times (`CallPhase`), so
the automatic flush is a step of its own. Each step comes with answers of the operating system of
its own and may fail or crash at any call. A process that crashes or is killed ends all its calls,
and the operating system gives its lock away.

A step starts with the files as they are, and the log of steps that a `Disk` carries starts anew
with it: no program can read that log. So what a directory stands for is said of the files alone
(`StandsFor`, `Live`).
-/

namespace ChronoStore

open FaultyDisk WriteHistory Linearizability

/-! ### Directories without a past -/

/-- The directory stands for the puts. -/
def StandsFor (f : Directory) (puts : List WalPutRecord) : Prop :=
  ∃ c log, Tracks puts 0 c log ∧ Holds f ⟨c, log, none, .idle⟩

/-- The engine is usable on the directory, and both stand for the puts. -/
def Live (e : StorageEngine) (f : Directory) (puts : List WalPutRecord) : Prop :=
  ∃ o durability, Usable o puts 0 durability e ⟨f, []⟩

section Directories

variable {o : Origin} {f : Directory} {puts : List WalPutRecord} {n : ℕ} {d : Disk Bytes UInt8}
  {e : StorageEngine}

/-- A directory with a meaning is an origin. -/
def Origin.of {st : Stage} (h : Holds f st) : Origin := ⟨f, st, h⟩

/-- What a session reaches stands for its puts. -/
theorem Reaches.standsFor (h : Reaches o (Tracks puts n) d) : StandsFor d.files puts := by
  obtain ⟨st, hat, htracks⟩ := h
  exact ⟨_, _, htracks.abandoned.mono (Nat.zero_le n), hat.abandon.holds⟩

/-- What was under way when a process crashed is in the directory or it is not. -/
theorem exists_standsFor {more : List WalPutRecord} (h : AtSome o (MayPut puts more n) d) :
    ∃ effect, (effect = [] ∨ effect = more) ∧ StandsFor d.files (puts ++ effect) := by
  obtain ⟨effect, heffect, hreach⟩ := exists_effect h
  exact ⟨effect, heffect, hreach.standsFor⟩

/-- What stands for puts is reached by a session. -/
theorem StandsFor.reaches (h : StandsFor f puts) :
    ∃ o : Origin, Reaches o (Tracks puts 0) ⟨f, []⟩ := by
  obtain ⟨c, log, htracks, hholds⟩ := h
  exact ⟨.of hholds, _, At.start (.of hholds), .idle htracks⟩

/-- A usable engine goes on from the files as they are. -/
theorem Usable.live {durability : WalDurability} (h : Usable o puts n durability e d) :
    Live e d.files puts := by
  obtain ⟨c, log, htail, htracks, he, hat⟩ := h
  exact ⟨.of hat.holds, durability, c, log, htail, htracks.mono (Nat.zero_le n), he,
    At.start (.of hat.holds)⟩

theorem Live.standsFor (h : Live e f puts) : StandsFor f puts := by
  obtain ⟨o, durability, husable⟩ := h
  exact husable.reaches.standsFor

/-- A live engine answers from its history. -/
theorem Live.answers (h : Live e f puts) : Answers e ⟨f, []⟩ (historyOf puts) := by
  obtain ⟨o, durability, husable⟩ := h
  exact husable.answers

/-- The file of the lock is not a file of the store. -/
theorem Holds.of_lock {g : Directory} {c : Catalog} {log : Option WalLog}
    (h : Holds f ⟨c, log, none, .idle⟩) (hg : ∀ name, name ≠ lockName →
      g.find? name = f.find? name) :
    Holds g ⟨c, log, none, .idle⟩ := by
  have hlayer : ∀ l : Layer, l.In f → l.In g := fun l hl ↦
    (hg _ (Layer.name_ne (by unfold IsSegmentName; decide))).trans hl
  refine ⟨?_, fun l hl ↦ hlayer l (h.layer_files l hl), ?_, by simp, by simp⟩
  · rw [hg _ (by decide)]
    exact h.manifest_file
  · rw [hg _ (by decide)]
    exact h.wal_file

/-- The lock file does not matter to what a directory stands for. -/
theorem StandsFor.of_lock {g : Directory} (h : StandsFor f puts)
    (hg : ∀ name, name ≠ lockName → g.find? name = f.find? name) : StandsFor g puts := by
  obtain ⟨c, log, htracks, hholds⟩ := h
  exact ⟨c, log, htracks, hholds.of_lock hg⟩

/-- The lock file does not matter to an engine that is open. -/
theorem Live.of_lock {g : Directory} (h : Live e f puts)
    (hg : ∀ name, name ≠ lockName → g.find? name = f.find? name) : Live e g puts := by
  obtain ⟨o, durability, c, log, htail, htracks, he, hat⟩ := h
  have hholds : Holds g ⟨c, some log, none, .idle⟩ := hat.holds.of_lock hg
  exact ⟨.of hholds, durability, c, log, htail, htracks, he, At.start (.of hholds)⟩

/-- **Constructing the engine** on a directory that stands for puts. -/
theorem StandsFor.spec_open {S : List FaultyDisk.Event} (h : StandsFor f puts) {σ : Type} {s₀ : σ}
    (listing : Listing) (durability : WalDurability) :
    Spec S (fun s d ↦ s = s₀ ∧ d = ⟨f, []⟩) (StorageEngine.open listing durability)
      (fun e s d ↦ s = s₀ ∧ Live e d.files puts)
      (fun err _ d ↦ Failing S ∧ err.IsIo ∧ StandsFor d.files puts)
      (fun d ↦ StandsFor d.files puts) := by
  obtain ⟨o, hrest⟩ := h.reaches
  refine (@spec_reopen o S puts 0 σ s₀ listing durability).conseq ?_ ?_ ?_ ?_
  · rintro s d ⟨hs, rfl⟩
    exact ⟨hs, hrest⟩
  · exact fun e s d h ↦ ⟨h.1, h.2.live⟩
  · rintro err s d ⟨hrest, hio⟩
    obtain ⟨hS, hio⟩ := hio.resolve_right id
    exact ⟨hS, hio, Reaches.standsFor hrest⟩
  · exact fun d h ↦ h.standsFor

end Directories

/-! ### Calls of a database -/

/-- Where a call is: before the lock of the engine, before one of the two further locks of
`Database::put`, or after its last. -/
inductive CallPhase
  | entering (r : Request)
  | counting
  | flushing
  | leaving (result : Except Error Response)

namespace CallPhase

/-- The call is going to take the lock. -/
def Locks : CallPhase → Prop
  | .leaving _ => False
  | _ => True

/-- Where a call is when the engine has answered. -/
def after (threshold : ℕ) (r : Request) (a : Response) : CallPhase :=
  match r with
  | .put _ _ => if threshold ≠ 0 then .counting else .leaving (.ok a)
  | _ => .leaving (.ok a)

/-- What a call does under one lock, and where it is then. -/
def advance (threshold : ℕ) : CallPhase → Prog StorageEngine CallPhase
  | .entering r => do
    let a ← r.respond
    return after threshold r a
  | .counting => do
    let count ← StorageEngine.memtableSampleCount
    return if threshold ≤ count then .flushing else .leaving (.ok .done)
  | .flushing => do
    StorageEngine.flush
    return .leaving (.ok .done)
  | .leaving result => return .leaving result

/-- The puts that take the lock next. -/
def puts : CallPhase → List WalPutRecord
  | .entering r => r.puts
  | _ => []

/-- The answers to what is done next that the map of a history allows. -/
def Allows (history : List (Key × Value)) : CallPhase → Response → Prop
  | .entering r, a => r.Allows history a
  | _, a => a = .done

/-- The engine has answered, and the call is going to pass the answer on. -/
def Answered (a : Response) : CallPhase → Prop
  | .entering _ => False
  | .counting => a = .done
  | .flushing => a = .done
  | .leaving result => result = .ok a

/-- A call has one answer. -/
theorem Answered.unique {p : CallPhase} {a b : Response} (h : p.Answered a) (h' : p.Answered b) :
    a = b := by
  cases p with
  | entering r => exact h.elim
  | counting => exact (show a = .done from h).trans (show b = .done from h').symm
  | flushing => exact (show a = .done from h).trans (show b = .done from h').symm
  | leaving result => exact Except.ok.inj ((show result = .ok a from h).symm.trans h')

/-- A call whose answer is allowed is answered. -/
theorem answered_after {threshold : ℕ} {r : Request} {history : List (Key × Value)} {a : Response}
    (h : r.Allows history a) : (after threshold r a).Answered a := by
  cases r with
  | put key sample =>
    rw [after]
    split
    · exact h
    · rfl
  | _ => rfl

end CallPhase

/-- **A member function of the engine goes through the database in order.** -/
theorem Database.onEngine_bind {α β : Type} (m : Prog StorageEngine α)
    (k : α → Prog StorageEngine β) :
    Database.onEngine (translateCorruption (m >>= k)) =
      Database.onEngine (translateCorruption m) >>= fun a ↦
        Database.onEngine (translateCorruption (k a)) := by
  funext ⟨db, w⟩
  rw [Database.onEngine_translated, bind_apply, bind_apply, Database.onEngine_translated]
  rcases m (db.engine, w) with ⟨a, e, w'⟩ | ⟨err | -, e, w'⟩
  · dsimp only
    exact (Database.onEngine_translated (k a) ⟨e, db.flushThresholdSamples⟩ w').symm
  · rfl
  · rfl

/-- A look at the size of the table throws nothing that is translated. -/
theorem Database.onEngine_memtableSampleCount :
    Database.onEngine (untranslated StorageEngine.memtableSampleCount) =
      Database.onEngine (translateCorruption StorageEngine.memtableSampleCount) := by
  funext ⟨db, w⟩
  by_cases hfailed : db.engine.failed = true
  · have hrun := eq_error_of_forget (Request.run_of_failed hfailed .memtableSampleCount w)
    simp only [Database.onEngine, Act.zoom, untranslated, translateCorruption, Act.rethrow, hrun]
    rfl
  · have hrun : StorageEngine.memtableSampleCount (db.engine, w) =
        .ok db.engine.memtable.sampleCount (db.engine, w) :=
      StorageEngine.ensureUsable_bind (Bool.not_eq_true _ ▸ hfailed) _ _
    simp only [Database.onEngine, Act.zoom, untranslated, translateCorruption, Act.rethrow, hrun]

/-- The locks of a put, one after the other. -/
theorem CallPhase.advance_put (threshold : ℕ) (series : SeriesKey) (sample : Sample) :
    (do
      let p ← (CallPhase.entering (.put series sample)).advance threshold
      let p ← p.advance threshold
      let _ ← p.advance threshold : Prog StorageEngine Unit) = (do
      StorageEngine.put series sample
      if threshold ≠ 0 then do
        let count ← StorageEngine.memtableSampleCount
        if threshold ≤ count then StorageEngine.flush else pure ()
      else pure ()) := by
  simp only [advance, after, Request.respond, bind_assoc, pure_bind]
  congr 1
  funext _
  by_cases h : threshold ≠ 0
  · simp only [if_pos h, bind_assoc, pure_bind]
    congr 1
    funext count
    by_cases hcount : threshold ≤ count
    · simp only [if_pos hcount, bind_assoc, pure_bind, bind_pure_unit]
    · simp only [if_neg hcount, pure_bind]
  · simp only [if_neg h, pure_bind]

/-- **`Database::put`** is what a call does under its locks, one after the other, however it ends.
-/
theorem Database.put_eq (series : SeriesKey) (sample : Sample) (db : Database)
    (w : World Bytes UInt8) :
    Database.put series sample (db, w) = Database.onEngine (translateCorruption do
      let p ← (CallPhase.entering (.put series sample)).advance db.flushThresholdSamples
      let p ← p.advance db.flushThresholdSamples
      let _ ← p.advance db.flushThresholdSamples) (db, w) := by
  rw [CallPhase.advance_put, Database.onEngine_bind, Database.put, bind_apply, bind_apply]
  have hkeeps : ∀ a db' w',
    Database.onEngine (translateCorruption (StorageEngine.put series sample))
      (db, w) = .ok a (db', w') → db'.flushThresholdSamples = db.flushThresholdSamples := by
    intro a db' w' h
    rw [Database.onEngine_translated] at h
    revert h
    rcases StorageEngine.put series sample (db.engine, w) with ⟨b, e, w''⟩ | ⟨err | -, e, w''⟩
    · intro h
      cases h
      rfl
    · intro h
      cases h
    · intro h
      cases h
  revert hkeeps
  rcases Database.onEngine (translateCorruption (StorageEngine.put series sample)) (db, w) with
    ⟨a, db', w'⟩ | ⟨err, db', w'⟩
  · intro hkeeps
    dsimp only
    rw [bind_apply, Act.state]
    dsimp only
    rw [hkeeps a db' w' rfl]
    split
    · rw [Database.onEngine_bind, Database.onEngine_memtableSampleCount, bind_apply, bind_apply]
      congr 1
      funext count s
      split
      · rfl
      · rfl
    · rfl
  · exact fun _ ↦ rfl

/-! ### What a call does under one lock -/

section Advance

variable {S : List FaultyDisk.Event} {f : Directory} {puts : List WalPutRecord}
    {e₀ e : StorageEngine}
  {p : CallPhase} {threshold : ℕ}

/-- How a call throws under one lock: the engine may go on or has failed. -/
def AdvanceThrows (puts : List WalPutRecord) (p : CallPhase) (e : StorageEngine) (f : Directory) :
    Prop :=
  ∃ effect, (effect = [] ∨ effect = p.puts) ∧ StandsFor f (puts ++ effect) ∧
    (Live e f (puts ++ effect) ∨ e.failed = true)

/-- What a call leaves behind that crashes under one lock. -/
def AdvanceCrashes (puts : List WalPutRecord) (p : CallPhase) (f : Directory) : Prop :=
  ∃ effect, (effect = [] ∨ effect = p.puts) ∧ StandsFor f (puts ++ effect)

theorem RequestThrows.advanceThrows {o : Origin} {n : ℕ} {durability : WalDurability} {r : Request}
    {err : Error} {d : Disk Bytes UInt8} (h : RequestThrows o S puts n durability r err e d)
    (hr : r.puts = p.puts) : AdvanceThrows puts p e d.files := by
  obtain ⟨effect, heffect, h⟩ := h
  refine ⟨effect, heffect.imp_right fun h ↦ h.2.trans hr, ?_⟩
  rcases h with h | ⟨hfailed, hrest⟩
  · exact ⟨h.live.standsFor, Or.inl h.live⟩
  · exact ⟨hrest.standsFor, Or.inr hfailed⟩

/-- **A failed engine** lets no call through. -/
theorem CallPhase.advance_of_failed (he : e.failed = true) (hp : p.Locks) (w : World Bytes UInt8) :
    p.advance threshold (e, w) = .error
      (.exn (.runtimeError "storage engine is in a failed state; restart is required")) (e, w) := by
  have hbind : ∀ {α β : Type} {m : Prog StorageEngine α} {k : α → Prog StorageEngine β}
    (r : Request),
      (do let _ ← m : Prog StorageEngine Unit) = r.run → (m >>= k) (e, w) = .error
        (.exn (.runtimeError "storage engine is in a failed state; restart is required"))
        (e, w) := by
    intro α β m k r hr
    have hrun := r.run_of_failed he w
    rw [← hr] at hrun
    rw [bind_apply, eq_error_of_forget hrun]
  cases p with
  | entering r => exact hbind r r.respond_forget
  | counting => exact hbind .memtableSampleCount rfl
  | flushing => exact hbind .flush bind_pure_unit
  | leaving result => exact hp.elim

/-- **Under one lock** of a live engine the puts grow by those of the call. -/
theorem CallPhase.spec_advance (h : Live e₀ f puts) (hp : p.Locks) :
    Spec S (fun e d ↦ e = e₀ ∧ d = ⟨f, []⟩) (p.advance threshold)
      (fun p' e d ↦ ∃ a, p.Allows (historyOf puts) a ∧ p'.Answered a ∧
        Live e d.files (puts ++ p.puts))
      (fun _ e d ↦ AdvanceThrows puts p e d.files) (fun d ↦ AdvanceCrashes puts p d.files) := by
  obtain ⟨o, durability, husable⟩ := h
  refine Spec.pre (A := fun e d ↦ d.files = f ∧ e = e₀ ∧ Usable o puts 0 durability e d) ?_ ?_
  swap
  · rintro e d ⟨rfl, rfl⟩
    exact ⟨rfl, rfl, husable⟩
  cases p with
  | entering r =>
    refine Spec.bind ((spec_respond e₀ f r).conseq (fun _ _ ↦ id) (fun _ _ _ ↦ id)
      (fun _ _ _ h ↦ h.2.advanceThrows rfl) fun _ h ↦ exists_standsFor h) fun a ↦ Spec.pure ?_
    exact fun e d h ↦ ⟨a, h.1, answered_after h.1, h.2.live⟩
  | counting =>
    have hquiet : Quiet StorageEngine.memtableSampleCount :=
      quiet_ensureUsable.bind fun _ ↦ Quiet.state.bind fun _ ↦ Quiet.pure _
    have hnil : ∀ {e d}, Usable o puts 0 durability e d → Live e d.files (puts ++ []) := by
      intro e d h
      rw [List.append_nil]
      exact h.live
    refine Spec.bind ((hquiet.spec _).conseq (fun _ _ ↦ id) (fun _ _ _ h ↦ h.2) ?_ ?_) fun count ↦
      Spec.pure ?_
    · exact fun _ e d h ↦ ⟨[], Or.inl rfl, (hnil h.2.2).standsFor, Or.inl (hnil h.2.2)⟩
    · rintro d ⟨e, -, -, h⟩
      exact ⟨[], Or.inl rfl, (hnil h).standsFor⟩
    · refine fun e d h ↦ ⟨.done, rfl, ?_, hnil h.2⟩
      split
      · rfl
      · rfl
  | flushing =>
    refine Spec.bind ((spec_request e₀ .flush).conseq (fun _ _ h ↦ h.2) (fun _ _ _ ↦ id)
      (fun _ _ _ h ↦ h.advanceThrows rfl) fun _ h ↦ exists_standsFor h) fun _ ↦ Spec.pure ?_
    exact fun e d h ↦ ⟨.done, rfl, rfl, h.live⟩
  | leaving result => exact hp.elim

end Advance

/-! ### Processes -/

/-- What a process has of the directory. -/
inductive ProcessPhase
  | closed
  /-- It holds the lock of the directory, and its engine is not there yet. -/
  | locked (options : DatabaseOptions)
  | opened (db : Database)

/-- The files, what each process has of them, where the call of each client is, if it is in one, and
what has been seen of the calls. -/
structure System (π ι : Type) where
  files : Directory
  process : π → ProcessPhase
  call : π → ι → Option (ℕ × CallPhase)
  seen : List (Linearizability.Event ℕ Request Response)

namespace System

variable {π ι : Type} [DecidableEq π] [DecidableEq ι]

/-- The process is somewhere else. -/
def moved (v : System π ι) (p : π) (f : Directory) (phase : ProcessPhase) : System π ι :=
  { v with files := f, process := Function.update v.process p phase }

/-- The client is somewhere else. -/
def called (v : System π ι) (p : π) (i : ι) (c : Option (ℕ × CallPhase))
    (more : List (Linearizability.Event ℕ Request Response)) : System π ι :=
  { v with
    call := Function.update v.call p (Function.update (v.call p) i c)
    seen := v.seen ++ more }

/-- The process ends, with all its calls. -/
def ended (v : System π ι) (p : π) (f : Directory) : System π ι where
  files := f
  process := Function.update v.process p .closed
  call := Function.update v.call p fun _ ↦ none
  seen := v.seen ++ [.crash]

end System

/-- Another process holds the lock of the directory. -/
def System.HeldElsewhere {π ι : Type} (v : System π ι) (p : π) : Prop :=
  ∃ q, q ≠ p ∧ v.process q ≠ .closed

/-- What a process does to hold the lock of the directory. -/
def takeLock (held : Bool) : DatabaseProg Unit Unit := do
  prepareDatabaseDirectory
  acquireLock held

/-- Taking the lock touches its file only, and nobody takes a lock that is held. -/
theorem spec_takeLock {S : List FaultyDisk.Event} {f : Directory} (held : Bool) :
    Spec S (fun _ d ↦ d.files = f) (takeLock held)
      (fun _ _ d ↦ held = false ∧ ∀ name, name ≠ lockName → d.files.find? name = f.find? name)
      (fun err _ d ↦ (Failing S ∨ held = true ∧ err = .busy "database directory is already open") ∧
        ∀ name, name ≠ lockName → d.files.find? name = f.find? name)
      (fun d ↦ ∀ name, name ≠ lockName → d.files.find? name = f.find? name) := by
  have hkeep : ∀ {d : Disk Bytes UInt8}, d.files = f →
      ∀ name, name ≠ lockName → d.files.find? name = f.find? name := by
    rintro d rfl name -
    rfl
  have hcall : ∀ onFail : DatabaseError, Spec S (fun _ d ↦ d.files = f) (Act.probe onFail)
      (fun _ (_ : Unit) d ↦ d.files = f)
      (fun err _ d ↦ (Failing S ∨ held = true ∧ err = .busy "database directory is already open") ∧
        ∀ name, name ≠ lockName → d.files.find? name = f.find? name)
      (fun d ↦ ∀ name, name ≠ lockName → d.files.find? name = f.find? name) := fun onFail ↦
    FaultyDisk.Spec.probe (fun _ _ hS h ↦ ⟨Or.inl hS, hkeep h⟩) fun _ _ h ↦ hkeep h
  have hcreate : ∀ (d : Disk Bytes UInt8) (n : ℕ), d.files = f → ∀ name, name ≠ lockName →
      (d.performAll ((Step.create lockName).truncated n)).files.find? name = f.find? name := by
    rintro d n rfl name hne
    rcases Step.truncated_eq (s := Step.create (B := UInt8) lockName) (by simp) n with heq | heq
    · rw [heq]
      rfl
    · rw [heq]
      exact Step.find?_apply_of_notMem (by simpa [Step.touches] using hne)
  refine Spec.bind (Spec.bind (hcall _) fun _ ↦ hcall _) fun _ ↦ Spec.bind
    (Q := fun _ _ d ↦ ∀ name, name ≠ lockName → d.files.find? name = f.find? name) ?_ fun _ ↦ ?_
  · refine Spec.bind (Spec.files (R := fun _ _ d ↦ d.files = f) fun s d h ↦ h) fun g ↦ ?_
    split
    · exact (hcall _).post fun _ _ _ h ↦ hkeep h
    · refine FaultyDisk.Spec.step ?_ (fun s d n hS h ↦ ⟨Or.inl hS, hcreate d n h⟩)
        fun s d n h ↦ hcreate d n h
      rintro s d rfl name hne
      exact Step.find?_apply_of_notMem (by simpa [Step.touches] using hne)
  · refine Spec.ite (fun hheld ↦ Spec.throw fun _ _ h ↦ ⟨Or.inr ⟨hheld, rfl⟩, h⟩) fun hheld ↦ ?_
    refine Spec.post (Q := fun _ _ d ↦ ∀ name, name ≠ lockName → d.files.find? name = f.find? name)
      (FaultyDisk.Spec.probe ?_ ?_) ?_
    · exact fun _ _ hS h ↦ ⟨Or.inl hS, h⟩
    · exact fun _ _ h ↦ h
    · exact fun _ _ _ h ↦ ⟨by simpa using hheld, h⟩

/-- How a database is opened, when the lock is taken. -/
def constructEngine (listing : Listing) (options : DatabaseOptions) :
    DatabaseProg Unit Database := do
  let engine ← translateCorruption (StorageEngine.open listing options.durability.toInternal)
  return ⟨engine, options.memtableFlushThresholdSamples⟩

/-- **`Database::Database`** takes the lock and constructs the engine. -/
theorem Database.open_eq (listing : Listing) (held : Bool) (options : DatabaseOptions) :
    Database.open listing held options = (do
      takeLock held
      constructEngine listing options) := by
  rw [takeLock, bind_assoc]
  rfl

/-- **The runs** of processes that share a directory. -/
inductive Runs {π ι : Type} [DecidableEq π] [DecidableEq ι] (f : Directory) : System π ι → Prop
  | start : Runs f ⟨f, fun _ ↦ .closed, fun _ _ ↦ none, []⟩
  | lock {v : System π ι} {p : π} {held : Bool} {sched : List FaultyDisk.Event}
    {w : World Bytes UInt8}
    (options : DatabaseOptions) :
    Runs f v → v.process p = .closed → (held = true ↔ v.HeldElsewhere p) →
      takeLock held ((), ⟨⟨v.files, []⟩, sched⟩) = .ok () ((), w) →
        Runs f (v.moved p w.files (.locked options))
  | lockFails {v : System π ι} {p : π} {held : Bool} {sched : List FaultyDisk.Event}
    {w : World Bytes UInt8} {stop : Stop DatabaseError} : Runs f v → v.process p = .closed →
      (held = true ↔ v.HeldElsewhere p) →
        takeLock held ((), ⟨⟨v.files, []⟩, sched⟩) = .error stop ((), w) →
          Runs f (v.moved p w.files .closed)
  | construct {v : System π ι} {p : π} {options : DatabaseOptions} {listing : Listing}
    {sched : List FaultyDisk.Event} {db : Database} {w : World Bytes UInt8} : Runs f v →
      v.process p = .locked options →
        constructEngine listing options ((), ⟨⟨v.files, []⟩, sched⟩) = .ok db ((), w) →
          Runs f (v.moved p w.files (.opened db))
  | constructFails {v : System π ι} {p : π} {options : DatabaseOptions} {listing : Listing}
    {sched : List FaultyDisk.Event} {w : World Bytes UInt8} {stop : Stop DatabaseError} : Runs f v →
      v.process p = .locked options →
        constructEngine listing options ((), ⟨⟨v.files, []⟩, sched⟩) = .error stop ((), w) →
          Runs f (v.moved p w.files .closed)
  | invoke {v : System π ι} {p : π} {db : Database} {i : ι} (r : Request) : Runs f v →
      v.process p = .opened db → v.call p i = none →
        Runs f (v.called p i (some (v.seen.length, .entering r)) [.invoke v.seen.length r])
  | advance {v : System π ι} {p : π} {db : Database} {i : ι} {k : ℕ} {phase phase' : CallPhase}
    {sched : List FaultyDisk.Event} {e : StorageEngine} {w : World Bytes UInt8} : Runs f v →
      v.process p = .opened db → v.call p i = some (k, phase) → phase.Locks →
        phase.advance db.flushThresholdSamples (db.engine, ⟨⟨v.files, []⟩, sched⟩) =
          .ok phase' (e, w) →
          Runs f ((v.moved p w.files (.opened { db with engine := e })).called p i
            (some (k, phase')) [])
  | throw {v : System π ι} {p : π} {db : Database} {i : ι} {k : ℕ} {phase : CallPhase} {err : Error}
    {sched : List FaultyDisk.Event} {e : StorageEngine} {w : World Bytes UInt8} : Runs f v →
      v.process p = .opened db → v.call p i = some (k, phase) → phase.Locks →
        phase.advance db.flushThresholdSamples (db.engine, ⟨⟨v.files, []⟩, sched⟩) =
          .error (.exn err) (e, w) →
          Runs f ((v.moved p w.files (.opened { db with engine := e })).called p i
            (some (k, .leaving (.error err))) [])
  | crash {v : System π ι} {p : π} {db : Database} {i : ι} {k : ℕ} {phase : CallPhase}
    {sched : List FaultyDisk.Event} {e : StorageEngine} {w : World Bytes UInt8} : Runs f v →
      v.process p = .opened db → v.call p i = some (k, phase) → phase.Locks →
        phase.advance db.flushThresholdSamples (db.engine, ⟨⟨v.files, []⟩, sched⟩) =
          .error .crash (e, w) →
          Runs f (v.ended p w.files)
  | respond {v : System π ι} {p : π} {i : ι} {k : ℕ} {a : Response} : Runs f v →
      v.call p i = some (k, .leaving (.ok a)) → Runs f (v.called p i none [.respond k a])
  | abort {v : System π ι} {p : π} {i : ι} {k : ℕ} {err : Error} : Runs f v →
      v.call p i = some (k, .leaving (.error err)) → Runs f (v.called p i none [.abort k])
  | kill {v : System π ι} {p : π} : Runs f v → v.process p ≠ .closed → Runs f (v.ended p v.files)
  | close {v : System π ι} {p : π} {db : Database} : Runs f v → v.process p = .opened db →
      (∀ i, v.call p i = none) → Runs f (v.moved p v.files .closed)

end ChronoStore
