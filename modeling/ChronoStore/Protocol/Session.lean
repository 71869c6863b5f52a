import ChronoStore.Engine.Inspection
import ChronoStore.Protocol.FlushCompact
import ChronoStore.Protocol.Queries

/-!
# Sessions

A **session** is what a process, or a sequence of processes one after another, does with one
directory: it opens the store, makes requests, crashes, opens it again. Each call comes with its own
schedule of answers of the operating system, so a session is any interleaving of calls with short
writes, failing calls and crashes at any step of any call, recovery included.

What a session leaves behind is described by the puts that **count** (`Entry.Resolves`): those that
returned, and possibly one that was cut off by a crash or by a failing call. `Session.standing` is
the simulation: at every point of a session, memory and directory stand for the puts that count so
far, and the choice made for a put that was cut off is never revised.
-/

namespace ChronoStore

open FaultyDisk WriteHistory

/-! ### Requests -/

/-- What a client may ask of an engine. -/
inductive Request
  | put (series : SeriesKey) (sample : Sample)
  | sync
  | flush
  | compact
  | latest (series : SeriesKey)
  | get (series : SeriesKey) (t : Timestamp)
  | range (series : SeriesKey) (start stop : Timestamp)
  | series
  | sampleCount
  | memtableSampleCount
  | empty
  | segmentCount
  | walSizeBytes
  | stats
deriving DecidableEq

/-- The call, without its result. -/
def Request.run : Request → Prog StorageEngine Unit
  | .put key sample => StorageEngine.put key sample
  | .sync => StorageEngine.sync
  | .flush => StorageEngine.flush
  | .compact => StorageEngine.compact
  | .latest key => do let _ ← StorageEngine.latest key
  | .get key t => do let _ ← StorageEngine.get key t
  | .range key start stop => do let _ ← StorageEngine.range key start stop
  | .series => do let _ ← StorageEngine.series
  | .sampleCount => do let _ ← StorageEngine.sampleCount
  | .memtableSampleCount => do let _ ← StorageEngine.memtableSampleCount
  | .empty => do let _ ← StorageEngine.empty
  | .segmentCount => do let _ ← StorageEngine.segmentCount
  | .walSizeBytes => do let _ ← StorageEngine.walSizeBytes
  | .stats => do let _ ← StorageEngine.stats

/-- The requests that write. -/
def Request.writes : Request → Bool
  | .put _ _ => true
  | .sync => true
  | .flush => true
  | .compact => true
  | _ => false

/-- The put of a request, if it is one. -/
def Request.puts : Request → List WalPutRecord
  | .put key sample => [⟨key, sample⟩]
  | _ => []

/-- The requests that synchronize the log, in a mode. -/
def Request.settles (durability : WalDurability) : Request → Bool
  | .put _ _ => durability = .syncOnAppend
  | .sync => true
  | .flush => true
  | _ => false

section Quiet

theorem quiet_ensureUsable : Quiet StorageEngine.ensureUsable :=
  Quiet.state.bind fun _ ↦ Quiet.ite (Quiet.throw _) (Quiet.pure _)

theorem quiet_latest (series : SeriesKey) : Quiet (StorageEngine.latest series) :=
  quiet_ensureUsable.bind fun _ ↦ Quiet.state.bind fun e ↦
    (Quiet.of_reads fun _ ↦ ⟨_, fun _ ↦ reads_latestInSegments_in e.segments series⟩).bind
      fun _ ↦ Quiet.pure _

theorem quiet_get (series : SeriesKey) (t : Timestamp) : Quiet (StorageEngine.get series t) :=
  quiet_ensureUsable.bind fun _ ↦ Quiet.state.bind fun e ↦ Quiet.ite (Quiet.pure _)
    (Quiet.of_reads fun _ ↦ ⟨_, fun _ ↦ reads_getInSegments_in series t e.segments.reverse⟩)

theorem quiet_range (series : SeriesKey) (start stop : Timestamp) :
    Quiet (StorageEngine.range series start stop) :=
  quiet_ensureUsable.bind fun _ ↦ Quiet.ite (Quiet.throw _) (Quiet.state.bind fun e ↦
    (Quiet.of_reads fun _ ↦
      ⟨_, fun _ ↦ reads_rangeInSegments_in e.segments series start stop⟩).bind fun _ ↦
        (Quiet.ofExcept _).bind fun _ ↦ Quiet.pure _)

/-- **Queries change nothing**, whatever the operating system answers. -/
theorem Request.quiet {r : Request} (h : r.writes = false) : Quiet r.run := by
  have hforget : ∀ {α : Type} {m : Prog StorageEngine α}, Quiet m → Quiet (do let _ ← m) :=
    fun hm ↦ hm.bind fun _ ↦ Quiet.pure _
  cases r with
  | put | sync | flush | compact => cases h
  | latest series => exact hforget (quiet_latest series)
  | get series t => exact hforget (quiet_get series t)
  | range series start stop => exact hforget (quiet_range series start stop)
  | series => exact hforget (quiet_ensureUsable.bind fun _ ↦ Quiet.state.bind fun _ ↦ Quiet.pure _)
  | sampleCount | stats =>
    exact hforget (quiet_ensureUsable.bind fun _ ↦ Quiet.state.bind fun _ ↦
      Quiet.ite (Quiet.throw _) (Quiet.pure _))
  | memtableSampleCount | empty | segmentCount | walSizeBytes =>
    exact hforget (quiet_ensureUsable.bind fun _ ↦ Quiet.state.bind fun _ ↦ Quiet.pure _)

end Quiet

/-- **A failed engine refuses every request**, and makes no call. -/
theorem Request.run_of_failed {e : StorageEngine} (he : e.failed = true) (r : Request)
    (w : World Bytes UInt8) : r.run (e, w) = .error
      (.exn (.runtimeError "storage engine is in a failed state; restart is required")) (e, w) := by
  have hcheck : StorageEngine.ensureUsable (e, w) = .error
      (.exn (.runtimeError "storage engine is in a failed state; restart is required")) (e, w) := by
    show (if e.failed = true then _ else _ : Prog StorageEngine Unit) (e, w) = _
    rw [he]
    rfl
  have hbind : ∀ {α : Type} (k : Unit → Prog StorageEngine α),
      (StorageEngine.ensureUsable >>= k) (e, w) = .error
        (.exn (.runtimeError "storage engine is in a failed state; restart is required"))
        (e, w) := by
    intro α k
    rw [bind_apply, hcheck]
  have hforget : ∀ {α : Type} (k : Unit → Prog StorageEngine α),
      (do let _ ← StorageEngine.ensureUsable >>= k : Prog StorageEngine Unit) (e, w) = .error
        (.exn (.runtimeError "storage engine is in a failed state; restart is required"))
        (e, w) := by
    intro α k
    rw [bind_apply, hbind]
  cases r with
  | put | sync | flush | compact => exact hbind _
  | _ => exact hforget _

/-! ### Sessions -/

/-- What a process does with the store. To open it again is to destroy the engine first. -/
inductive Call
  | open (listing : Listing) (durability : WalDurability)
  | request (r : Request)

def Call.puts : Call → List WalPutRecord
  | .open _ _ => []
  | .request r => r.puts

inductive Outcome
  | returned
  | threw (error : Error)
  | crashed
deriving DecidableEq

/-- The engine of the process, if there is one, and the disk. -/
structure Machine where
  engine : Option StorageEngine
  disk : Disk Bytes UInt8

/-- Make a call, if it can be made. -/
def Machine.perform (m : Machine) (sched : List Event) : Call → Option (Outcome × Machine)
  | .open listing durability =>
    match StorageEngine.open listing durability ((), ⟨m.disk, sched⟩) with
    | .ok e (_, w) => some (.returned, ⟨some e, w.toDisk⟩)
    | .error (.exn err) (_, w) => some (.threw err, ⟨none, w.toDisk⟩)
    | .error .crash (_, w) => some (.crashed, ⟨none, w.toDisk⟩)
  | .request r => m.engine.map fun e ↦
    match r.run (e, ⟨m.disk, sched⟩) with
    | .ok _ (e, w) => (.returned, ⟨some e, w.toDisk⟩)
    | .error (.exn err) (e, w) => (.threw err, ⟨some e, w.toDisk⟩)
    | .error .crash (_, w) => (.crashed, ⟨none, w.toDisk⟩)

/-- A call of a session: how the operating system answered, and how it ended. -/
structure Entry where
  call : Call
  sched : List Event
  outcome : Outcome

/-- The sessions on a directory, with the machine they lead to. -/
inductive Session (f : Directory) : List Entry → Machine → Prop
  | start : Session f [] ⟨none, ⟨f, []⟩⟩
  | call {history : List Entry} {m m' : Machine} {x : Entry} : Session f history m →
    m.perform x.sched x.call = some (x.outcome, m') → Session f (history ++ [x]) m'

/-- Make these calls, if each of them ends as the entry says. -/
def Machine.runs (m : Machine) : List Entry → Option Machine
  | [] => some m
  | x :: history => (m.perform x.sched x.call).bind fun r ↦
      if r.1 = x.outcome then r.2.runs history else none

/-- Entries are run one after the other. -/
theorem Machine.runs_append (m : Machine) (before after : List Entry) :
    m.runs (before ++ after) = (m.runs before).bind (·.runs after) := by
  induction before generalizing m with
  | nil => rfl
  | cons x before ih =>
    rw [List.cons_append, Machine.runs, Machine.runs, Option.bind_assoc]
    congr 1
    funext r
    split
    · exact ih r.2
    · rfl

/-- A single call, as a run. -/
theorem Machine.runs_singleton {m m' : Machine} {x : Entry} :
    m.runs [x] = some m' ↔ m.perform x.sched x.call = some (x.outcome, m') := by
  rw [Machine.runs, Option.bind_eq_some_iff]
  refine ⟨fun ⟨⟨outcome, next⟩, hx, hnext⟩ ↦ ?_, fun hx ↦ ⟨_, hx, if_pos rfl⟩⟩
  split at hnext
  · rename_i houtcome
    obtain rfl : outcome = x.outcome := houtcome
    obtain rfl := Option.some.inj hnext
    exact hx
  · cases hnext

/-- **Sessions can be computed**: the relation and the function that makes the calls one after
another describe the same machines. -/
theorem session_iff_runs {f : Directory} {history : List Entry} {m : Machine} :
    Session f history m ↔ Machine.runs ⟨none, ⟨f, []⟩⟩ history = some m := by
  induction history using List.reverseRecOn generalizing m with
  | nil =>
    refine ⟨fun h ↦ ?_, fun h ↦ Option.some.inj h ▸ .start⟩
    generalize hall : ([] : List Entry) = all at h
    cases h with
    | start => rfl
    | call => simp at hall
  | append_singleton history x ih =>
    rw [Machine.runs_append, Option.bind_eq_some_iff]
    constructor
    · intro h
      generalize hall : history ++ [x] = all at h
      cases h with
      | start => simp at hall
      | call h hx =>
        obtain ⟨rfl, hlast⟩ := List.append_inj' hall rfl
        obtain rfl := List.singleton_inj.mp hlast
        exact ⟨_, ih.mp h, Machine.runs_singleton.mpr hx⟩
    · rintro ⟨before, hbefore, hx⟩
      exact .call (ih.mpr hbefore) (Machine.runs_singleton.mp hx)

/-- The call behind a request that returned. -/
theorem Machine.run_of_returned {m m' : Machine} {sched : List Event} {r : Request}
    (h : m.perform sched (.request r) = some (.returned, m')) :
    ∃ e e' w, m.engine = some e ∧ r.run (e, ⟨m.disk, sched⟩) = .ok () (e', w) := by
  rw [Machine.perform, Option.map_eq_some_iff] at h
  obtain ⟨e, he, hrun⟩ := h
  split at hrun
  · exact ⟨e, _, _, he, ‹_›⟩
  · cases hrun
  · cases hrun

/-- A session that was computed, and what was found out about its machine. -/
theorem exists_session {f : Directory} {history : List Entry} (p : Machine → Bool)
    (h : (Machine.runs ⟨none, ⟨f, []⟩⟩ history).any p = true) :
    ∃ m, Session f history m ∧ p m = true := by
  obtain ⟨m, hm, hp⟩ := (Option.any_eq_true _ _).1 h
  exact ⟨m, session_iff_runs.2 hm, hp⟩

/-- Which puts of a call count: a put that returned does, a put that crashed or met a failing call
may, and nothing else does. -/
def Entry.Resolves (x : Entry) (effect : List WalPutRecord) : Prop :=
  match x.outcome with
  | .returned => effect = x.call.puts
  | .crashed => effect = [] ∨ effect = x.call.puts
  | .threw _ => effect = [] ∨ Failing x.sched ∧ effect = x.call.puts

/-- The calls that make everything durable that was put before. -/
def Entry.Settles (x : Entry) (m : Machine) : Prop :=
  x.outcome = .returned ∧ ∃ r e, x.call = .request r ∧ m.engine = some e ∧
    r.settles e.walWriter.durability = true

/-- Memory and directory stand for the puts, of which the first `n` are durable. -/
def Standing (o : Origin) (puts : List WalPutRecord) (n : ℕ) (m : Machine) : Prop :=
  match m.engine with
  | none => Reaches o (Tracks puts n) m.disk
  | some e => (∃ durability, Usable o puts n durability e m.disk) ∨
      e.failed = true ∧ Reaches o (Tracks puts n) m.disk

section Step

variable {o : Origin} {S : List Event} {puts : List WalPutRecord} {n : ℕ}

/-- The disk of a usable engine is at a stage that tracks its puts. -/
theorem Usable.reaches {durability : WalDurability} {e : StorageEngine} {d : Disk Bytes UInt8}
    (h : Usable o puts n durability e d) : Reaches o (Tracks puts n) d := by
  obtain ⟨c, log, -, htracks, -, hat⟩ := h
  exact ⟨_, hat, .idle htracks⟩

/-- Whatever became of the process, the directory can be recovered. -/
theorem Standing.reaches {m : Machine} (h : Standing o puts n m) :
    Reaches o (Tracks puts n) m.disk := by
  obtain ⟨engine, disk⟩ := m
  cases engine with
  | none => exact h
  | some e => exact h.elim (fun ⟨_, h⟩ ↦ h.reaches) fun h ↦ h.2

/-- **Opening the store** on a directory that can be recovered. -/
theorem spec_reopen {σ : Type} {s₀ : σ} (listing : Listing)
    (durability : WalDurability) :
    Spec S (fun s d ↦ s = s₀ ∧ Reaches o (Tracks puts n) d) (StorageEngine.open listing durability)
      (fun e s d ↦ s = s₀ ∧ Usable o puts n durability e d)
      (Throws o S (Tracks puts n) fun _ ↦ False) (Reaches o (Tracks puts n)) := by
  refine Spec.pre (A := fun s d ↦ ∃ (c : Catalog) (log : Option WalLog), Tracks puts n c log ∧
    Here o ⟨c, log, none, .idle⟩ s₀ s d) ?_ ?_
  swap
  · rintro s d ⟨rfl, st, hat, htracks⟩
    exact ⟨st.abandoned.catalog, st.abandoned.log, htracks.abandoned, rfl, hat.abandon⟩
  refine Spec.exists_pre fun c ↦ Spec.exists_pre fun log ↦ Spec.assume fun htracks ↦ ?_
  refine (spec_open listing durability fun log' hrec hsync ↦ htracks.of_log hrec hsync).post ?_
  rintro e s d ⟨log', hrec, htail, hsync, rfl, rfl, hat⟩
  exact ⟨rfl, c, log', htail, htracks.of_log hrec hsync, rfl, hat⟩

/-- A call that was cut off has done its puts, or it has not. -/
theorem exists_effect {more : List WalPutRecord} {d : Disk Bytes UInt8}
    (h : AtSome o (MayPut puts more n) d) :
    ∃ effect, (effect = [] ∨ effect = more) ∧ Reaches o (Tracks (puts ++ effect) n) d := by
  obtain ⟨st, hat, ht | ht⟩ := h
  · exact ⟨[], Or.inl rfl, st, hat, by rwa [List.append_nil]⟩
  · exact ⟨more, Or.inr rfl, st, hat, ht⟩

/-- How a request on a usable engine throws. -/
def RequestThrows (o : Origin) (S : List Event) (puts : List WalPutRecord) (n : ℕ)
    (durability : WalDurability) (r : Request) (_ : Error) (e : StorageEngine)
    (d : Disk Bytes UInt8) :
    Prop :=
  ∃ effect, (effect = [] ∨ Failing S ∧ effect = r.puts) ∧
    (Usable o (puts ++ effect) n durability e d ∨
      e.failed = true ∧ Reaches o (Tracks (puts ++ effect) n) d)

/-- Where a request on a usable engine may crash. -/
def RequestCrashes (o : Origin) (puts : List WalPutRecord) (n : ℕ) (r : Request)
    (d : Disk Bytes UInt8) : Prop :=
  AtSome o (MayPut puts r.puts n) d

theorem Poisons.requestThrows {R : Error → Prop} {durability : WalDurability} {r : Request}
    {err : Error}
    {e : StorageEngine} {d : Disk Bytes UInt8} (h : Poisons o S (Tracks puts n) R err e d) :
    RequestThrows o S puts n durability r err e d :=
  ⟨[], Or.inl rfl, Or.inr ⟨h.1, by rw [List.append_nil]; exact h.2.1⟩⟩

theorem Reaches.requestCrashes {r : Request} {d : Disk Bytes UInt8}
    (h : Reaches o (Tracks puts n) d) :
    RequestCrashes o puts n r d :=
  h.mono fun _ ↦ Or.inl

/-- **A request on a usable engine.** -/
theorem spec_request {durability : WalDurability} (e₀ : StorageEngine)
    (r : Request) :
    Spec S (fun e d ↦ e = e₀ ∧ Usable o puts n durability e d) r.run
      (fun _ e d ↦ Usable o (puts ++ r.puts)
        (if r.settles durability then (puts ++ r.puts).length else n) durability e d)
      (RequestThrows o S puts n durability r) (RequestCrashes o puts n r) := by
  have hquery : r.writes = false → Spec S (fun e d ↦ e = e₀ ∧ Usable o puts n durability e d) r.run
      (fun _ e d ↦ Usable o (puts ++ []) n durability e d)
      (RequestThrows o S puts n durability r) (RequestCrashes o puts n r) := by
    intro hr
    refine ((Request.quiet hr).spec _).conseq (fun _ _ ↦ id) ?_ ?_ ?_
    · rintro _ e d ⟨-, h⟩
      rwa [List.append_nil]
    · rintro err e d ⟨-, h⟩
      exact ⟨[], Or.inl rfl, Or.inl (by rwa [List.append_nil])⟩
    · rintro d ⟨e, -, h⟩
      exact h.reaches.requestCrashes
  cases r with
  | put key sample =>
    refine (spec_put e₀ key sample).conseq (fun _ _ ↦ id) ?_ ?_ ?_
    · rintro _ e d ⟨-, -, h⟩
      simpa [Request.puts, Request.settles] using h
    · rintro err e d (⟨-, -, h⟩ | ⟨hfailed, ⟨hS, h⟩ | ⟨-, h⟩⟩)
      · exact ⟨[], Or.inl rfl, Or.inl (by rwa [List.append_nil])⟩
      · obtain ⟨effect, heffect, hrest⟩ := exists_effect h
        exact ⟨effect, heffect.imp_right fun h ↦ ⟨hS.1, h⟩, Or.inr ⟨hfailed, hrest⟩⟩
      · exact ⟨[], Or.inl rfl, Or.inr ⟨hfailed, by rwa [List.append_nil]⟩⟩
    · exact fun _ ↦ id
  | sync =>
    refine (spec_sync (R := fun _ ↦ False) e₀).conseq (fun _ _ ↦ id) ?_
      (fun _ _ _ h ↦ h.requestThrows) fun _ h ↦ h.requestCrashes
    rintro _ e d ⟨-, h⟩
    simpa [Request.puts, Request.settles] using h
  | flush =>
    refine (spec_flush e₀).conseq (fun _ _ ↦ id) ?_ (fun _ _ _ h ↦ h.requestThrows)
      fun _ h ↦ h.requestCrashes
    rintro _ e d ⟨-, -, h⟩
    simpa [Request.puts, Request.settles] using h
  | compact =>
    refine (spec_compact e₀).conseq (fun _ _ ↦ id) ?_ (fun _ _ _ h ↦ h.requestThrows)
      fun _ h ↦ h.requestCrashes
    rintro _ e d ⟨-, h⟩
    simpa [Request.puts, Request.settles] using h
  | _ => exact hquery rfl

/-- An engine that has synced some puts has synced fewer. -/
theorem Usable.mono {durability : WalDurability} {e : StorageEngine} {d : Disk Bytes UInt8} {m : ℕ}
    (h : Usable o puts n durability e d) (hm : m ≤ n) : Usable o puts m durability e d := by
  obtain ⟨c, log, htail, htracks, hhere⟩ := h
  exact ⟨c, log, htail, htracks.mono hm, hhere⟩

theorem Usable.le_length {durability : WalDurability} {e : StorageEngine} {d : Disk Bytes UInt8}
    (h : Usable o puts n durability e d) : n ≤ puts.length := by
  obtain ⟨c, log, -, htracks, -⟩ := h
  exact htracks.le_length

theorem Usable.durability_eq {durability : WalDurability} {e : StorageEngine} {d : Disk Bytes UInt8}
    (h : Usable o puts n durability e d) : e.walWriter.durability = durability := by
  obtain ⟨c, log, -, -, rfl, -⟩ := h
  rfl

theorem Usable.failed_eq {durability : WalDurability} {e : StorageEngine} {d : Disk Bytes UInt8}
    (h : Usable o puts n durability e d) : e.failed = false := by
  obtain ⟨c, log, -, -, rfl, -⟩ := h
  rfl

/-- **One call** of a session: memory and directory stand for the puts that count. -/
theorem Standing.step {m m' : Machine} {x : Entry}
    (h : Standing o puts n m)
    (hx : m.perform x.sched x.call = some (x.outcome, m')) :
    ∃ effect, x.Resolves effect ∧ Standing o (puts ++ effect) n m' ∧
      (x.Settles m → Standing o (puts ++ effect) (puts ++ effect).length m') ∧
      (x.outcome = .returned → ∃ e, m'.engine = some e ∧ e.failed = false) := by
  obtain ⟨call, sched, outcome⟩ := x
  dsimp only at hx
  cases call with
  | «open» listing durability =>
    have hspec := spec_reopen (S := sched) listing durability ()
      ⟨m.disk, sched⟩ ⟨rfl, h.reaches⟩ (List.suffix_refl _)
    rw [Machine.perform] at hx
    revert hx hspec
    rcases StorageEngine.open listing durability ((), ⟨m.disk, sched⟩) with
      ⟨e, _, w⟩ | ⟨err | -, _, w⟩
    · rintro hx ⟨⟨-, husable⟩, -⟩
      obtain ⟨rfl, rfl⟩ := Prod.mk.inj (Option.some.inj hx)
      refine ⟨[], rfl, ?_, (fun ⟨_, r, e, hcall, _⟩ ↦ nomatch hcall), fun _ ↦ ⟨e, rfl, ?_⟩⟩
      · rw [List.append_nil]
        exact Or.inl ⟨durability, husable⟩
      · exact husable.failed_eq
    · rintro hx ⟨hrest, -⟩
      obtain ⟨rfl, rfl⟩ := Prod.mk.inj (Option.some.inj hx)
      refine ⟨[], Or.inl rfl, ?_, (fun h ↦ nomatch h.1), fun h ↦ nomatch h⟩
      rw [List.append_nil]
      exact hrest
    · rintro hx ⟨-, hreach⟩
      obtain ⟨rfl, rfl⟩ := Prod.mk.inj (Option.some.inj hx)
      refine ⟨[], Or.inl rfl, ?_, (fun h ↦ nomatch h.1), fun h ↦ nomatch h⟩
      rw [List.append_nil]
      exact hreach
  | request r =>
    obtain ⟨engine, disk⟩ := m
    cases engine with
    | none => cases hx
    | some e =>
    rcases h with ⟨durability, husable⟩ | ⟨hfailed, hrest⟩
    · have hspec := spec_request (S := sched) e r e ⟨disk, sched⟩ ⟨rfl, husable⟩
        (List.suffix_refl _)
      rw [Machine.perform, Option.map_some] at hx
      revert hx hspec
      dsimp only
      rcases r.run (e, ⟨disk, sched⟩) with ⟨_, e', w⟩ | ⟨err | -, e', w⟩
      · rintro hx ⟨hnext, -⟩
        obtain ⟨rfl, rfl⟩ := Prod.mk.inj (Option.some.inj hx)
        refine ⟨r.puts, rfl, Or.inl ⟨durability, hnext.mono ?_⟩, ?_,
          fun _ ↦ ⟨e', rfl, hnext.failed_eq⟩⟩
        · split
          · rw [List.length_append]
            exact Nat.le_add_right_of_le husable.le_length
          · exact le_refl n
        · rintro ⟨-, r', e'', hcall, hengine, hsettles⟩
          obtain rfl := Call.request.inj hcall
          obtain rfl := Option.some.inj hengine
          rw [husable.durability_eq] at hsettles
          rw [if_pos hsettles] at hnext
          exact Or.inl ⟨durability, hnext⟩
      · rintro hx ⟨effect, heffect, hnext⟩
        obtain ⟨rfl, rfl⟩ := Prod.mk.inj (Option.some.inj hx)
        exact ⟨effect, heffect, hnext.imp (fun h ↦ ⟨durability, h⟩) id, (fun h ↦ nomatch h.1),
          fun h ↦ nomatch h⟩
      · rintro hx ⟨-, hreach⟩
        obtain ⟨rfl, rfl⟩ := Prod.mk.inj (Option.some.inj hx)
        obtain ⟨effect, heffect, hrest⟩ := exists_effect hreach
        exact ⟨effect, heffect, hrest, (fun h ↦ nomatch h.1), fun h ↦ nomatch h⟩
    · rw [Machine.perform, Option.map_some, Request.run_of_failed hfailed] at hx
      obtain ⟨rfl, rfl⟩ := Prod.mk.inj (Option.some.inj hx)
      refine ⟨[], Or.inl rfl, ?_, (fun h ↦ nomatch h.1), fun h ↦ nomatch h⟩
      rw [List.append_nil]
      exact Or.inr ⟨hfailed, hrest⟩

end Step

/-! ### Whole sessions -/

/-- No store has been in the directory yet; other files may be there. -/
def Fresh (f : Directory) : Prop := f.find? manifestName = none ∧ f.find? walName = none

/-- The origin of the sessions on a fresh directory. -/
def Fresh.origin {f : Directory} (h : Fresh f) : Origin where
  files := f
  stage := ⟨.empty, none, none, .idle⟩
  holds := ⟨Or.inl ⟨h.1, rfl⟩, by simp [Catalog.empty], h.2, by simp, by simp⟩

/-- An empty directory says what no puts say. -/
theorem tracks_empty : Tracks [] 0 .empty none :=
  Agrees.tracks ⟨[], [], [], rfl, rfl, fun _ ↦ rfl, Nat.zero_le _⟩ rfl fun _ ↦ id

/-- At the start of a session no engine is open. -/
theorem Fresh.standing {f : Directory} (h : Fresh f) : Standing h.origin [] 0 ⟨none, ⟨f, []⟩⟩ :=
  ⟨_, At.start h.origin, .idle tracks_empty⟩

/-- A session determines the machine it leads to. -/
theorem Session.machine_eq {f : Directory} {history : List Entry} {m m' : Machine}
    (h : Session f history m) (h' : Session f history m') : m = m' := by
  induction h generalizing m' with
  | start =>
    generalize hnil : ([] : List Entry) = history at h'
    cases h' with
    | start => rfl
    | call => simp at hnil
  | @call history m₁ m₂ x _ hx ih =>
    generalize hlast : history ++ [x] = whole at h'
    cases h' with
    | start => simp at hlast
    | @call history' m₁' m₂' x' hprev hx' =>
      obtain ⟨rfl, hxs⟩ := List.append_inj' hlast rfl
      obtain rfl : x = x' := by simpa using hxs
      obtain rfl := ih hprev
      rw [hx] at hx'
      exact (Prod.mk.inj (Option.some.inj hx')).2

/-- **The simulation.** There is one choice of the puts that count, and at every point of the
session memory and directory stand for those that count so far. -/
theorem Session.standing {f : Directory} (hf : Fresh f) {history : List Entry} {m : Machine}
    (h : Session f history m) :
    ∃ effects, List.Forall₂ Entry.Resolves history effects ∧
      ∀ k ≤ history.length, ∀ m₁, Session f (history.take k) m₁ →
        Standing hf.origin (effects.take k).flatten 0 m₁ := by
  induction h with
  | start =>
    refine ⟨[], .nil, fun k hk m₁ h₁ ↦ ?_⟩
    obtain rfl : m₁ = ⟨none, ⟨f, []⟩⟩ := Session.machine_eq (by simpa using h₁) .start
    simpa using hf.standing
  | @call history m m' x hprev hx ih =>
    obtain ⟨effects, hall, hstanding⟩ := ih
    have hlen := hall.length_eq
    have hnow := hstanding history.length (le_refl _) m (by rwa [List.take_length])
    obtain ⟨effect, hresolves, hnext, -⟩ := hnow.step hx
    refine ⟨effects ++ [effect], List.rel_append hall (.cons hresolves .nil), fun k hk m₁ h₁ ↦ ?_⟩
    rw [List.length_append, List.length_singleton] at hk
    rcases Nat.lt_or_ge k (history.length + 1) with hlt | hge
    · rw [List.take_append_of_le_length (by omega)] at h₁ ⊢
      exact hstanding k (by omega) m₁ h₁
    · obtain rfl : k = history.length + 1 := by omega
      rw [List.take_of_length_le (by simp)] at h₁
      rw [Session.machine_eq h₁ (hprev.call hx), List.take_of_length_le (by simp [hlen]),
        List.flatten_append, List.flatten_singleton]
      rwa [hlen, List.take_length] at hnext

/-- The end of a session. -/
theorem Session.standing_now {f : Directory} (hf : Fresh f) {history : List Entry} {m : Machine}
    (h : Session f history m) :
    ∃ effects, List.Forall₂ Entry.Resolves history effects ∧
      Standing hf.origin effects.flatten 0 m := by
  obtain ⟨effects, hall, hstanding⟩ := h.standing hf
  have hnow := hstanding history.length (le_refl _) m (by rwa [List.take_length])
  rw [hall.length_eq, List.take_length] at hnow
  exact ⟨effects, hall, hnow⟩

end ChronoStore
