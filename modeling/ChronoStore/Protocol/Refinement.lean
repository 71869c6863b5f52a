import ChronoStore.Engine.AnyDirectory
import ChronoStore.Protocol.Session

/-!
# The store refines a map

The consequences of the simulation (`Session.standing`) for the users of the store.

* Where nothing fails and every call returns, all queries agree with the map built from the puts
  (`session_refines_map`).
* Whatever crashes and wherever, the next opening succeeds, and the store then is the map built from
  the puts that returned and possibly one put for each crash, the one that was in flight
  (`crash_consistent`).
* Whatever fails, an engine that still answers agrees with its directory, and one that does not has
  stopped for good (`memory_agrees_with_disk`).
-/

namespace ChronoStore

open FaultyDisk WriteHistory

/-- The puts of a session, in order. -/
def putsOf (history : List Entry) : List WalPutRecord := history.flatMap fun x ↦ x.call.puts

variable {f : Directory} {history : List Entry} {m : Machine} {o : Origin}
    {puts : List WalPutRecord}
  {n : ℕ}

/-! ### What can be done at any point of a session -/

/-- **The store opens** wherever a session has come to. -/
theorem Standing.reopens (h : Standing o puts n m) (listing : Listing)
    (durability : WalDurability) {sched : List Event} (hfail : ¬Failing sched) :
    (Crashing sched ∧ ∃ w, StorageEngine.open listing durability ((), ⟨m.disk, sched⟩) =
        .error .crash ((), w)) ∨
      ∃ e w, StorageEngine.open listing durability ((), ⟨m.disk, sched⟩) = .ok e ((), w) ∧
        Usable o puts n durability e w.toDisk := by
  have hspec := spec_reopen (S := sched) listing durability ()
    ⟨m.disk, sched⟩ ⟨rfl, h.reaches⟩ (List.suffix_refl _)
  revert hspec
  rcases StorageEngine.open listing durability ((), ⟨m.disk, sched⟩) with
    ⟨e, _, w⟩ | ⟨err | -, _, w⟩
  · rintro ⟨⟨-, husable⟩, -⟩
    exact Or.inr ⟨e, w, rfl, husable⟩
  · rintro ⟨-, ⟨hS, -⟩ | hfalse⟩
    · exact absurd hS hfail
    · exact hfalse.elim
  · rintro ⟨hc, -⟩
    exact Or.inl ⟨hc, w, rfl⟩

/-- **Recovery of the directory of a usable engine** computes what the engine holds in memory. -/
theorem Usable.recovers {durability : WalDurability} {e : StorageEngine} {d : Disk Bytes UInt8}
    (h : Usable o puts n durability e d) (listing : Listing) {sched : List Event}
    (hfail : ¬Failing sched) (hcrash : ¬Crashing sched) :
    ∃ w, recover listing ((), ⟨d, sched⟩) = .ok ⟨e.memtable, e.manifest, e.segments,
      e.logicalSampleCount, e.walWriter.sizeBytes⟩ ((), w) := by
  obtain ⟨c, log, htail, -, rfl, hat⟩ := h
  have hspec := @spec_recover o Unit sched (fun _ _ ↦ True) () (fun _ ↦ False) c (some log)
    listing fun _ _ _ ↦ trivial
  obtain ⟨r, _, w, hrun, log', hrec, htail', -, rfl, -, -⟩ := (hspec.conseq (fun _ _ ↦ id)
    (fun _ _ _ ↦ id) (fun _ _ _ h ↦ h.2.elim (fun h ↦ hfail h.1) id) fun _ ↦ id).returns hcrash
      (w := ⟨d, sched⟩) ⟨rfl, hat⟩ (List.suffix_refl _)
  have hsame : recoveryOf c log' = recoveryOf c log := by
    have hrec' : log'.records = log.records := hrec
    rw [recoveryOf, recoveryOf, WalLog.entries, WalLog.entries, WalLog.bytes, WalLog.bytes, hrec',
      htail, htail']
  rw [hsame] at hrun
  exact ⟨w, hrun⟩

/-- An engine that has not failed is usable. -/
theorem Standing.usable {e : StorageEngine} (h : Standing o puts n m) (he : m.engine = some e)
    (hfailed : e.failed = false) : ∃ durability, Usable o puts n durability e m.disk := by
  obtain ⟨engine, disk⟩ := m
  obtain rfl : engine = some e := he
  rcases h with h | ⟨hfailed', -⟩
  · exact h
  · rw [hfailed] at hfailed'
    cases hfailed'

/-- An engine that has not failed is usable at the end of a session. -/
theorem Session.usable (hf : Fresh f) (h : Session f history m) {e : StorageEngine}
    (he : m.engine = some e) (hfailed : e.failed = false) :
    ∃ puts durability, Usable hf.origin puts 0 durability e m.disk := by
  obtain ⟨effects, -, hnow⟩ := h.standing_now hf
  exact ⟨_, hnow.usable he hfailed⟩

/-- After a call that returned there is a usable engine. -/
theorem Session.engine_of_returned (hf : Fresh f) {x : Entry} (h : Session f (history ++ [x]) m)
    (hx : x.outcome = .returned) : ∃ e, m.engine = some e ∧ e.failed = false := by
  generalize hlast : history ++ [x] = whole at h
  cases h with
  | start => simp at hlast
  | @call history' m₁ m₂ x' hprev hstep =>
    obtain ⟨rfl, hxs⟩ := List.append_inj' hlast rfl
    obtain rfl : x = x' := by simpa using hxs
    obtain ⟨effects, -, hnow⟩ := hprev.standing_now hf
    obtain ⟨_, -, -, -, hengine⟩ := hnow.step hstep
    exact hengine hx

/-- A put that fits returns, where nothing fails. -/
theorem Usable.exists_put {durability : WalDurability} {e : StorageEngine} {d : Disk Bytes UInt8}
    (h : Usable o puts n durability e d) {r : WalPutRecord} (hr : e.Loggable r) :
    ∃ e' w, StorageEngine.put r.series r.sample (e, ⟨d, []⟩) = .ok () (e', w) ∧
      e.Grown r e' ∧ Usable o (puts ++ [r])
        (if durability = .syncOnAppend then puts.length + 1 else n) durability e' w.toDisk := by
  obtain ⟨_, e', w, hrun, -, hgrown, husable⟩ := ((spec_put (S := []) e r.series
    r.sample).conseq (fun _ _ ↦ id) (fun _ _ _ ↦ id) (by
      rintro err e' d (⟨⟨hS, -⟩, -⟩ | ⟨-, ⟨⟨hS, -⟩, -⟩ | ⟨⟨hnot, -⟩, -⟩⟩)
      · exact not_failing_nil hS
      · exact not_failing_nil hS
      · exact hnot hr) fun _ ↦ id).returns not_crashing_nil (w := ⟨d, []⟩) ⟨rfl, h⟩
        (List.suffix_refl _)
  exact ⟨e', w, hrun, hgrown, husable⟩

/-- The log is no longer than the frames of all puts. -/
theorem Usable.sizeBytes_le {durability : WalDurability} {e : StorageEngine} {d : Disk Bytes UInt8}
    (h : Usable o puts n durability e d) : e.walWriter.sizeBytes ≤ (walBytes puts).length := by
  obtain ⟨c, log, htail, htracks, rfl, -⟩ := h
  obtain ⟨settled, absorbed, pending, rfl, hlog, -, -⟩ := htracks.now
  have hrecords : log.records = absorbed ++ pending := hlog
  show log.bytes.length ≤ _
  rw [WalLog.bytes, htail, List.append_nil, hrecords, List.append_assoc]
  simp only [walBytes, List.flatMap_append, List.length_append]
  omega

/-! ### Nothing fails -/

/-- Where every call returns, every put counts. -/
theorem flatten_of_returned {effects : List (List WalPutRecord)}
    (h : List.Forall₂ Entry.Resolves history effects) (hok : ∀ x ∈ history, x.outcome = .returned) :
    effects.flatten = putsOf history := by
  induction h with
  | nil => rfl
  | @cons x effect history effects hx _ ih =>
    rw [Entry.Resolves, hok x List.mem_cons_self] at hx
    rw [List.flatten_cons, hx, ih fun y hy ↦ hok y (List.mem_cons_of_mem _ hy)]
    rfl

/-- **The store refines a map.** After any sequence of calls — opening, putting, synchronizing,
flushing, compacting, querying — that all returned, on a directory that held no store before, every
query agrees with the map built from the puts in order. -/
theorem session_refines_map (hf : Fresh f) (h : Session f history m) (hne : history ≠ [])
    (hok : ∀ x ∈ history, x.outcome = .returned) :
    ∃ e, m.engine = some e ∧ Answers e m.disk (historyOf (putsOf history)) := by
  obtain ⟨effects, hall, hnow⟩ := h.standing_now hf
  rw [flatten_of_returned hall hok] at hnow
  obtain ⟨before, x, rfl⟩ := List.eq_nil_or_concat history |>.resolve_left hne
  rw [List.concat_eq_append] at h hok hnow ⊢
  obtain ⟨e, he, hfailed⟩ := h.engine_of_returned hf (hok x (by simp))
  obtain ⟨durability, husable⟩ := hnow.usable he hfailed
  exact ⟨e, he, husable.answers⟩

/-! ### Three sessions -/

def openCall : Entry := ⟨.open .sorted .buffered, [], .returned⟩

def putCall (r : WalPutRecord) : Entry := ⟨.request (.put r.series r.sample), [], .returned⟩

def flushCall : Entry := ⟨.request .flush, [], .returned⟩

def compactCall : Entry := ⟨.request .compact, [], .returned⟩

/-- A session in which every call returns: two flushes, of which the second replaces a sample of the
first, a compaction, and a put to another series. -/
def compactedSession : List Entry :=
  [openCall, putCall cpuRecord, putCall laterRecord, flushCall, putCall replacingRecord, flushCall,
    compactCall, putCall ioRecord]

/-- A session with three crashes: in a flush, between the renaming of the manifest and the reset of
the log; in a put, which leaves a torn frame; and in the opening that cuts this frame off. -/
def crashedSession : List Entry :=
  [openCall, putCall cpuRecord,
    ⟨.request .flush, List.replicate 21 .ok ++ [.crash 1], .crashed⟩, openCall,
    ⟨(putCall ioRecord).call, [.crash 20], .crashed⟩,
    ⟨openCall.call, List.replicate 9 .ok ++ [.crash 0], .crashed⟩, openCall,
    putCall laterRecord, flushCall]

/-- A session with a put that meets a failing call, after which the engine refuses the next one. -/
def refusedSession : List Entry :=
  [openCall, putCall cpuRecord, flushCall,
    ⟨(putCall laterRecord).call, [.fail 20], .threw (.systemError "failed to append WAL")⟩,
    ⟨(putCall ioRecord).call, [],
      .threw (.runtimeError "storage engine is in a failed state; restart is required")⟩,
    openCall, putCall ioRecord]

/-- An empty directory is fresh. -/
theorem fresh_empty : Fresh OrderedMap.empty := ⟨rfl, rfl⟩

/-- A store into which nothing was put. -/
theorem Session.usable_of_no_puts (hf : Fresh f) (h : Session f history m)
    (hnone : ∀ x ∈ history, x.call.puts = []) {e : StorageEngine} (he : m.engine = some e)
    (hfailed : e.failed = false) :
    ∃ durability, Usable hf.origin [] 0 durability e m.disk := by
  obtain ⟨effects, hall, hnow⟩ := h.standing_now hf
  have hempty : effects.flatten = [] := by
    clear h hnow
    induction hall with
    | nil => rfl
    | @cons x effect history effects hx _ ih =>
      have heffect : effect = [] := by
        rw [Entry.Resolves, hnone x List.mem_cons_self] at hx
        split at hx
        · exact hx
        · exact hx.elim id id
        · exact hx.elim id And.right
      rw [List.flatten_cons, heffect, ih fun y hy ↦ hnone y (List.mem_cons_of_mem _ hy)]
      rfl
  rw [hempty] at hnow
  exact hnow.usable he hfailed

/-- A small record fits a log in which there is nothing. -/
theorem Usable.loggable_cpuRecord {durability : WalDurability} {e : StorageEngine}
    {d : Disk Bytes UInt8} (h : Usable o [] n durability e d) : e.Loggable cpuRecord := by
  have hsize : e.walWriter.sizeBytes ≤ 0 := h.sizeBytes_le
  have hlen : (walFrame cpuRecord).length = 45 := by decide +kernel
  refine ⟨by decide +kernel, ?_⟩
  omega

/-- The first session ends with one segment. -/
theorem exists_compactedSession : ∃ m, Session OrderedMap.empty compactedSession m ∧
    ∃ e, m.engine = some e ∧ e.segments.length = 1 ∧ e.logicalSampleCount = 3 := by
  obtain ⟨m, h, hend⟩ := @exists_session OrderedMap.empty compactedSession
    (fun m ↦ m.engine.any fun e ↦ e.segments.length = 1 ∧ e.logicalSampleCount = 3)
    (by decide +kernel)
  obtain ⟨e, he, hcounts⟩ := (Option.any_eq_true _ _).1 hend
  exact ⟨m, h, e, he, of_decide_eq_true hcounts⟩

/-- The second session ends with two segments. -/
theorem exists_crashedSession : ∃ m, Session OrderedMap.empty crashedSession m ∧
    ∃ e, m.engine = some e ∧ e.failed = false ∧ e.segments.length = 2 := by
  obtain ⟨m, h, hend⟩ := @exists_session OrderedMap.empty crashedSession
    (fun m ↦ m.engine.any fun e ↦ e.failed = false ∧ e.segments.length = 2)
    (by decide +kernel)
  obtain ⟨e, he, hcounts⟩ := (Option.any_eq_true _ _).1 hend
  exact ⟨m, h, e, he, of_decide_eq_true hcounts⟩

/-- The engine of the third session is usable again. -/
theorem exists_refusedSession : ∃ m, Session OrderedMap.empty refusedSession m ∧
    ∃ e, m.engine = some e ∧ e.failed = false := by
  obtain ⟨m, h, hend⟩ := @exists_session OrderedMap.empty refusedSession
    (fun m ↦ m.engine.any fun e ↦ e.failed = false) (by decide +kernel)
  obtain ⟨e, he, hfailed⟩ := (Option.any_eq_true _ _).1 hend
  exact ⟨m, h, e, he, of_decide_eq_true hfailed⟩

/-- After two flushes, one of them of a replaced sample, a compaction and one more put. -/
theorem session_refines_map_cpu : ∃ m, Session OrderedMap.empty compactedSession m ∧
    ∃ e, m.engine = some e ∧ Answers e m.disk
      (historyOf [cpuRecord, laterRecord, replacingRecord, ioRecord]) := by
  obtain ⟨m, h, -⟩ := exists_compactedSession
  exact ⟨m, h, session_refines_map fresh_empty h (by decide) (by
    simp [compactedSession, openCall, putCall, flushCall, compactCall])⟩

/-! ### Crashes -/

/-- Where no call fails, a put that threw does not count. -/
theorem forall₂_of_not_failing {effects : List (List WalPutRecord)}
    (h : List.Forall₂ Entry.Resolves history effects) (hio : ∀ x ∈ history, ¬Failing x.sched) :
    List.Forall₂ (fun (x : Entry) effect ↦
      effect = x.call.puts ∧ (x.outcome = .returned ∨ x.outcome = .crashed) ∨
        effect = [] ∧ x.outcome ≠ .returned) history effects := by
  induction h with
  | nil => exact .nil
  | @cons x effect history effects hx _ ih =>
    refine .cons ?_ (ih fun y hy ↦ hio y (List.mem_cons_of_mem _ hy))
    rw [Entry.Resolves] at hx
    cases houtcome : x.outcome with
    | returned =>
      rw [houtcome] at hx
      exact Or.inl ⟨hx, Or.inl rfl⟩
    | crashed =>
      rw [houtcome] at hx
      rcases hx with hnone | hsome
      · exact Or.inr ⟨hnone, by simp⟩
      · exact Or.inl ⟨hsome, Or.inr rfl⟩
    | threw err =>
      rw [houtcome] at hx
      rcases hx with hnone | ⟨hS, -⟩
      · exact Or.inr ⟨hnone, by simp⟩
      · exact absurd hS (hio x List.mem_cons_self)

/-- **Crash consistency.** Take any session without failing calls, with crashes at any step of any
call, recovery included. There is one choice of puts — every put that returned, and of those in
flight at a crash each or not — such that at every point of the session the store opens, unless the
process crashes again, and then answers every query as the map built from the chosen puts made so
far. -/
theorem crash_consistent (hf : Fresh f) (h : Session f history m)
    (hio : ∀ x ∈ history, ¬Failing x.sched) :
    ∃ effects, List.Forall₂ (fun (x : Entry) effect ↦
        effect = x.call.puts ∧ (x.outcome = .returned ∨ x.outcome = .crashed) ∨
          effect = [] ∧ x.outcome ≠ .returned) history effects ∧
      ∀ k ≤ history.length, ∀ m₁, Session f (history.take k) m₁ →
        ∀ listing durability sched, ¬Failing sched →
          (Crashing sched ∧ ∃ w, StorageEngine.open listing durability ((), ⟨m₁.disk, sched⟩) =
              .error .crash ((), w)) ∨
            ∃ e w, StorageEngine.open listing durability ((), ⟨m₁.disk, sched⟩) = .ok e ((), w) ∧
              Answers e w.toDisk (historyOf (effects.take k).flatten) := by
  obtain ⟨effects, hall, hstanding⟩ := h.standing hf
  refine ⟨effects, forall₂_of_not_failing hall hio,
    fun k hk m₁ h₁ listing durability sched hfail ↦ ?_⟩
  rcases (hstanding k hk m₁ h₁).reopens listing durability hfail with hcrash | ⟨e, w, hrun, husable⟩
  · exact Or.inl hcrash
  · exact Or.inr ⟨e, w, hrun, husable.answers⟩

/-- Crashes in a flush, in a put and in an opening. -/
theorem crash_consistent_crashedSession : ∃ m, Session OrderedMap.empty crashedSession m ∧
    ∃ effects, List.Forall₂ (fun (x : Entry) effect ↦
        effect = x.call.puts ∧ (x.outcome = .returned ∨ x.outcome = .crashed) ∨
          effect = [] ∧ x.outcome ≠ .returned) crashedSession effects ∧
      ∀ k ≤ crashedSession.length, ∀ m₁, Session OrderedMap.empty (crashedSession.take k) m₁ →
        ∀ listing durability sched, ¬Failing sched →
          (Crashing sched ∧ ∃ w, StorageEngine.open listing durability ((), ⟨m₁.disk, sched⟩) =
              .error .crash ((), w)) ∨
            ∃ e w, StorageEngine.open listing durability ((), ⟨m₁.disk, sched⟩) = .ok e ((), w) ∧
              Answers e w.toDisk (historyOf (effects.take k).flatten) := by
  obtain ⟨m, h, -⟩ := exists_crashedSession
  exact ⟨m, h, crash_consistent fresh_empty h (by
    simp [crashedSession, openCall, putCall, flushCall, Failing, Event.fails])⟩

/-! ### Failing calls -/

/-- **Memory and disk never disagree while the engine is usable.** Take any session, with failing
calls and crashes anywhere. An engine that has not failed holds in memory what recovery would
compute from the directory. An engine that has failed refuses every request and makes no further
call. And there is one choice of puts — every put that returned, and of those that met a failing
call or a crash each or not — such that at every point the directory recovers to the map built from
the chosen puts made so far: what it was before the call that failed, or what it would be after it.
-/
theorem memory_agrees_with_disk (hf : Fresh f) (h : Session f history m) :
    (∀ e, m.engine = some e → e.failed = false →
      ∀ listing sched, ¬Failing sched → ¬Crashing sched →
        ∃ w, recover listing ((), ⟨m.disk, sched⟩) = .ok ⟨e.memtable, e.manifest, e.segments,
          e.logicalSampleCount, e.walWriter.sizeBytes⟩ ((), w)) ∧
    (∀ e, m.engine = some e → e.failed = true → ∀ (r : Request) (sched : List Event),
      ∃ err, r.run (e, ⟨m.disk, sched⟩) = .error (.exn err) (e, ⟨m.disk, sched⟩)) ∧
    ∃ effects, List.Forall₂ Entry.Resolves history effects ∧
      ∀ k ≤ history.length, ∀ m₁, Session f (history.take k) m₁ →
        ∀ listing durability sched, ¬Failing sched → ¬Crashing sched →
          ∃ e w, StorageEngine.open listing durability ((), ⟨m₁.disk, sched⟩) = .ok e ((), w) ∧
            Answers e w.toDisk (historyOf (effects.take k).flatten) := by
  obtain ⟨effects, hall, hstanding⟩ := h.standing hf
  have hnow := hstanding history.length (le_refl _) m (by rwa [List.take_length])
  refine ⟨fun e he hfailed listing sched hfail hcrash ↦ ?_, fun e _ hfailed r sched ↦
    ⟨_, r.run_of_failed hfailed _⟩, effects, hall,
      fun k hk m₁ h₁ listing durability sched hfail hcrash ↦ ?_⟩
  · obtain ⟨durability, husable⟩ := hnow.usable he hfailed
    exact husable.recovers listing hfail hcrash
  · rcases (hstanding k hk m₁ h₁).reopens listing durability hfail with
      ⟨hc, -⟩ | ⟨e, w, hrun, husable⟩
    · exact absurd hc hcrash
    · exact ⟨e, w, hrun, husable.answers⟩

/-- After a put that met a failing call, one that was refused, and another opening. -/
theorem memory_agrees_with_disk_refusedSession : ∃ m, Session OrderedMap.empty refusedSession m ∧
    (∃ e, m.engine = some e ∧ e.failed = false ∧
      ∀ listing sched, ¬Failing sched → ¬Crashing sched →
        ∃ w, recover listing ((), ⟨m.disk, sched⟩) = .ok ⟨e.memtable, e.manifest, e.segments,
          e.logicalSampleCount, e.walWriter.sizeBytes⟩ ((), w)) ∧
    ∃ effects, List.Forall₂ Entry.Resolves refusedSession effects ∧
      ∀ k ≤ refusedSession.length, ∀ m₁, Session OrderedMap.empty (refusedSession.take k) m₁ →
        ∀ listing durability sched, ¬Failing sched → ¬Crashing sched →
          ∃ e w, StorageEngine.open listing durability ((), ⟨m₁.disk, sched⟩) = .ok e ((), w) ∧
            Answers e w.toDisk (historyOf (effects.take k).flatten) := by
  obtain ⟨m, h, e, he, hfailed⟩ := exists_refusedSession
  obtain ⟨hnow, -, hpoints⟩ := memory_agrees_with_disk fresh_empty h
  exact ⟨m, h, ⟨e, he, hfailed, hnow e he hfailed⟩, hpoints⟩

end ChronoStore
