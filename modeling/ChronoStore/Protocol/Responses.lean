import ChronoStore.Protocol.Limits

/-!
# What requests answer, and why they throw

`Request.run` forgets what a request answers. Here the answer is kept (`Request.respond`), and the
map that the puts denote says which answers are allowed (`Request.Allows`): the queries of the map
are determined by it, and of the counters that show how the store is laid out only as much is said
as the map knows.

A request on a usable engine throws for one of two reasons (`Request.Excuse`): a call of the
operating system failed, or the request was refused, by a limit of the store or because a range ends
before it starts. Together with the simulation this gives that no session ever sees a report of
corruption: what the store has written, the store can read (`exception_has_cause`).
-/

namespace ChronoStore

open FaultyDisk WriteHistory

/-- What a request answers. -/
inductive Response
  | done
  | sample (found : Option Sample)
  | samples (found : List Sample)
  | names (found : List SeriesKey)
  | count (n : ℕ)
  | flag (b : Bool)
  | stats (s : StorageEngineStats)
deriving DecidableEq

/-- The call, with its result. -/
def Request.respond : Request → Prog StorageEngine Response
  | .put key sample => do
    StorageEngine.put key sample
    return .done
  | .sync => do
    StorageEngine.sync
    return .done
  | .flush => do
    StorageEngine.flush
    return .done
  | .compact => do
    StorageEngine.compact
    return .done
  | .latest key => return .sample (← StorageEngine.latest key)
  | .get key t => return .sample (← StorageEngine.get key t)
  | .range key start stop => return .samples (← StorageEngine.range key start stop)
  | .series => return .names (← StorageEngine.series)
  | .sampleCount => return .count (← StorageEngine.sampleCount)
  | .memtableSampleCount => return .count (← StorageEngine.memtableSampleCount)
  | .empty => return .flag (← StorageEngine.empty)
  | .segmentCount => return .count (← StorageEngine.segmentCount)
  | .walSizeBytes => return .count (← StorageEngine.walSizeBytes)
  | .stats => return .stats (← StorageEngine.stats)

/-- To forget the answer is to run the request. -/
theorem Request.respond_forget (r : Request) :
    (do let _ ← r.respond : Prog StorageEngine Unit) = r.run := by
  cases r with
  | put | sync | flush | compact =>
    simp only [Request.respond, Request.run, bind_assoc, pure_bind]
    exact bind_pure_unit
  | _ => simp only [Request.respond, Request.run, bind_assoc, pure_bind]

/-- The answers to a request that the map of a history allows. -/
def Request.Allows (history : List (Key × Value)) : Request → Response → Prop
  | .latest s, a => ∃ x, a = .sample x ∧ IsLatest history s x
  | .get s t, a => a = .sample (sampleAt t (lastWrite history (s, t)))
  | .range s start stop, a =>
    start ≤ stop ∧ ∃ xs, a = .samples xs ∧ IsRange history s start stop xs
  | .series, a => ∃ names, a = .names names ∧ IsSeries history names
  | .sampleCount, a => a = .count (keys history).card
  | .memtableSampleCount, a => ∃ n ≤ (keys history).card, a = .count n
  | .empty, a => a = .flag ((keys history).card = 0)
  | .segmentCount, a => ∃ n, a = .count n
  | .walSizeBytes, a => ∃ n, a = .count n
  | .stats, a => ∃ s, a = .stats s ∧ s.logicalSampleCount = (keys history).card ∧
      s.memtableSampleCount ≤ s.logicalSampleCount
  | _, a => a = .done

/-- How an engine on a directory refuses a request: the log cannot take the record, the table or the
merged segments do not fit a segment, or the range is none. -/
def Request.Refuses (e : StorageEngine) (files : Directory) : Request → Error → Prop
  | .put key sample, err => ¬e.Loggable ⟨key, sample⟩ ∧ err.IsRefusal
  | .flush, err => e.memtable.isEmpty = false ∧ ¬e.Publishable ∧ err.IsRefusal
  | .compact, err => 1 < e.segments.length ∧ ¬e.Compactable files ∧ err.IsRefusal
  | .range _ start stop, err =>
    stop < start ∧ err = .invalidArgument "range end must not precede range start"
  | _, _ => False

/-- Why a request on a usable engine may throw. -/
def Request.Excuse (S : List Event) (e : StorageEngine) (files : Directory) (r : Request)
    (err : Error) :
    Prop := Failing S ∧ err.IsIo ∨ r.Refuses e files err

/-- An error of the system is no format error. -/
theorem not_isFormat_of_isIo {err : Error} (h : err.IsIo) : ¬err.IsFormat := by
  cases err <;> simp_all [Error.IsIo, Error.IsFormat]

/-- None of the reasons is damage. -/
theorem Request.Excuse.not_isFormat {S : List Event} {e : StorageEngine} {files : Directory}
    {r : Request}
    {err : Error} (h : r.Excuse S e files err) : ¬err.IsFormat := by
  have hrefusal : err.IsRefusal → ¬err.IsFormat := by
    cases err <;> simp [Error.IsRefusal, Error.IsFormat]
  rcases h with ⟨-, hio⟩ | hrefuses
  · exact not_isFormat_of_isIo hio
  · cases r with
    | put key sample => exact hrefusal hrefuses.2
    | flush => exact hrefusal hrefuses.2.2
    | compact => exact hrefusal hrefuses.2.2
    | range key start stop =>
      rw [hrefuses.2]
      exact id
    | _ => exact hrefuses.elim

/-! ### Queries consult the disk -/

section Consulting

theorem consults_ensureUsable : Consults Error.IsIo StorageEngine.ensureUsable :=
  Consults.state.bind fun _ ↦ Consults.ite (Consults.throw _) (Consults.pure _)

/-- A query that looks at the engine only. -/
theorem consults_look {α : Type} {k : StorageEngine → Prog StorageEngine α}
    (h : ∀ e, Consults Error.IsIo (k e)) :
    Consults Error.IsIo (do
      StorageEngine.ensureUsable
      k (← Act.state)) :=
  consults_ensureUsable.bind fun _ ↦ Consults.state.bind h

theorem consults_latest (series : SeriesKey) : Consults Error.IsIo (StorageEngine.latest series) :=
  consults_look fun e ↦ (Consults.of_reads fun _ ↦
    ⟨_, fun _ ↦ reads_latestInSegments_in e.segments series⟩).bind fun _ ↦ Consults.pure _

/-- A query consults the files and nothing else. -/
theorem consults_get (series : SeriesKey) (t : Timestamp) :
    Consults Error.IsIo (StorageEngine.get series t) :=
  consults_look fun e ↦ Consults.ite (Consults.pure _) (Consults.of_reads fun _ ↦
    ⟨_, fun _ ↦ reads_getInSegments_in series t e.segments.reverse⟩)

theorem consults_range (series : SeriesKey) (start stop : Timestamp) :
    Consults Error.IsIo (StorageEngine.range series start stop) :=
  consults_ensureUsable.bind fun _ ↦ Consults.ite (Consults.throw _) (Consults.state.bind fun e ↦
    (Consults.of_reads fun _ ↦
      ⟨_, fun _ ↦ reads_rangeInSegments_in e.segments series start stop⟩).bind fun _ ↦
        (Consults.ofExcept _).bind fun _ ↦ Consults.pure _)

/-- **A query consults the disk**: what it answers does not depend on how often it is interrupted.
-/
theorem Request.consults {r : Request} (h : r.writes = false) : Consults Error.IsIo r.respond := by
  have hanswer : ∀ {α : Type} {m : Prog StorageEngine α} {answer : α → Response},
      Consults Error.IsIo m → Consults Error.IsIo (do return answer (← m)) :=
    fun hm ↦ hm.bind fun _ ↦ Consults.pure _
  cases r with
  | put | sync | flush | compact => cases h
  | latest series => exact hanswer (consults_latest series)
  | get series t => exact hanswer (consults_get series t)
  | range series start stop => exact hanswer (consults_range series start stop)
  | sampleCount | stats =>
    exact hanswer (consults_look fun _ ↦ Consults.ite (Consults.throw _) (Consults.pure _))
  | series | memtableSampleCount | empty | segmentCount | walSizeBytes =>
    exact hanswer (consults_look fun _ ↦ Consults.pure _)

end Consulting

/-! ### The answers of a usable engine -/

section Answering

variable {o : Origin} {S : List Event} {puts : List WalPutRecord} {n : ℕ}
    {durability : WalDurability}
  {e : StorageEngine} {d : Disk Bytes UInt8}

theorem Returns.map {α β : Type} {m : Prog StorageEngine α} {a : α} (h : Returns m e d a)
    (f : α → β) :
    Returns (do return f (← m)) e d (f a) := by
  intro sched hfail hcrash
  obtain ⟨rest, hrun⟩ := h sched hfail hcrash
  exact ⟨rest, by rw [bind_apply, hrun]; rfl⟩

/-- A query that looks at a usable engine only. -/
theorem Usable.returns_look (h : Usable o puts n durability e d) {α : Type}
    (f : StorageEngine → α) :
    Returns (do
      StorageEngine.ensureUsable
      return f (← Act.state)) e d (f e) :=
  Returns.usable_bind h.failed_eq (Returns.state_bind fun sched _ _ ↦ ⟨sched, rfl⟩)

/-- The counter of a usable engine counts the keys of its map. -/
theorem Usable.logicalSampleCount_eq (h : Usable o puts n durability e d) :
    e.logicalSampleCount = (keys (historyOf puts)).card := by
  obtain ⟨c, log, -, htracks, rfl, -⟩ := h
  rw [← keys_congr htracks.contents]
  rfl

/-- The table holds no keys that the map does not have. -/
theorem Usable.memtable_le (h : Usable o puts n durability e d) :
    e.memtable.sampleCount ≤ (keys (historyOf puts)).card := by
  obtain ⟨c, log, -, htracks, rfl, -⟩ := h
  have hlen := log.length_records_lt
  unfold walHeaderSize at hlen
  show (MemTable.ofRecords log.records).sampleCount ≤ _
  rw [MemTable.sampleCount_ofRecords (by omega), ← keys_congr htracks.contents, keys_append]
  exact Finset.card_le_card Finset.subset_union_right

/-- The counter of a usable engine has not overflowed. -/
theorem Usable.logicalSampleCount_le (h : Usable o puts n durability e d) :
    ¬e.logicalSampleCount > 2 ^ 64 - 1 := by
  obtain ⟨c, log, -, -, rfl, -⟩ := h
  have hle := card_keys_le_length (c.entries ++ log.entries)
  have hlt := c.length_add_length_lt log
  rw [List.length_append, WalLog.entries, List.length_map, ← WalLog.entries] at hle
  simp only [engineOf]
  omega

/-- **Every query of a usable engine has an answer that the map allows**, except for a range that
ends before it starts. -/
theorem Usable.exists_answer (h : Usable o puts n durability e d) {r : Request}
    (hr : r.writes = false) (hrange : ∀ s start stop, r = .range s start stop → start ≤ stop) :
    ∃ a, Returns r.respond e d a ∧ r.Allows (historyOf puts) a := by
  have hanswers := h.answers
  cases r with
  | put | sync | flush | compact => cases hr
  | latest s =>
    obtain ⟨x, hx, hlatest⟩ := hanswers.latest s
    exact ⟨_, hx.map _, x, rfl, hlatest⟩
  | get s t => exact ⟨_, (hanswers.get s t).map _, rfl⟩
  | range s start stop =>
    have hle := hrange s start stop rfl
    obtain ⟨xs, hxs, hall⟩ := hanswers.range s start stop hle
    exact ⟨_, hxs.map _, hle, xs, rfl, hall⟩
  | series =>
    obtain ⟨names, hnames, hall⟩ := hanswers.series
    exact ⟨_, hnames.map _, names, rfl, hall⟩
  | sampleCount => exact ⟨_, hanswers.sampleCount.map _, rfl⟩
  | memtableSampleCount =>
    exact ⟨_, (h.returns_look fun e ↦ e.memtable.sampleCount).map _, _, h.memtable_le, rfl⟩
  | empty =>
    refine ⟨_, (h.returns_look fun e ↦ decide (e.logicalSampleCount = 0)).map _, ?_⟩
    rw [h.logicalSampleCount_eq]
    rfl
  | segmentCount => exact ⟨_, (h.returns_look fun e ↦ e.segments.length).map _, _, rfl⟩
  | walSizeBytes => exact ⟨_, (h.returns_look fun e ↦ e.walWriter.sizeBytes).map _, _, rfl⟩
  | stats =>
    have hstats : Returns StorageEngine.stats e d ⟨e.logicalSampleCount, e.memtable.sampleCount,
        e.segments.length, e.walWriter.sizeBytes⟩ := by
      refine Returns.usable_bind h.failed_eq (Returns.state_bind ?_)
      rw [if_neg h.logicalSampleCount_le]
      exact fun sched _ _ ↦ ⟨sched, rfl⟩
    refine ⟨_, hstats.map _, _, rfl, h.logicalSampleCount_eq, ?_⟩
    exact h.memtable_le.trans_eq h.logicalSampleCount_eq.symm

/-- **What a request on a usable engine answers**, if it returns, is allowed by the map; and if it
throws, it has an excuse. -/
theorem spec_answer (e₀ : StorageEngine) (files : Directory) (r : Request) :
    Spec S (fun e d ↦ d.files = files ∧ e = e₀ ∧ Usable o puts n durability e d) r.respond
      (fun a _ _ ↦ r.Allows (historyOf puts) a) (fun err _ _ ↦ r.Excuse S e₀ files err)
      (fun _ ↦ True) := by
  have hquery : r.writes = false → (∀ s start stop, r = .range s start stop → start ≤ stop) →
      Spec S (fun e d ↦ e = e₀ ∧ Usable o puts n durability e d) r.respond
        (fun a _ _ ↦ r.Allows (historyOf puts) a) (fun err _ _ ↦ r.Excuse S e₀ files err)
        (fun _ ↦ True) := by
    rintro hr hrange e w ⟨rfl, h⟩ hs
    obtain ⟨a, hreturns, hallows⟩ := h.exists_answer hr hrange
    obtain ⟨rest, hrun⟩ := hreturns [] not_failing_nil not_crashing_nil
    exact (((Request.consults hr).spec_of_returns hrun S).conseq (fun _ _ ↦ id)
      (fun _ _ _ h ↦ h.1 ▸ hallows) (fun _ _ _ h ↦ Or.inl h.1) fun _ _ ↦ trivial) e w ⟨rfl, rfl⟩ hs
  by_cases hcompact : r = .compact
  · subst hcompact
    by_cases hfew : e₀.segments.length ≤ 1
    · -- nothing is done
      refine Spec.bind ?_ fun _ ↦ Spec.pure (A := fun _ _ ↦ True) fun _ _ _ ↦ rfl
      rintro e w ⟨-, rfl, h⟩ hs
      rw [StorageEngine.compact, StorageEngine.ensureUsable_bind h.failed_eq, bind_apply, Act.state]
      dsimp only
      rw [if_pos hfew]
      exact ⟨trivial, hs⟩
    · refine Spec.bind ?_ fun _ ↦ Spec.pure (A := fun _ _ ↦ True) fun _ _ _ ↦ rfl
      rintro e w ⟨rfl, rfl, c, log, -, htracks, rfl, hat⟩ hs
      refine ((spec_compactAt htracks).conseq (fun _ _ ↦ id) (fun _ _ _ _ ↦ trivial) ?_
        fun _ _ ↦ trivial) _ w ⟨rfl, hat⟩ hs
      rintro err e d ⟨-, -, hio | ⟨hmany, hnot, herr⟩⟩
      · exact Or.inl hio
      · refine Or.inr ⟨not_le.1 hfew, fun hcompactable ↦ hnot ?_, herr⟩
        exact hat.holds.compactable_iff.1 hcompactable
  refine Spec.pre ?_ fun _ _ h ↦ h.2
  cases r with
  | put key sample =>
    refine Spec.bind ((spec_put e₀ key sample).conseq (fun _ _ ↦ id) (fun _ _ _ ↦ id) ?_
      fun _ _ ↦ trivial) fun _ ↦ Spec.pure fun _ _ _ ↦ rfl
    rintro err e d (⟨hio, -⟩ | ⟨-, ⟨hio, -⟩ | ⟨hrefused, -⟩⟩)
    · exact Or.inl hio
    · exact Or.inl hio
    · exact Or.inr hrefused
  | sync =>
    refine Spec.bind ((spec_sync (R := fun _ ↦ False) e₀).conseq (fun _ _ ↦ id) (fun _ _ _ ↦ id)
      ?_ fun _ _ ↦ trivial) fun _ ↦ Spec.pure fun _ _ _ ↦ rfl
    exact fun err e d h ↦ Or.inl (h.2.2.resolve_right id)
  | flush =>
    refine Spec.bind ((spec_flush e₀).conseq (fun _ _ ↦ id) (fun _ _ _ ↦ id) ?_
      fun _ _ ↦ trivial) fun _ ↦ Spec.pure fun _ _ _ ↦ rfl
    exact fun err e d h ↦ h.2.2
  | compact => exact absurd rfl hcompact
  | range s start stop =>
    by_cases hle : start ≤ stop
    · refine hquery rfl fun s' start' stop' h ↦ ?_
      cases h
      exact hle
    · refine Spec.bind (Q := fun _ _ _ ↦ False) ?_ fun _ ↦ fun _ _ h ↦ h.elim
      rintro e w ⟨rfl, h⟩ hs
      rw [StorageEngine.range, StorageEngine.ensureUsable_bind h.failed_eq, if_pos (not_le.1 hle)]
      exact Or.inr ⟨not_le.1 hle, rfl⟩
  | _ => exact hquery rfl (by simp)

/-- **A request on a usable engine, with its answer.** -/
theorem spec_respond (e₀ : StorageEngine) (files : Directory)
    (r : Request) :
    Spec S (fun e d ↦ d.files = files ∧ e = e₀ ∧ Usable o puts n durability e d) r.respond
      (fun a e d ↦ r.Allows (historyOf puts) a ∧ Usable o (puts ++ r.puts)
        (if r.settles durability then (puts ++ r.puts).length else n) durability e d)
      (fun err e d ↦ r.Excuse S e₀ files err ∧ RequestThrows o S puts n durability r err e d)
      (RequestCrashes o puts n r) := by
  have hrequest := @spec_request o S puts n durability e₀ r
  rw [← r.respond_forget] at hrequest
  exact ((spec_answer e₀ files r).and (Spec.of_map (f := fun _ ↦ ()) hrequest)).conseq
    (fun _ _ h ↦ ⟨h, h.2⟩)
    (fun _ _ _ ↦ id) (fun _ _ _ ↦ id) fun _ ↦ And.right

end Answering

/-! ### Exceptions of whole sessions -/

section Sessions

variable {f : Directory} {history rest : List Entry} {x : Entry} {m : Machine}

/-- Every call of a session was made on the machine that the calls before it had led to. -/
theorem Session.exists_perform (h : Session f (history ++ x :: rest) m) :
    ∃ m₁ m₂, Session f history m₁ ∧ m₁.perform x.sched x.call = some (x.outcome, m₂) := by
  generalize hwhole : history ++ x :: rest = whole at h
  induction h generalizing rest with
  | start => simp at hwhole
  | @call before m₁ m₂ y hprev hy ih =>
    rcases List.eq_nil_or_concat rest with rfl | ⟨rest', last, rfl⟩
    · obtain ⟨rfl, hxy⟩ := List.append_inj' hwhole rfl
      obtain rfl : x = y := by simpa using hxy
      exact ⟨m₁, m₂, hprev, hy⟩
    · rw [List.concat_eq_append, ← List.cons_append, ← List.append_assoc] at hwhole
      exact ih (List.append_inj' hwhole rfl).1

/-- How a request throws on a machine that stands for a history. -/
theorem Standing.request_throws {o : Origin} {puts : List WalPutRecord} {n : ℕ} {m' : Machine}
    {e : StorageEngine} {sched : List Event} {r : Request} {err : Error} (h : Standing o puts n m)
    (he : m.engine = some e)
    (hrun : m.perform sched (.request r) = some (.threw err, m')) :
    r.Excuse sched e m.disk.files err ∨ e.failed = true ∧
      err = .runtimeError "storage engine is in a failed state; restart is required" := by
  rw [Machine.perform, he, Option.map_some] at hrun
  by_cases hfailed : e.failed = true
  · rw [Request.run_of_failed hfailed] at hrun
    exact Or.inr ⟨hfailed, (Outcome.threw.inj (Prod.mk.inj (Option.some.inj hrun)).1).symm⟩
  obtain ⟨durability, husable⟩ := h.usable he (Bool.not_eq_true _ ▸ hfailed)
  have hspec := Spec.bind (spec_answer (S := sched) e m.disk.files r)
    (k := fun _ ↦ pure ()) (R := fun _ _ _ ↦ True) (fun _ ↦ Spec.pure fun _ _ _ ↦ trivial)
    e ⟨m.disk, sched⟩ ⟨rfl, rfl, husable⟩ (List.suffix_refl _)
  change Ends sched _ _ _ ((do let _ ← r.respond : Prog StorageEngine Unit) (e, ⟨m.disk, sched⟩))
    at hspec
  rw [r.respond_forget] at hspec
  revert hrun hspec
  rcases r.run (e, ⟨m.disk, sched⟩) with ⟨_, e', w⟩ | ⟨err' | -, e', w⟩
  · intro hrun
    cases hrun
  · rintro hrun hexcuse
    obtain rfl := Outcome.threw.inj (Prod.mk.inj (Option.some.inj hrun)).1
    exact Or.inl hexcuse
  · intro hrun
    cases hrun

/-- **Every exception has a cause, and none of them is damage.** Take any call of any session, with
failing calls and crashes anywhere before it, that threw. If it was to open the store, then a call
of the operating system failed. If it was a request, then a call failed, or the request was refused
for what it asked, or the engine had failed before. In no case does the exception report damaged
files. -/
theorem exception_has_cause (hf : Fresh f) (h : Session f (history ++ x :: rest) m) {err : Error}
    (hx : x.outcome = .threw err) :
    ¬err.IsFormat ∧ (Failing x.sched ∧ err.IsIo ∨
      ∃ r m₁ e, x.call = .request r ∧ Session f history m₁ ∧ m₁.engine = some e ∧
        (r.Refuses e m₁.disk.files err ∨ e.failed = true ∧
          err = .runtimeError "storage engine is in a failed state; restart is required")) := by
  obtain ⟨m₁, m₂, hprev, hperform⟩ := h.exists_perform
  obtain ⟨effects, -, hnow⟩ := hprev.standing_now hf
  obtain ⟨call, sched, outcome⟩ := x
  obtain rfl : outcome = .threw err := hx
  dsimp only at hperform ⊢
  cases call with
  | «open» listing durability =>
    have hspec := spec_reopen (S := sched) listing durability ()
      ⟨m₁.disk, sched⟩ ⟨rfl, hnow.reaches⟩ (List.suffix_refl _)
    rw [Machine.perform] at hperform
    revert hperform hspec
    rcases StorageEngine.open listing durability ((), ⟨m₁.disk, sched⟩) with
      ⟨e, _, w⟩ | ⟨err' | -, _, w⟩
    · intro hperform
      cases hperform
    · rintro hperform ⟨-, hio⟩
      obtain rfl := Outcome.threw.inj (Prod.mk.inj (Option.some.inj hperform)).1
      have hio := hio.resolve_right id
      exact ⟨not_isFormat_of_isIo hio.2, Or.inl hio⟩
    · intro hperform
      cases hperform
  | request r =>
    cases hengine : m₁.engine with
    | none =>
      rw [Machine.perform, hengine] at hperform
      cases hperform
    | some e =>
      rcases hnow.request_throws hengine hperform with hexcuse | ⟨hfailed, rfl⟩
      · exact ⟨hexcuse.not_isFormat, hexcuse.imp_right fun h ↦
          ⟨r, m₁, e, rfl, hprev, hengine, Or.inl h⟩⟩
      · exact ⟨id, Or.inr ⟨r, m₁, e, rfl, hprev, hengine, Or.inr ⟨hfailed, rfl⟩⟩⟩

end Sessions

/-- A range that ends before it starts, asked of a new store. -/
theorem exception_has_cause_range : ∃ m, Session OrderedMap.empty [openCall,
      ⟨.request (.range cpuSeries ⟨6⟩ ⟨5⟩), [],
        .threw (.invalidArgument "range end must not precede range start")⟩] m ∧
    (Failing [] ∧ Error.IsIo (.invalidArgument "range end must not precede range start") ∨
      ∃ r m₁ e, Call.request (.range cpuSeries ⟨6⟩ ⟨5⟩) = .request r ∧
        Session OrderedMap.empty [openCall] m₁ ∧ m₁.engine = some e ∧
        (r.Refuses e m₁.disk.files (.invalidArgument "range end must not precede range start") ∨
          e.failed = true ∧
          Error.invalidArgument "range end must not precede range start" =
            .runtimeError "storage engine is in a failed state; restart is required")) := by
  obtain ⟨d, -, hopened, -⟩ := exists_opened
  have h : Session OrderedMap.empty ([openCall] ++ ⟨.request (.range cpuSeries ⟨6⟩ ⟨5⟩), [],
      .threw (.invalidArgument "range end must not precede range start")⟩ :: [])
      ⟨some newEngine, d⟩ := hopened.call rfl
  exact ⟨_, h, (exception_has_cause fresh_empty h rfl).2⟩

end ChronoStore
