import ChronoStore.Protocol.Processes

/-!
# The database is linearizable

The object that the processes share is a map with one operation that changes it: `Request.Step` is
its sequential specification, whose states are the puts made so far. `Runs.sound` is the simulation.
Along every run an order of the calls is kept in which each call stands at the point at which it
held the lock of the engine; for `Database::put` that is the first of its locks. A put that was cut
off by a failing call or by a crash is in the order exactly if it is in the directory.

* `linearizable`: every history is linearizable, and whatever happens next, the directory opens as
  the map that the order denotes.
* `mutual_exclusion`: the lock of the directory works, and a process that does not get it harms
  nobody.
-/

namespace ChronoStore

open FaultyDisk WriteHistory Linearizability

/-- **The sequential specification**: the puts made so far determine what is answered. -/
def Request.Step (puts : List WalPutRecord) (r : Request) (a : Response)
    (puts' : List WalPutRecord) :
    Prop :=
  r.Allows (historyOf puts) a ∧ puts' = puts ++ r.puts

/-! ### The calls of the clients -/

/-- Where a call stands: it is not over; before its first lock it is not in the order; and when the
engine has answered, it is there with this answer. -/
structure Pending (seen : List (Linearizability.Event ℕ Request Response))
    (order : List (Action ℕ Request Response)) (k : ℕ) (phase : CallPhase) : Prop where
  begun : ∃ r, .invoke k r ∈ seen
  not_over : ¬Over seen k
  entering : ∀ r, phase = .entering r → .invoke k r ∈ seen ∧ k ∉ order.map Action.call
  answered : ∀ a, phase.Answered a → ∃ r, ⟨k, r, a⟩ ∈ order

/-- What other calls do leaves a pending call where it is. -/
theorem Pending.mono {seen more : List (Linearizability.Event ℕ Request Response)}
    {order extra : List (Action ℕ Request Response)} {k : ℕ} {phase : CallPhase}
    (h : Pending seen order k phase) (hover : ¬Over (seen ++ more) k)
    (hextra : ∀ x ∈ extra, x.call ≠ k) : Pending (seen ++ more) (order ++ extra) k phase where
  begun := h.begun.imp fun _ ↦ List.mem_append_left _
  not_over := hover
  entering r hr := by
    obtain ⟨hinvoked, hnew⟩ := h.entering r hr
    refine ⟨List.mem_append_left _ hinvoked, fun hmem ↦ ?_⟩
    rw [List.map_append, List.mem_append] at hmem
    rcases hmem with hmem | hmem
    · exact hnew hmem
    · obtain ⟨x, hx, hcall⟩ := List.mem_map.1 hmem
      exact hextra x hx hcall
  answered a ha := by
    obtain ⟨r, hr⟩ := h.answered a ha
    exact ⟨r, List.mem_append_left _ hr⟩

section Calls

variable {π ι : Type} [DecidableEq π] [DecidableEq ι] {v : System π ι}
  {order : List (Action ℕ Request Response)} {puts : List WalPutRecord} {p : π} {i : ι} {k : ℕ}
  {phase : CallPhase}

/-- The order linearizes what has been seen, and every call stands where it should. -/
structure System.Tracked (v : System π ι) (order : List (Action ℕ Request Response))
    (puts : List WalPutRecord) : Prop where
  linearizes : Linearizes Request.Step [] v.seen order puts
  numbered : ∀ e ∈ v.seen, ∀ k, e.call? = some k → k < v.seen.length
  pending : ∀ p i k phase, v.call p i = some (k, phase) → Pending v.seen order k phase
  distinct : ∀ p i q j k phase phase', v.call p i = some (k, phase) →
    v.call q j = some (k, phase') →
    p = q ∧ i = j

theorem System.call_called (v : System π ι) (p : π) (i : ι) (c : Option (ℕ × CallPhase))
    (more : List (Linearizability.Event ℕ Request Response)) (q : π) (j : ι) :
    (v.called p i c more).call q j = if q = p ∧ j = i then c else v.call q j := by
  by_cases hq : q = p
  · subst hq
    by_cases hj : j = i
    · subst hj
      simp [System.called]
    · simp [System.called, hj]
  · simp [System.called, hq]

omit [DecidableEq π] [DecidableEq ι] in
/-- Only calls that have been made are over. -/
theorem System.Tracked.lt_length (h : v.Tracked order puts) (hover : Over v.seen k) :
    k < v.seen.length := by
  obtain ⟨e, he, hcall⟩ := hover.exists_call
  exact h.numbered e he k hcall

omit [DecidableEq π] [DecidableEq ι] in
theorem System.Tracked.lt_of_pending (h : v.Tracked order puts)
    (hcall : v.call p i = some (k, phase)) :
    k < v.seen.length := by
  obtain ⟨r, hr⟩ := (h.pending p i k phase hcall).begun
  exact h.numbered _ hr k rfl

/-- One call moves on, and what it does leaves the others where they are. -/
theorem System.Tracked.called (h : v.Tracked order puts) {c : Option (ℕ × CallPhase)}
    {more : List (Linearizability.Event ℕ Request Response)}
    {extra : List (Action ℕ Request Response)}
    {puts' : List WalPutRecord}
    (hlinearizes : Linearizes Request.Step [] (v.seen ++ more) (order ++ extra) puts')
    (hnumbered : ∀ e ∈ more, ∀ k, e.call? = some k → k < (v.seen ++ more).length)
    (hself : ∀ k phase, c = some (k, phase) → Pending (v.seen ++ more) (order ++ extra) k phase ∧
      ∀ q j phase', v.call q j = some (k, phase') → q = p ∧ j = i)
    (hothers : ∀ q j k phase, ¬(q = p ∧ j = i) → v.call q j = some (k, phase) →
      ¬Over (v.seen ++ more) k ∧ ∀ x ∈ extra, x.call ≠ k) :
    (v.called p i c more).Tracked (order ++ extra) puts' where
  linearizes := hlinearizes
  numbered e he k hcall := by
    rcases List.mem_append.1 he with he | he
    · exact lt_of_lt_of_le (h.numbered e he k hcall) (List.length_append ▸ Nat.le_add_right _ _)
    · exact hnumbered e he k hcall
  pending q j k phase hcall := by
    rw [System.call_called] at hcall
    split at hcall
    · exact (hself k phase hcall).1
    · rename_i hne
      obtain ⟨hover, hextra⟩ := hothers q j k phase hne hcall
      exact (h.pending q j k phase hcall).mono hover hextra
  distinct q j q' j' k phase phase' hcall hcall' := by
    rw [System.call_called] at hcall hcall'
    split at hcall
    · rename_i heq
      split at hcall'
      · rename_i heq'
        exact ⟨heq.1.trans heq'.1.symm, heq.2.trans heq'.2.symm⟩
      · rename_i hne
        exact absurd ((hself k phase hcall).2 q' j' phase' hcall') hne
    · rename_i hne
      split at hcall'
      · exact absurd ((hself k phase' hcall').2 q j phase hcall) hne
      · exact h.distinct q j q' j' k phase phase' hcall hcall'

/-- **A call begins** under a number of its own. -/
theorem System.Tracked.invoke (h : v.Tracked order puts) (r : Request) :
    (v.called p i (some (v.seen.length, .entering r))
      [.invoke v.seen.length r]).Tracked order puts := by
  have hover : ∀ {k}, ¬Over v.seen k → ¬Over (v.seen ++ [.invoke v.seen.length r]) k :=
    fun hk hover ↦
    (over_concat_iff.1 hover).elim hk id
  have hall := @System.Tracked.called π ι _ _ v order puts p i h (some (v.seen.length, .entering r))
    [.invoke v.seen.length r] [] puts
  rw [List.append_nil] at hall
  refine hall (h.linearizes.invoke r fun e he hcall ↦
    absurd (h.numbered e he _ hcall) (lt_irrefl _)) ?_ ?_ fun q j k phase _ hcall ↦
    ⟨hover (h.pending q j k phase hcall).not_over, by simp⟩
  · intro e he k hcall
    obtain rfl := List.mem_singleton.1 he
    obtain rfl := Option.some.inj hcall
    simp
  · intro k phase hc
    obtain ⟨rfl, rfl⟩ := Prod.mk.inj (Option.some.inj hc)
    refine ⟨⟨⟨r, by simp⟩, hover fun h' ↦ absurd (h.lt_length h') (lt_irrefl _), ?_,
      fun a ha ↦ ha.elim⟩,
      fun q j phase' hcall ↦ absurd (h.lt_of_pending hcall) (lt_irrefl _)⟩
    rintro r' hr'
    obtain rfl := CallPhase.entering.inj hr'
    refine ⟨by simp, fun hmem ↦ ?_⟩
    obtain ⟨x, hx, hcall⟩ := List.mem_map.1 hmem
    exact absurd (h.numbered _ (h.linearizes.invoked x hx) _ (congrArg some hcall)) (lt_irrefl _)

/-- A call ends, and answers as it was made or not at all. -/
theorem System.Tracked.ends (h : v.Tracked order puts) (hcall : v.call p i = some (k, phase))
    {e : Linearizability.Event ℕ Request Response} (he : e = .abort k ∨ ∃ a, phase.Answered a ∧
      e = .respond k a) : (v.called p i none [e]).Tracked order puts := by
  have hpending := h.pending p i k phase hcall
  have hlinearizes : Linearizes Request.Step [] (v.seen ++ [e]) order puts := by
    rcases he with rfl | ⟨a, ha, rfl⟩
    · exact h.linearizes.abort k
    · obtain ⟨r, hr⟩ := hpending.answered a ha
      exact h.linearizes.respond hr
  have hends : e.call? = some k ∧ ∀ j, e.Ends v.seen j → k = j := by
    rcases he with rfl | ⟨a, -, rfl⟩
    · exact ⟨rfl, fun j hj ↦ hj⟩
    · exact ⟨rfl, fun j hj ↦ hj⟩
  have hall := @System.Tracked.called π ι _ _ v order puts p i h none [e] [] puts
  rw [List.append_nil] at hall
  refine hall hlinearizes ?_ (by simp) fun q j k' phase' hne hcall' ↦ ⟨fun hover ↦ ?_, by simp⟩
  · intro e' he' k' hk'
    obtain rfl := List.mem_singleton.1 he'
    obtain rfl := Option.some.inj (hends.1.symm.trans hk')
    have := h.lt_of_pending hcall
    rw [List.length_append]
    omega
  · rcases over_concat_iff.1 hover with hover | hover
    · exact (h.pending q j k' phase' hcall').not_over hover
    · obtain rfl := hends.2 k' hover
      exact hne (h.distinct q j p i k phase' phase hcall' hcall)

/-- A call goes on to a phase of which nothing but its past is asked. -/
theorem System.Tracked.goesOn (h : v.Tracked order puts) (hcall : v.call p i = some (k, phase))
    {phase' : CallPhase} {extra : List (Action ℕ Request Response)} {puts' : List WalPutRecord}
    (hlinearizes : Linearizes Request.Step [] v.seen (order ++ extra) puts')
    (hextra : ∀ x ∈ extra, x.call = k) (hentering : ∀ r, phase' ≠ .entering r)
    (hanswered : ∀ a, phase'.Answered a → ∃ r, ⟨k, r, a⟩ ∈ order ++ extra) :
    (v.called p i (some (k, phase')) []).Tracked (order ++ extra) puts' := by
  have hpending := h.pending p i k phase hcall
  refine h.called (by rwa [List.append_nil]) (by simp) ?_ ?_
  · intro k' phase'' hc
    obtain ⟨rfl, rfl⟩ := Prod.mk.inj (Option.some.inj hc)
    rw [List.append_nil]
    exact ⟨⟨hpending.begun, hpending.not_over, fun r hr ↦ absurd hr (hentering r), hanswered⟩,
      fun q j phase'' hcall' ↦ h.distinct q j p i k phase'' phase hcall' hcall⟩
  · intro q j k' phase'' hne hcall'
    rw [List.append_nil]
    refine ⟨(h.pending q j k' phase'' hcall').not_over, fun x hx heq ↦ ?_⟩
    obtain rfl : k = k' := (hextra x hx).symm.trans heq
    exact hne (h.distinct q j p i k phase'' phase hcall' hcall)

omit [DecidableEq π] [DecidableEq ι] in
/-- **A call takes effect** when it holds its first lock. -/
theorem System.Tracked.takesEffect (h : v.Tracked order puts) (hcall : v.call p i = some (k, phase))
    (hlocks : phase.Locks) {a : Response} (ha : phase.Allows (historyOf puts) a) :
    ∃ extra, (∀ x ∈ extra, x.call = k) ∧ (∃ r, ⟨k, r, a⟩ ∈ order ++ extra) ∧
      Linearizes Request.Step [] v.seen (order ++ extra) (puts ++ phase.puts) := by
  have hpending := h.pending p i k phase hcall
  have hlater : (∃ r, ⟨k, r, a⟩ ∈ order) → phase.puts = [] →
      ∃ extra, (∀ x ∈ extra, x.call = k) ∧ (∃ r, ⟨k, r, a⟩ ∈ order ++ extra) ∧
        Linearizes Request.Step [] v.seen (order ++ extra) (puts ++ phase.puts) := by
    intro hmem hnone
    refine ⟨[], by simp, by rwa [List.append_nil], ?_⟩
    rw [hnone, List.append_nil, List.append_nil]
    exact h.linearizes
  cases phase with
  | entering r =>
    obtain ⟨hinvoked, hnew⟩ := hpending.entering r rfl
    exact ⟨[⟨k, r, a⟩], by simp, ⟨r, by simp⟩,
      h.linearizes.concat hinvoked hpending.not_over hnew ⟨ha, rfl⟩⟩
  | counting => exact hlater (hpending.answered a ha) rfl
  | flushing => exact hlater (hpending.answered a ha) rfl
  | leaving result => exact hlocks.elim

omit [DecidableEq π] [DecidableEq ι] in
/-- A call that was cut off has taken effect or not. -/
theorem System.Tracked.mayTakeEffect (h : v.Tracked order puts)
    (hcall : v.call p i = some (k, phase))
    {effect : List WalPutRecord} (heffect : effect = [] ∨ effect = phase.puts) :
    ∃ extra, (∀ x ∈ extra, x.call = k) ∧
      Linearizes Request.Step [] v.seen (order ++ extra) (puts ++ effect) := by
  by_cases hnone : effect = []
  · refine ⟨[], by simp, ?_⟩
    rw [hnone, List.append_nil, List.append_nil]
    exact h.linearizes
  · obtain rfl := heffect.resolve_left hnone
    -- only a put has an effect, and its answer is no news
    have hput : ∃ key sample, phase = .entering (.put key sample) := by
      cases phase with
      | entering r =>
        cases r with
        | put key sample => exact ⟨key, sample, rfl⟩
        | _ => exact absurd rfl hnone
      | _ => exact absurd rfl hnone
    obtain ⟨key, sample, rfl⟩ := hput
    obtain ⟨extra, hextra, -, hlinearizes⟩ := h.takesEffect hcall trivial (a := .done) rfl
    exact ⟨extra, hextra, hlinearizes⟩

end Calls

/-! ### The simulation -/

section Simulation

variable {π ι : Type} [DecidableEq π] [DecidableEq ι] {v : System π ι}
  {order order' : List (Action ℕ Request Response)} {puts puts' : List WalPutRecord} {p : π} {i : ι}
  {k : ℕ} {phase phase' : CallPhase} {db : Database} {e : StorageEngine} {f : Directory}

/-- What holds of the processes at every point: the files stand for the puts in the order, at most
one process has the lock, and its engine is live or has failed. -/
structure System.Sound (v : System π ι) (order : List (Action ℕ Request Response))
    (puts : List WalPutRecord) : Prop where
  tracked : v.Tracked order puts
  stands : StandsFor v.files puts
  exclusive : ∀ p q, v.process p ≠ .closed → v.process q ≠ .closed → p = q
  live : ∀ p db, v.process p = .opened db → Live db.engine v.files puts ∨ db.engine.failed = true
  home : ∀ p i, v.call p i ≠ none → ∃ db, v.process p = .opened db

omit [DecidableEq ι] in
theorem System.process_moved (v : System π ι) (p : π) (f : Directory) (phase : ProcessPhase)
    (q : π) :
    (v.moved p f phase).process q = if q = p then phase else v.process q := Function.update_apply ..

omit [DecidableEq π] [DecidableEq ι] in
/-- Where one process is not closed, the others are. -/
theorem System.Sound.closed_of_ne (h : v.Sound order puts) (hp : v.process p ≠ .closed) {q : π}
    (hq : q ≠ p) : v.process q = .closed := by
  by_contra hopen
  exact hq (h.exclusive q p hopen hp)

omit [DecidableEq ι] in
/-- A process moves on without a call. -/
theorem System.Sound.moved (h : v.Sound order puts) {phase : ProcessPhase}
    (hstands : StandsFor f puts)
    (halone : phase ≠ .closed → ∀ q, q ≠ p → v.process q = .closed)
    (hlive : ∀ db, phase = .opened db → Live db.engine f puts ∨ db.engine.failed = true)
    (hothers : ∀ q db, q ≠ p → v.process q = .opened db →
      Live db.engine f puts ∨ db.engine.failed = true)
    (hcalls : ∀ i, v.call p i = none) : (v.moved p f phase).Sound order puts where
  tracked := ⟨h.tracked.linearizes, h.tracked.numbered, h.tracked.pending, h.tracked.distinct⟩
  stands := hstands
  exclusive q q' hq hq' := by
    rw [System.process_moved] at hq hq'
    split at hq
    · rename_i heq
      split at hq'
      · rename_i heq'
        exact heq.trans heq'.symm
      · rename_i hne
        exact absurd (halone hq q' hne) hq'
    · rename_i hne
      split at hq'
      · exact absurd (halone hq' q hne) hq
      · exact h.exclusive q q' hq hq'
  live q db hq := by
    rw [System.process_moved] at hq
    split at hq
    · exact hlive db hq
    · rename_i hne
      exact hothers q db hne hq
  home q i hcall := by
    by_cases hq : q = p
    · subst hq
      exact absurd (hcalls i) hcall
    · rw [System.process_moved, if_neg hq]
      exact h.home q i hcall

/-- A call of a process moves on under the lock of its engine. -/
theorem System.Sound.advanced (h : v.Sound order puts) (hp : v.process p = .opened db)
    (hstands : StandsFor f puts') (hlive : Live e f puts' ∨ e.failed = true)
    (htracked : (v.called p i (some (k, phase')) []).Tracked order' puts') :
    ((v.moved p f (.opened { db with engine := e })).called p i (some (k, phase')) []).Sound
      order' puts' where
  tracked := ⟨htracked.linearizes, htracked.numbered, htracked.pending, htracked.distinct⟩
  stands := hstands
  exclusive q q' hq hq' := by
    have hopen : ∀ {q}, (v.moved p f (.opened { db with engine := e })).process q ≠ .closed →
        v.process q ≠ .closed := by
      intro q hq
      rw [System.process_moved] at hq
      split at hq
      · rename_i heq
        rw [heq, hp]
        simp
      · exact hq
    exact h.exclusive q q' (hopen hq) (hopen hq')
  live q db' hq := by
    change (v.moved p f (.opened { db with engine := e })).process q = .opened db' at hq
    rw [System.process_moved] at hq
    split at hq
    · rw [← ProcessPhase.opened.inj hq]
      exact hlive
    · rename_i hne
      rw [h.closed_of_ne (by rw [hp]; simp) hne] at hq
      cases hq
  home q j hcall := by
    show ∃ db', (v.moved p f (.opened { db with engine := e })).process q = .opened db'
    rw [System.process_moved]
    by_cases hq : q = p
    · exact ⟨_, if_pos hq⟩
    · rw [if_neg hq]
      rw [System.call_called, if_neg fun h ↦ hq h.1] at hcall
      exact h.home q j hcall

omit [DecidableEq ι] in
/-- A process that ends takes all calls with it. -/
theorem System.Sound.ended (h : v.Sound order puts) (hp : v.process p ≠ .closed)
    (hstands : StandsFor f puts') (hlinearizes : Linearizes Request.Step [] v.seen order' puts') :
    (v.ended p f).Sound order' puts' := by
  have hnone : ∀ q i, (v.ended p f).call q i = none := by
    intro q i
    by_cases hq : q = p
    · subst hq
      simp [System.ended]
    · simp only [System.ended, Function.update_of_ne hq]
      by_contra hcall
      obtain ⟨db, hopen⟩ := h.home q i hcall
      rw [h.closed_of_ne hp hq] at hopen
      cases hopen
  have hclosed : ∀ q, (v.ended p f).process q = .closed := by
    intro q
    by_cases hq : q = p
    · subst hq
      simp [System.ended]
    · simp only [System.ended, Function.update_of_ne hq]
      exact h.closed_of_ne hp hq
  refine ⟨⟨hlinearizes.crash, ?_, ?_, ?_⟩, hstands, ?_, ?_, ?_⟩
  · intro e he k hk
    rcases List.mem_append.1 he with he | he
    · exact lt_of_lt_of_le (h.tracked.numbered e he k hk) (by simp [System.ended])
    · rw [List.mem_singleton.1 he] at hk
      cases hk
  · intro q i k phase hcall
    rw [hnone] at hcall
    cases hcall
  · intro q i q' j k phase phase' hcall
    rw [hnone] at hcall
    cases hcall
  · exact fun q _ hq ↦ absurd (hclosed q) hq
  · intro q db hq
    rw [hclosed] at hq
    cases hq
  · exact fun q i hcall ↦ absurd (hnone q i) hcall

/-- A fresh directory stands for no put. -/
theorem Fresh.standsFor (hf : Fresh f) : StandsFor f [] :=
  ⟨.empty, none, tracks_empty, hf.origin.holds⟩

omit [DecidableEq ι] in
/-- An attempt to take the lock, however it ends. -/
theorem System.Sound.attempted (h : v.Sound order puts) (hp : v.process p = .closed)
    (hfiles : ∀ name, name ≠ lockName → f.find? name = v.files.find? name) {phase : ProcessPhase}
    (halone : phase ≠ .closed → ∀ q, q ≠ p → v.process q = .closed)
    (hphase : ∀ db, phase ≠ .opened db) : (v.moved p f phase).Sound order puts := by
  refine h.moved (h.stands.of_lock hfiles) halone (fun db hdb ↦ absurd hdb (hphase db)) ?_ fun i ↦
    ?_
  · exact fun q db _ hq ↦ (h.live q db hq).imp_left fun hlive ↦ hlive.of_lock hfiles
  · by_contra hcall
    obtain ⟨db, hopen⟩ := h.home p i hcall
    rw [hp] at hopen
    cases hopen

/-- Constructing the engine where the directory stands for puts. -/
theorem StandsFor.spec_construct {S : List FaultyDisk.Event} (h : StandsFor f puts)
    (listing : Listing)
    (options : DatabaseOptions) :
    Spec S (fun _ d ↦ d = ⟨f, []⟩) (constructEngine listing options)
      (fun db _ d ↦ db.flushThresholdSamples = options.memtableFlushThresholdSamples ∧
        Live db.engine d.files puts)
      (fun _ _ d ↦ Failing S ∧ StandsFor d.files puts) (fun d ↦ StandsFor d.files puts) := by
  refine Spec.bind (Q := fun e _ d ↦ Live e d.files puts)
    (Spec.rethrow ((@StandsFor.spec_open _ _ S h Unit () listing
    options.durability.toInternal).conseq (fun _ _ h ↦ ⟨rfl, h⟩) (fun _ _ _ h ↦ h.2) ?_ fun _ ↦ id))
    fun _ ↦ Spec.pure fun _ _ h ↦ ⟨rfl, h⟩
  exact fun err s d h ↦ ⟨h.1, h.2.2⟩

/-- A call begins or ends, and the processes are where they were. -/
theorem System.Sound.called (h : v.Sound order puts) {c : Option (ℕ × CallPhase)}
    {more : List (Linearizability.Event ℕ Request Response)}
    (htracked : (v.called p i c more).Tracked order puts)
    (hc : c ≠ none → ∃ db, v.process p = .opened db) : (v.called p i c more).Sound order puts where
  tracked := htracked
  stands := h.stands
  exclusive := h.exclusive
  live := h.live
  home q j hcall := by
    rw [System.call_called] at hcall
    split at hcall
    · rename_i heq
      exact heq.1 ▸ hc hcall
    · exact h.home q j hcall

omit [DecidableEq ι] in
/-- The engine is constructed, or is not. -/
theorem System.Sound.constructed (h : v.Sound order puts) {options : DatabaseOptions}
    (hp : v.process p = .locked options) {phase : ProcessPhase} (hstands : StandsFor f puts)
    (hphase : ∀ db, phase = .opened db → Live db.engine f puts) :
    (v.moved p f phase).Sound order puts := by
  have hothers : ∀ q, q ≠ p → v.process q = .closed := fun q hq ↦
    h.closed_of_ne (by rw [hp]; simp) hq
  refine h.moved hstands (fun _ ↦ hothers) (fun db hdb ↦ Or.inl (hphase db hdb)) ?_ fun i ↦ ?_
  · intro q db hq hopen
    rw [hothers q hq] at hopen
    cases hopen
  · by_contra hcall
    obtain ⟨db, hopen⟩ := h.home p i hcall
    rw [hp] at hopen
    cases hopen

/-- **The simulation**: along every run there is an order of the calls, and the files stand for its
puts. -/
theorem Runs.sound (hf : Fresh f) (h : Runs f v) : ∃ order puts, v.Sound order puts := by
  induction h with
  | start =>
    refine ⟨[], [], ⟨.nil _ _, by simp, by simp, by simp⟩, hf.standsFor, ?_, by simp, by simp⟩
    exact fun p q hp ↦ absurd rfl hp
  | @lock v p held sched w options hv hp hheld hrun ih =>
    obtain ⟨order, puts, hsound⟩ := ih
    obtain ⟨hfree, hfiles⟩ :=
      (spec_takeLock (S := sched) held).of_ok (w := ⟨⟨v.files, []⟩, sched⟩) rfl hrun
    refine ⟨order, puts, hsound.attempted hp hfiles (fun _ q hq ↦ ?_) (by simp)⟩
    by_contra hopen
    rw [hheld.2 ⟨q, hq, hopen⟩] at hfree
    cases hfree
  | @lockFails v p held sched w stop hv hp hheld hrun ih =>
    obtain ⟨order, puts, hsound⟩ := ih
    have hfiles : ∀ name, name ≠ lockName → w.files.find? name = v.files.find? name := by
      have := spec_takeLock (S := sched) held () ⟨⟨v.files, []⟩, sched⟩ rfl (List.suffix_refl _)
      rw [hrun] at this
      cases stop with
      | exn err => exact this.2
      | crash => exact this.2
    exact ⟨order, puts, hsound.attempted hp hfiles (by simp) (by simp)⟩
  | @construct v p options listing sched db w hv hp hrun ih =>
    obtain ⟨order, puts, hsound⟩ := ih
    obtain ⟨-, hlive⟩ := (hsound.stands.spec_construct (S := sched) listing options).of_ok
      (w := ⟨⟨v.files, []⟩, sched⟩) rfl hrun
    refine ⟨order, puts, hsound.constructed hp hlive.standsFor fun db' hdb ↦ ?_⟩
    exact ProcessPhase.opened.inj hdb ▸ hlive
  | @constructFails v p options listing sched w stop hv hp hrun ih =>
    obtain ⟨order, puts, hsound⟩ := ih
    have hstands : StandsFor w.files puts := by
      have := hsound.stands.spec_construct (S := sched) listing options ()
        ⟨⟨v.files, []⟩, sched⟩ rfl
        (List.suffix_refl _)
      rw [hrun] at this
      cases stop with
      | exn err => exact this.2
      | crash => exact this.2
    exact ⟨order, puts, hsound.constructed hp hstands (by simp)⟩
  | @invoke v p db i r hv hp hcall ih =>
    obtain ⟨order, puts, hsound⟩ := ih
    exact ⟨order, puts, hsound.called (hsound.tracked.invoke r) fun _ ↦ ⟨db, hp⟩⟩
  | @advance v p db i k phase phase' sched e w hv hp hcall hlocks hrun ih =>
    obtain ⟨order, puts, hsound⟩ := ih
    rcases hsound.live p db hp with hlive | hfailed
    · obtain ⟨a, hallows, hanswered, hlive'⟩ :=
        (CallPhase.spec_advance (S := sched) hlive hlocks).of_ok
          (w := ⟨⟨v.files, []⟩, sched⟩) ⟨rfl, rfl⟩ hrun
      obtain ⟨extra, hextra, hmem, hlinearizes⟩ := hsound.tracked.takesEffect hcall hlocks hallows
      refine ⟨_, _, hsound.advanced hp hlive'.standsFor (Or.inl hlive')
        (hsound.tracked.goesOn hcall hlinearizes hextra ?_ ?_)⟩
      · rintro r rfl
        exact hanswered
      · intro b hb
        rwa [hb.unique hanswered]
    · rw [CallPhase.advance_of_failed hfailed hlocks] at hrun
      cases hrun
  | @throw v p db i k phase err sched e w hv hp hcall hlocks hrun ih =>
    obtain ⟨order, puts, hsound⟩ := ih
    have hthrows : AdvanceThrows puts phase e w.files := by
      rcases hsound.live p db hp with hlive | hfailed
      · have := @CallPhase.spec_advance sched _ _ _ _ db.flushThresholdSamples hlive hlocks
          db.engine ⟨⟨v.files, []⟩, sched⟩ ⟨rfl, rfl⟩ (List.suffix_refl _)
        rw [hrun] at this
        exact this
      · rw [CallPhase.advance_of_failed hfailed hlocks] at hrun
        obtain ⟨-, hstate⟩ := EStateM.Result.error.inj hrun
        obtain ⟨rfl, rfl⟩ := Prod.mk.inj hstate
        exact ⟨[], Or.inl rfl, by rw [List.append_nil]; exact hsound.stands, Or.inr hfailed⟩
    obtain ⟨effect, heffect, hstands, hlive⟩ := hthrows
    obtain ⟨extra, hextra, hlinearizes⟩ := hsound.tracked.mayTakeEffect hcall heffect
    exact ⟨_, _, hsound.advanced hp hstands hlive (hsound.tracked.goesOn hcall hlinearizes hextra
      (by simp) fun a ha ↦ nomatch ha)⟩
  | @crash v p db i k phase sched e w hv hp hcall hlocks hrun ih =>
    obtain ⟨order, puts, hsound⟩ := ih
    rcases hsound.live p db hp with hlive | hfailed
    · have := @CallPhase.spec_advance sched _ _ _ _ db.flushThresholdSamples hlive hlocks
        db.engine ⟨⟨v.files, []⟩, sched⟩ ⟨rfl, rfl⟩ (List.suffix_refl _)
      rw [hrun] at this
      obtain ⟨-, effect, heffect, hstands⟩ := this
      obtain ⟨extra, hextra, hlinearizes⟩ := hsound.tracked.mayTakeEffect hcall heffect
      exact ⟨_, _, hsound.ended (by rw [hp]; simp) hstands hlinearizes⟩
    · rw [CallPhase.advance_of_failed hfailed hlocks] at hrun
      cases hrun
  | @respond v p i k a hv hcall ih =>
    obtain ⟨order, puts, hsound⟩ := ih
    exact ⟨order, puts, hsound.called (hsound.tracked.ends hcall (Or.inr ⟨a, rfl, rfl⟩)) (by simp)⟩
  | @abort v p i k err hv hcall ih =>
    obtain ⟨order, puts, hsound⟩ := ih
    exact ⟨order, puts, hsound.called (hsound.tracked.ends hcall (Or.inl rfl)) (by simp)⟩
  | @kill v p hv hp ih =>
    obtain ⟨order, puts, hsound⟩ := ih
    exact ⟨order, puts, hsound.ended hp hsound.stands hsound.tracked.linearizes⟩
  | @close v p db hv hp hcalls ih =>
    obtain ⟨order, puts, hsound⟩ := ih
    refine ⟨order, puts, hsound.moved hsound.stands (by simp) (by simp) ?_ hcalls⟩
    exact fun q db _ hq ↦ hsound.live q db hq

/-- **The database is strictly linearizable.** Take any run of any number of processes on one
directory, with any number of clients in each, any interleaving, failing calls and crashes at any
step. There is an order of the calls that linearizes what was seen: all calls that answered, with
their answers, some of those that threw or were cut off by a crash, and each call before those that
began when it was over. The order denotes a map; every engine that is open and has not failed
answers for this map, and so does the next engine that is constructed on the directory, whatever
became of the processes. -/
theorem linearizable (hf : Fresh f) (h : Runs f v) :
    ∃ order puts, Linearizes Request.Step [] v.seen order puts ∧
      (∀ p db, v.process p = .opened db → db.engine.failed = false →
        Answers db.engine ⟨v.files, []⟩ (historyOf puts)) ∧
      ∀ listing options sched, ¬Failing sched → ¬Crashing sched →
        ∃ db w, constructEngine listing options ((), ⟨⟨v.files, []⟩, sched⟩) = .ok db ((), w) ∧
          Answers db.engine ⟨w.files, []⟩ (historyOf puts) := by
  obtain ⟨order, puts, hsound⟩ := h.sound hf
  refine ⟨order, puts, hsound.tracked.linearizes, fun p db hp hfailed ↦ ?_,
    fun listing options sched hfail hcrash ↦ ?_⟩
  · rcases hsound.live p db hp with hlive | hfailed'
    · exact hlive.answers
    · rw [hfailed] at hfailed'
      cases hfailed'
  · obtain ⟨db, _, w, hrun, -, hlive⟩ := ((hsound.stands.spec_construct (S := sched) listing
      options).conseq (fun _ _ ↦ id) (fun _ _ _ ↦ id) (fun _ _ _ h ↦ hfail h.1) fun _ ↦ id).returns
        hcrash (s := ()) (w := ⟨⟨v.files, []⟩, sched⟩) rfl (List.suffix_refl _)
    exact ⟨db, w, hrun, hlive.answers⟩

/-- **The lock of the directory.** In every run at most one process has taken the lock and not
ended. A process that tries to take it meanwhile does not get it, is told that the directory is busy
unless a call fails, and changes no file but the one of the lock. -/
theorem mutual_exclusion (hf : Fresh f) (h : Runs f v) :
    (∀ p q, v.process p ≠ .closed → v.process q ≠ .closed → p = q) ∧
      ∀ (held : Bool) p, (held = true ↔ v.HeldElsewhere p) → v.HeldElsewhere p → ∀ sched,
        ∃ stop w, takeLock held ((), ⟨⟨v.files, []⟩, sched⟩) = .error stop ((), w) ∧
          (∀ name, name ≠ lockName → w.files.find? name = v.files.find? name) ∧
          (¬Failing sched → ¬Crashing sched →
            stop = .exn (.busy "database directory is already open")) := by
  obtain ⟨order, puts, hsound⟩ := h.sound hf
  refine ⟨hsound.exclusive, fun held p hheld helsewhere sched ↦ ?_⟩
  have htaken : held = true := hheld.2 helsewhere
  have hspec := spec_takeLock (S := sched) held () ⟨⟨v.files, []⟩, sched⟩ rfl (List.suffix_refl _)
  revert hspec
  rcases takeLock held ((), ⟨⟨v.files, []⟩, sched⟩) with ⟨_, _, w⟩ | ⟨err | -, _, w⟩
  · rintro ⟨⟨hfree, -⟩, -⟩
    rw [htaken] at hfree
    cases hfree
  · rintro ⟨hbusy, hfiles⟩
    refine ⟨_, w, rfl, hfiles, fun hfail _ ↦ ?_⟩
    rw [(hbusy.resolve_left hfail).2]
  · rintro ⟨hc, hfiles⟩
    exact ⟨_, w, rfl, hfiles, fun _ hcrash ↦ absurd hc hcrash⟩

end Simulation

/-- A process that has opened a new database, in which one client has put a record. -/
theorem exists_cpuRun : ∃ v : System (Fin 2) Unit, Runs OrderedMap.empty v ∧
    v.seen = [.invoke 0 (.put cpuRecord.series cpuRecord.sample), .respond 0 .done] ∧
      v.HeldElsewhere 1 := by
  have hlock := @Runs.lock (Fin 2) Unit _ _ OrderedMap.empty _ 0 false [] _ ⟨.buffered, 0⟩
    .start rfl (by simp [System.HeldElsewhere]) rfl
  obtain ⟨order, puts, hsound⟩ := hlock.sound fresh_empty
  have hputs : puts = [] := by
    cases hsound.tracked.linearizes.legal with
    | nil => rfl
    | concat hlegal hstep =>
      have := hsound.tracked.linearizes.invoked _ (List.mem_append_right _ List.mem_cons_self)
      cases this
  subst hputs
  obtain ⟨db, _, w, hconstruct, hthreshold, hlive⟩ :=
    ((hsound.stands.spec_construct (S := []) .sorted
    ⟨.buffered, 0⟩).conseq (fun _ _ ↦ id) (fun _ _ _ ↦ id) (fun _ _ _ h ↦ not_failing_nil h.1)
      fun _ ↦ id).returns not_crashing_nil (s := ()) (w := ⟨⟨_, []⟩, []⟩) rfl (List.suffix_refl _)
  obtain ⟨o, durability, husable⟩ := hlive
  obtain ⟨e, w', hput, -⟩ := husable.exists_put husable.loggable_cpuRecord
  have hentered := (hlock.construct (p := 0)
    (by simp [System.process_moved]) hconstruct).invoke (p := 0)
    (i := ()) (.put cpuRecord.series cpuRecord.sample) (by simp [System.process_moved]; rfl) rfl
  have hdone := @Runs.advance (Fin 2) Unit _ _ _ _ 0 db () 0
    (.entering (.put cpuRecord.series cpuRecord.sample)) (.leaving (.ok .done)) [] e w' hentered
    (by simp [System.called, System.process_moved]) (by simp [System.call_called]; rfl) trivial (by
      have hzero : db.flushThresholdSamples = 0 := hthreshold
      show ((Request.put cpuRecord.series cpuRecord.sample).respond >>= _)
        (db.engine, ⟨⟨w.files, []⟩, []⟩) = _
      rw [bind_apply, Request.respond, bind_apply, hput, hzero]
      rfl)
  have hanswered := hdone.respond (p := 0) (i := ()) (k := 0) (a := .done)
    (by simp [System.call_called])
  refine ⟨_, hanswered, rfl, 0, by simp, ?_⟩
  simp [System.called, System.process_moved]

/-- One process opens the database and puts a sample. -/
theorem linearizable_cpu : ∃ v : System (Fin 2) Unit, Runs OrderedMap.empty v ∧
    v.seen = [.invoke 0 (.put cpuRecord.series cpuRecord.sample), .respond 0 .done] ∧
      ∃ order puts, Linearizes Request.Step [] v.seen order puts ∧
        ∀ listing options sched, ¬Failing sched → ¬Crashing sched →
          ∃ db w, constructEngine listing options ((), ⟨⟨v.files, []⟩, sched⟩) = .ok db ((), w) ∧
            Answers db.engine ⟨w.files, []⟩ (historyOf puts) := by
  obtain ⟨v, hruns, hseen, -⟩ := exists_cpuRun
  obtain ⟨order, puts, hlinearizes, -, hopens⟩ := linearizable fresh_empty hruns
  exact ⟨v, hruns, hseen, order, puts, hlinearizes, hopens⟩

/-- While one process has the database open, another does not get the lock. -/
theorem mutual_exclusion_cpu : ∃ v : System (Fin 2) Unit, Runs OrderedMap.empty v ∧
    v.HeldElsewhere 1 ∧ ∃ stop w, takeLock true ((), ⟨⟨v.files, []⟩, []⟩) = .error stop ((), w) ∧
      stop = .exn (.busy "database directory is already open") := by
  obtain ⟨v, hruns, -, hheld⟩ := exists_cpuRun
  obtain ⟨stop, w, hrun, -, hbusy⟩ :=
    (mutual_exclusion fresh_empty hruns).2 true 1 (by simp [hheld])
    hheld []
  exact ⟨v, hruns, hheld, stop, w, hrun, hbusy not_failing_nil not_crashing_nil⟩

end ChronoStore
