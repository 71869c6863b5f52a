import ChronoStore.Tools.Addressing

/-!
# Runs of the command-line client

A shell script calls the client again and again on one directory: processes that open the database,
do one thing and end, each with answers of the operating system of its own, some of them killed,
some of them finding the directory in use. What they print is what a map would print that is kept in
one process (`invocations_explained`): a put whose status is 0 is in it, one that ended otherwise
may be, and nothing else ever is.
-/

namespace ChronoStore.CommandLine

open FaultyDisk WriteHistory

/-! ### One call of a database -/

/-- The directory stands for the puts, with or without more. -/
def Leaves (puts more : List WalPutRecord) (f : Directory) : Prop :=
  ∃ effect, (effect = [] ∨ effect = more) ∧ StandsFor f (puts ++ effect)

/-- The requests that the store may refuse. -/
def Refusable : Request → Prop
  | .put _ _ => True
  | .flush => True
  | .compact => True
  | .range _ start stop => stop < start
  | _ => False

section Call

variable {S : List Event} {o : Origin} {puts more : List WalPutRecord} {durability : WalDurability}
  {f : Directory} {n : ℕ} {d : Disk Bytes UInt8} {e : StorageEngine} {r : Request} {err : Error}

/-- A command that has had no effect. -/
theorem Leaves.of_standsFor (h : StandsFor f puts) : Leaves puts more f :=
  ⟨[], Or.inl rfl, by rwa [List.append_nil]⟩

/-- A command that has had its effect. -/
theorem Leaves.of_append (h : StandsFor f (puts ++ more)) : Leaves puts more f :=
  ⟨more, Or.inr rfl, h⟩

/-- A request that throws leaves the puts before it, with or without its own. -/
theorem leaves_of_throws (h : RequestThrows o S puts n durability r err e d) :
    Leaves puts r.puts d.files := by
  obtain ⟨effect, heffect, h⟩ := h
  refine ⟨effect, heffect.imp_right And.right, ?_⟩
  rcases h with h | ⟨-, hrest⟩
  · exact h.reaches.standsFor
  · exact hrest.standsFor

/-- So does a request that is killed. -/
theorem leaves_of_crashes (h : RequestCrashes o puts n r d) : Leaves puts r.puts d.files :=
  exists_standsFor h

/-- What is no fault of the operating system is a refusal. -/
theorem refusal_of_excuse (h : r.Excuse S e d.files err) :
    Failing S ∨ Refusable r ∧ err.IsRefusal := by
  rcases h with ⟨hfail, -⟩ | hrefuses
  · exact Or.inl hfail
  · refine Or.inr ?_
    cases r with
    | put series sample => exact ⟨trivial, hrefuses.2⟩
    | flush => exact ⟨trivial, hrefuses.2.2⟩
    | compact => exact ⟨trivial, hrefuses.2.2⟩
    | range series start stop => exact ⟨hrefuses.1, hrefuses.2 ▸ trivial⟩
    | _ => exact hrefuses.elim

/-- One request on a usable engine. -/
theorem spec_one (r : Request) :
    Spec S (Usable o puts n durability) r.respond
      (fun a e d ↦ r.Allows (historyOf puts) a ∧ Usable o (puts ++ r.puts) 0 durability e d)
      (fun err _ d ↦ (Failing S ∨ Refusable r ∧ err.IsRefusal) ∧ Leaves puts r.puts d.files)
      (fun d ↦ Leaves puts r.puts d.files) := fun e w h hs ↦
  (spec_respond e w.files r).conseq (fun _ _ ↦ id) (fun _ _ _ h ↦ ⟨h.1, h.2.mono (Nat.zero_le _)⟩)
    (fun _ _ _ h ↦ ⟨refusal_of_excuse h.1, leaves_of_throws h.2⟩)
    (fun _ h ↦ leaves_of_crashes h) e w
    ⟨rfl, rfl, h⟩ hs

/-- A put, and the flush behind it. -/
theorem spec_putFlush (threshold : ℕ) (series : SeriesKey) (sample : Sample) :
    Spec S (Usable o puts n durability) (do
      StorageEngine.put series sample
      if threshold ≠ 0 then do
        let count ← StorageEngine.memtableSampleCount
        if threshold ≤ count then StorageEngine.flush else pure ()
      else pure ())
      (fun _ e d ↦ Usable o (puts ++ [⟨series, sample⟩]) 0 durability e d)
      (fun err _ d ↦ (Failing S ∨ err.IsRefusal) ∧ Leaves puts [⟨series, sample⟩] d.files)
      (fun d ↦ Leaves puts [⟨series, sample⟩] d.files) := by
  have hput := @spec_one S o puts durability n (.put series sample)
  -- what comes behind the put adds nothing
  have hbehind : ∀ r : Request, r.puts = [] →
    Spec S (Usable o (puts ++ [⟨series, sample⟩]) 0 durability)
      r.respond (fun _ e d ↦ Usable o (puts ++ [⟨series, sample⟩]) 0 durability e d)
      (fun err _ d ↦ (Failing S ∨ err.IsRefusal) ∧ Leaves puts [⟨series, sample⟩] d.files)
      (fun d ↦ Leaves puts [⟨series, sample⟩] d.files) := by
    intro r hr
    have hsame : ∀ {g : Directory}, Leaves (puts ++ [⟨series, sample⟩]) r.puts g →
        Leaves puts [⟨series, sample⟩] g := by
      rintro g ⟨effect, heffect, h⟩
      obtain rfl : effect = [] := heffect.elim id fun h ↦ h.trans hr
      rw [List.append_nil] at h
      exact Leaves.of_append h
    refine (spec_one r).conseq (fun _ _ ↦ id) (fun a e d h ↦ ?_)
      (fun err e d h ↦ ⟨h.1.imp_right And.right, hsame h.2⟩) fun _ ↦ hsame
    have husable := h.2
    rwa [hr, List.append_nil] at husable
  refine Spec.bind (Spec.of_map (f := fun _ : Unit ↦ Response.done) (hput.conseq (fun _ _ ↦ id)
    (fun _ _ _ h ↦ h.2) (fun _ _ _ h ↦ ⟨h.1.imp_right And.right, h.2⟩) fun _ ↦ id)) fun _ ↦ ?_
  refine Spec.ite (fun _ ↦ ?_) fun _ ↦ Spec.pure fun _ _ h ↦ h
  refine Spec.bind (Spec.of_map (f := Response.count) (hbehind .memtableSampleCount rfl)) fun _ ↦ ?_
  exact Spec.ite (fun _ ↦ Spec.of_map (f := fun _ ↦ Response.done) (hbehind .flush rfl))
    fun _ ↦ Spec.pure fun _ _ h ↦ h

/-- A member function of the engine, called through the database. -/
theorem spec_through {α : Type} {A : StorageEngine → Disk Bytes UInt8 → Prop}
    {m : Prog StorageEngine α}
    {Q : α → StorageEngine → Disk Bytes UInt8 → Prop} {E : Error → Disk Bytes UInt8 → Prop}
    {C : Disk Bytes UInt8 → Prop} (g : Error → DatabaseError)
    (h : Spec S A m Q (fun err _ d ↦ E err d) C) :
    Spec S (fun db d ↦ A db.engine d) (Database.onEngine (Act.rethrow g m))
      (fun a db d ↦ Q a db.engine d) (fun err _ d ↦ ∃ err₀, err = g err₀ ∧ E err₀ d) C :=
  Spec.zoom fun _ ↦ Spec.rethrow (h.conseq (fun _ _ ha ↦ ha.1 ▸ ha.2) (fun _ _ _ ↦ id)
    (fun err _ _ he ↦ ⟨err, rfl, he⟩) fun _ ↦ id)

/-- A refusal is reported as it is. -/
theorem ofError_of_isRefusal {err : Error} (h : err.IsRefusal) :
    DatabaseError.ofError err = .other err := by
  cases err <;> first | rfl | exact h.elim

/-- **A call of a database** that stands for puts. -/
theorem Live.spec_respond {db : Database} (h : Live db.engine f puts) (r : Request) :
    Spec S (fun db' d ↦ db' = db ∧ d = ⟨f, []⟩) (Database.respond r)
      (fun a _ d ↦ r.Allows (historyOf puts) a ∧ StandsFor d.files (puts ++ r.puts))
      (fun err _ d ↦ (Failing S ∨ Refusable r ∧ ∃ err₀ : Error, err₀.IsRefusal ∧
        err = .other err₀) ∧
        Leaves puts r.puts d.files)
      (fun d ↦ Leaves puts r.puts d.files) := by
  obtain ⟨o, durability, husable⟩ := h
  have htranslated : ∀ {g : Error → DatabaseError} {err : DatabaseError} {err₀ : Error},
      g = .other ∨ g = .ofError → err = g err₀ → err₀.IsRefusal → err = .other err₀ := by
    rintro g err err₀ (rfl | rfl) rfl hrefusal
    · rfl
    · exact ofError_of_isRefusal hrefusal
  by_cases hr : r.puts = []
  · obtain ⟨g, hg, heq⟩ := Database.respond_eq hr
    rw [heq]
    refine (spec_through g (@spec_one S o puts durability 0 r)).conseq ?_ ?_ ?_ fun _ ↦ id
    · rintro db' d ⟨rfl, rfl⟩
      exact husable
    · exact fun a db' d h ↦ ⟨h.1, h.2.reaches.standsFor⟩
    · rintro err db' d ⟨err₀, herr, hcause, hleaves⟩
      exact ⟨hcause.imp_right fun h ↦ ⟨h.1, err₀, h.2, htranslated hg herr h.2⟩, hleaves⟩
  · cases r with
    | put series sample =>
      refine Spec.bind (Q := fun _ _ d ↦ StandsFor d.files (puts ++ [⟨series, sample⟩])) ?_
        fun _ ↦ Spec.pure fun _ _ h ↦ ⟨rfl, h⟩
      rintro db' w ⟨rfl, hw⟩ hs
      rw [Database.put_eq, CallPhase.advance_put]
      refine ((spec_through .ofError (spec_putFlush db'.flushThresholdSamples series sample)).conseq
        (fun _ _ ↦ id) (fun _ _ _ h ↦ h.reaches.standsFor) ?_ fun _ ↦ id) db' w (hw ▸ husable) hs
      rintro err db' d ⟨err₀, herr, hcause, hleaves⟩
      exact ⟨hcause.imp_right fun h ↦ ⟨trivial, err₀, h, htranslated (Or.inr rfl) herr h⟩, hleaves⟩
    | _ => exact absurd rfl hr

end Call

/-! ### One process -/

/-- The puts of a request that could be read. -/
def putsOf : Except Error Request → List WalPutRecord
  | .ok r => r.puts
  | .error _ => []

/-- Why a process may print a message and end with status 1: a call of the operating system failed,
the directory was in use or had no name, the command line could not be read, or the store refused
the request. -/
def Cause (sched : List Event) (held : Bool) (directory : Bytes) (question : Except Error Request)
    (err : DatabaseError) : Prop :=
  Failing sched ∨ held = true ∨ directory = [] ∨ (∃ e, question = .error e ∧ err = .other e) ∨
    ∃ r, question = .ok r ∧ Refusable r ∧ ∃ e : Error, e.IsRefusal ∧ err = .other e

section Process

variable {S : List Event} {puts : List WalPutRecord} {f : Directory} {listing : Listing}
    {held : Bool}
  {directory : Bytes} {question : Except Error Request}

/-- A program on a local object, wherever the files are as they should be. -/
theorem spec_within {σ τ α : Type} {P : Directory → Prop} {s : τ} {m : DatabaseProg τ α}
    {Q : α → Directory → Prop} {E : DatabaseError → Directory → Prop} {C : Directory → Prop}
    (h : ∀ f, P f → Spec S (fun t d ↦ t = s ∧ d = ⟨f, []⟩) m (fun a _ d ↦ Q a d.files)
      (fun err _ d ↦ E err d.files) fun d ↦ C d.files) :
    Spec S (fun (_ : σ) d ↦ P d.files) (within s m) (fun a _ d ↦ Q a d.files)
      (fun err _ d ↦ E err d.files) fun d ↦ C d.files := by
  intro s₀ w hw hs
  have hm := h w.files hw s ⟨⟨w.files, []⟩, w.sched⟩ ⟨rfl, rfl⟩ hs
  simp only [within]
  revert hm
  rcases m (s, ⟨⟨w.files, []⟩, w.sched⟩) with ⟨a, t, w'⟩ | ⟨err | -, t, w'⟩ <;> exact id

/-- A check throws what the parser throws. -/
theorem spec_check {σ α : Type} {A : σ → Disk Bytes UInt8 → Prop} {m : Except Error α}
    {Q : α → σ → Disk Bytes UInt8 → Prop} {E : DatabaseError → σ → Disk Bytes UInt8 → Prop}
    {C : Disk Bytes UInt8 → Prop} (hok : ∀ a s d, m = .ok a → A s d → Q a s d)
    (herr : ∀ e s d, m = .error e → A s d → E (.other e) s d) : Spec S A (check m) Q E C := by
  cases m with
  | ok a => exact Spec.pure fun s d h ↦ hok a s d rfl h
  | error e => exact Spec.throw fun s d h ↦ herr e s d rfl h

/-- Opening the database of a directory that stands for puts. -/
theorem spec_openDatabase (h : StandsFor f puts) :
    Spec S (fun _ d ↦ d = ⟨f, []⟩) (openDatabase listing held directory)
      (fun db _ d ↦ Live db.engine d.files puts)
      (fun err _ d ↦ Cause S held directory question err ∧ StandsFor d.files puts)
      (fun d ↦ StandsFor d.files puts) := by
  refine Spec.ite (fun hempty ↦ Spec.throw ?_) fun hne ↦ ?_
  · rintro s d rfl
    exact ⟨Or.inr (Or.inr (Or.inl hempty)), h⟩
  refine Spec.bind (Q := fun _ _ d ↦ StandsFor d.files puts)
    ((spec_takeLock (f := f) held).conseq ?_ ?_ ?_ ?_) fun _ ↦ ?_
  · rintro s d rfl
    rfl
  · exact fun _ _ d hd ↦ h.of_lock hd.2
  · rintro err s d ⟨hcause, hfiles⟩
    exact ⟨hcause.imp_right fun hbusy ↦ Or.inl hbusy.1, h.of_lock hfiles⟩
  · exact fun d hd ↦ h.of_lock hd
  · refine spec_within (P := fun g ↦ StandsFor g puts) (Q := fun db g ↦ Live db.engine g puts)
      (E := fun err g ↦ Cause S held directory question err ∧ StandsFor g puts)
      (C := fun g ↦ StandsFor g puts) fun g hg ↦
        (hg.spec_construct listing {}).conseq ?_ ?_ ?_ fun _ ↦ id
    · exact fun _ _ hd ↦ hd.2
    · exact fun _ _ _ hd ↦ hd.2
    · exact fun _ _ _ hd ↦ ⟨Or.inl hd.1, hd.2⟩

/-- **What a process does** to a directory that stands for puts, and what it prints. -/
theorem spec_perform (h : StandsFor f puts) :
    Spec S (fun _ d ↦ d = ⟨f, []⟩) (perform listing held directory question)
      (fun output _ d ↦ ∃ r a, question = .ok r ∧ r.Allows (historyOf puts) a ∧ output = answer a ∧
        StandsFor d.files (puts ++ r.puts))
      (fun err _ d ↦ Cause S held directory question err ∧ Leaves puts (putsOf question) d.files)
      (fun d ↦ Leaves puts (putsOf question) d.files) := by
  refine Spec.bind ((spec_openDatabase h).conseq (fun _ _ ↦ id) (fun _ _ _ ↦ id)
    (fun _ _ _ h ↦ ⟨h.1, .of_standsFor h.2⟩) fun _ ↦ .of_standsFor) fun db ↦ ?_
  refine Spec.bind (Q := fun r _ d ↦ question = .ok r ∧ Live db.engine d.files puts)
    (spec_check (fun r _ _ hr hlive ↦ ⟨hr, hlive⟩) fun e _ d he hlive ↦ ?_) fun r ↦
      Spec.assume fun hr ↦ ?_
  · exact ⟨Or.inr (Or.inr (Or.inr (Or.inl ⟨e, he, rfl⟩))), .of_standsFor hlive.standsFor⟩
  subst hr
  refine Spec.bind (Q := fun a _ d ↦ r.Allows (historyOf puts) a ∧
    StandsFor d.files (puts ++ r.puts))
    (spec_within (P := fun g ↦ Live db.engine g puts)
      (Q := fun a g ↦ r.Allows (historyOf puts) a ∧ StandsFor g (puts ++ r.puts))
      (E := fun err g ↦ Cause S held directory (.ok r) err ∧ Leaves puts (putsOf (.ok r)) g)
      (C := fun g ↦ Leaves puts (putsOf (.ok r)) g) fun g hlive ↦
        (Live.spec_respond hlive r).conseq (fun _ _ ↦ id) (fun _ _ _ ↦ id) ?_ fun _ ↦ id)
    fun a ↦ Spec.pure ?_
  · rintro err s d ⟨hcause, hleaves⟩
    exact ⟨hcause.imp_right fun hrefused ↦
      Or.inr (Or.inr (Or.inr ⟨r, rfl, hrefused⟩)), hleaves⟩
  · exact fun _ _ hd ↦ ⟨r, a, rfl, hd.1, rfl, hd.2⟩

end Process

/-! ### Many processes, one after the other -/

/-- A process: its command line, whose words are C strings, whether it found the directory in use,
what the operating system answered, and what it left behind, if it was not killed. -/
structure Invocation where
  arguments : List Bytes
  held : Bool
  sched : List Event
  output : Option Output
  isArgument : ∀ text ∈ arguments, IsArgument text

/-- The processes that have been run on a directory, and what they have made of it. -/
inductive Invocations (version : Bytes) (f : Directory) : List Invocation → Directory → Prop
  | start : Invocations version f [] f
  | exited {history : List Invocation} {g : Directory} {x : Invocation} {listing : Listing}
    {output : Output} {w : World Bytes UInt8} : Invocations version f history g →
      main version listing x.held x.arguments ((), ⟨⟨g, []⟩, x.sched⟩) = .ok output ((), w) →
        x.output = some output → Invocations version f (history ++ [x]) w.files
  | killed {history : List Invocation} {g : Directory} {x : Invocation} {listing : Listing}
    {w : World Bytes UInt8} : Invocations version f history g →
      main version listing x.held x.arguments ((), ⟨⟨g, []⟩, x.sched⟩) = .error .crash ((), w) →
        x.output = none → Invocations version f (history ++ [x]) w.files

/-- What a process shows and what it adds to the puts, if the puts are kept in a list. -/
inductive Shows (version : Bytes) (puts : List WalPutRecord) (x : Invocation) :
    List WalPutRecord → Prop
  /-- A command line that needs no database. -/
  | notice {output : Output} : read version x.arguments = .inl output → x.output = some output →
    Shows version puts x []
  /-- The answer of the map is printed, and a put is made. -/
  | answered {directory : Bytes} {r : Request} {a : Response} :
    read version x.arguments = .inr (directory, .ok r) → r.Allows (historyOf puts) a →
      x.output = some (answer a) → Shows version puts x r.puts
  /-- A message is printed for a cause. -/
  | failed {directory : Bytes} {question : Except Error Request} {err : DatabaseError}
    {effect : List WalPutRecord} : read version x.arguments = .inr (directory, question) →
      x.output = some (failure err) → Cause x.sched x.held directory question err →
        effect = [] ∨ effect = putsOf question → Shows version puts x effect
  | killed {directory : Bytes} {question : Except Error Request} {effect : List WalPutRecord} :
    read version x.arguments = .inr (directory, question) → x.output = none → Crashing x.sched →
      effect = [] ∨ effect = putsOf question → Shows version puts x effect

/-- The puts that the processes have made, one after the other. -/
inductive Explained (version : Bytes) : List Invocation → List WalPutRecord → Prop
  | start : Explained version [] []
  | next {history : List Invocation} {puts effect : List WalPutRecord} {x : Invocation} :
    Explained version history puts → Shows version puts x effect →
      Explained version (history ++ [x]) (puts ++ effect)

section Runs

variable {version : Bytes} {f g : Directory} {history : List Invocation} {puts : List WalPutRecord}
  {x : Invocation} {listing : Listing} {w : World Bytes UInt8}

/-- A process that ended by itself. -/
theorem exists_shows_of_exited (hstands : StandsFor g puts) {output : Output}
    (hrun : main version listing x.held x.arguments ((), ⟨⟨g, []⟩, x.sched⟩) = .ok output ((), w))
    (hout : x.output = some output) :
    ∃ effect, Shows version puts x effect ∧ StandsFor w.files (puts ++ effect) := by
  rw [main_eq] at hrun
  cases hread : read version x.arguments with
  | inl shown =>
    rw [hread] at hrun
    cases hrun
    exact ⟨[], .notice hread hout, by rwa [List.append_nil]⟩
  | inr asked =>
    obtain ⟨directory, question⟩ := asked
    rw [hread] at hrun
    have hspec := @spec_perform x.sched _ _ listing x.held directory question hstands ()
      ⟨⟨g, []⟩, x.sched⟩ rfl (List.suffix_refl _)
    simp only [follow, catching] at hrun
    revert hrun hspec
    rcases perform listing x.held directory question ((), ⟨⟨g, []⟩, x.sched⟩) with
      ⟨shown, _, w'⟩ | ⟨err | -, _, w'⟩
    · rintro hrun ⟨⟨r, a, rfl, hallows, rfl, hstands'⟩, -⟩
      cases hrun
      exact ⟨_, .answered hread hallows hout, hstands'⟩
    · rintro hrun ⟨hcause, effect, heffect, hstands'⟩
      cases hrun
      exact ⟨_, .failed hread hout hcause heffect, hstands'⟩
    · intro hrun
      cases hrun

/-- A process that was killed. -/
theorem exists_shows_of_killed (hstands : StandsFor g puts)
    (hrun : main version listing x.held x.arguments ((), ⟨⟨g, []⟩, x.sched⟩) =
      .error .crash ((), w))
    (hout : x.output = none) :
    ∃ effect, Shows version puts x effect ∧ StandsFor w.files (puts ++ effect) := by
  rw [main_eq] at hrun
  cases hread : read version x.arguments with
  | inl shown =>
    rw [hread] at hrun
    cases hrun
  | inr asked =>
    obtain ⟨directory, question⟩ := asked
    rw [hread] at hrun
    have hspec := @spec_perform x.sched _ _ listing x.held directory question hstands ()
      ⟨⟨g, []⟩, x.sched⟩ rfl (List.suffix_refl _)
    simp only [follow, catching] at hrun
    revert hrun hspec
    rcases perform listing x.held directory question ((), ⟨⟨g, []⟩, x.sched⟩) with
      ⟨shown, _, w'⟩ | ⟨err | -, _, w'⟩
    · intro hrun
      cases hrun
    · intro hrun
      cases hrun
    · rintro hrun ⟨hcrash, effect, heffect, hstands'⟩
      cases hrun
      exact ⟨_, .killed hread hout hcrash heffect, hstands'⟩

/-- **The client is a map.** Whatever processes are run on a new directory, one after the other,
with failing calls, kills and a directory in use at any point, there is a list of puts that explains
all they have printed and every status: each answer is that of the map of the puts before it, a put
with status 0 is in the list, a put that ended otherwise may be, and nothing else is. A message has
a cause. The directory stands for the list. -/
theorem invocations_explained (hf : Fresh f) (h : Invocations version f history g) :
    ∃ puts, Explained version history puts ∧ StandsFor g puts := by
  induction h with
  | start => exact ⟨[], .start, hf.standsFor⟩
  | exited _ hrun hout ih =>
    obtain ⟨puts, hexplained, hstands⟩ := ih
    obtain ⟨effect, hshows, hstands'⟩ := exists_shows_of_exited hstands hrun hout
    exact ⟨_, hexplained.next hshows, hstands'⟩
  | killed _ hrun hout ih =>
    obtain ⟨puts, hexplained, hstands⟩ := ih
    obtain ⟨effect, hshows, hstands'⟩ := exists_shows_of_killed hstands hrun hout
    exact ⟨_, hexplained.next hshows, hstands'⟩

/-- **A query is answered.** After any processes, one that asks for something that the store does
not refuse, and meets no failing call, no kill and no other process, prints the answer of the map.
-/
theorem query_answered (hf : Fresh f) (h : Invocations version f history g) {arguments : List Bytes}
    {directory : Bytes} {r : Request} (hread : read version arguments = .inr (directory, .ok r))
    (hdirectory : directory ≠ []) (hr : ¬Refusable r) (listing : Listing) {sched : List Event}
    (hfail : ¬Failing sched) (hcrash : ¬Crashing sched) :
    ∃ puts a w, Explained version history puts ∧ r.Allows (historyOf puts) a ∧
      main version listing false arguments ((), ⟨⟨g, []⟩, sched⟩) = .ok (answer a) ((), w) := by
  obtain ⟨puts, hexplained, hstands⟩ := invocations_explained hf h
  have hspec := @spec_perform sched _ _ listing false directory (.ok r) hstands ()
    ⟨⟨g, []⟩, sched⟩ rfl (List.suffix_refl _)
  rw [main_eq, hread]
  simp only [follow, catching]
  revert hspec
  rcases perform listing false directory (.ok r) ((), ⟨⟨g, []⟩, sched⟩) with
    ⟨shown, _, w⟩ | ⟨err | -, _, w⟩
  · rintro ⟨⟨r', a, heq, hallows, rfl, -⟩, -⟩
    obtain rfl := Except.ok.inj heq
    exact ⟨puts, a, w, hexplained, hallows, rfl⟩
  · rintro ⟨hcause | hheld | hempty | ⟨e, he, -⟩ | ⟨r', heq, hrefusable, -⟩, -⟩
    · exact absurd hcause hfail
    · cases hheld
    · exact absurd hempty hdirectory
    · cases he
    · obtain rfl := Except.ok.inj heq
      exact absurd hrefusable hr
  · exact fun hc ↦ absurd hc.1 hcrash

/-! ### What was put is what is printed -/

/-- The puts that a command line asks for. -/
def asked (version : Bytes) (x : Invocation) : List WalPutRecord :=
  match read version x.arguments with
  | .inl _ => []
  | .inr (_, question) => putsOf question

/-- A process adds what it was asked to add, or nothing. -/
theorem Shows.effect_eq {effect : List WalPutRecord} (h : Shows version puts x effect) :
    effect = [] ∨ effect = asked version x := by
  have hasked : ∀ {directory question}, read version x.arguments = .inr (directory, question) →
      asked version x = putsOf question := fun hread ↦ by rw [asked, hread]
  cases h with
  | notice => exact Or.inl rfl
  | answered hread => exact Or.inr (hasked hread).symm
  | failed hread _ _ heffect => exact heffect.imp_right fun h ↦ h.trans (hasked hread).symm
  | killed hread _ _ heffect => exact heffect.imp_right fun h ↦ h.trans (hasked hread).symm

/-- The last of several commands. -/
theorem Explained.of_concat (h : Explained version (history ++ [x]) puts) :
    ∃ before effect, Explained version history before ∧ Shows version before x effect ∧
      puts = before ++ effect := by
  generalize hwhole : history ++ [x] = whole at h
  cases h with
  | start => simp at hwhole
  | next hprev hshows =>
    obtain ⟨rfl, hx⟩ := List.append_inj' hwhole rfl
    obtain rfl := List.singleton_inj.1 hx
    exact ⟨_, _, hprev, hshows, rfl⟩

/-- Later processes add what they were asked to. -/
theorem Explained.of_append {more : List Invocation}
    (h : Explained version (history ++ more) puts) :
    ∃ before later, Explained version history before ∧ puts = before ++ later ∧
      ∀ r ∈ later, ∃ z ∈ more, r ∈ asked version z := by
  induction more using List.reverseRecOn generalizing puts with
  | nil => exact ⟨puts, [], by rwa [List.append_nil] at h, (List.append_nil _).symm, by simp⟩
  | append_singleton more z ih =>
    rw [← List.append_assoc] at h
    obtain ⟨middle, effect, hmiddle, hshows, rfl⟩ := h.of_concat
    obtain ⟨before, later, hbefore, rfl, hlater⟩ := ih hmiddle
    refine ⟨before, later ++ effect, hbefore, List.append_assoc _ _ _, fun r hr ↦ ?_⟩
    rcases List.mem_append.1 hr with hr | hr
    · obtain ⟨y, hy, hry⟩ := hlater r hr
      exact ⟨y, List.mem_append_left _ hy, hry⟩
    · refine ⟨z, by simp, ?_⟩
      rcases hshows.effect_eq with rfl | rfl
      · simp at hr
      · exact hr

/-- What a process has asked the database for and been told. -/
theorem Shows.exists_answer {directory : Bytes} {r : Request} {effect : List WalPutRecord}
    {output : Output}
    (h : Shows version puts x effect) (hread : read version x.arguments = .inr (directory, .ok r))
    (hout : x.output = some output) (hstatus : output.status ≠ 1) :
    effect = r.puts ∧ ∃ a, r.Allows (historyOf puts) a ∧ output = answer a := by
  cases h with
  | notice hread' => exact absurd (hread.symm.trans hread') (by simp)
  | answered hread' hallows hout' =>
    cases hread.symm.trans hread'
    exact ⟨rfl, _, hallows, Option.some.inj (hout.symm.trans hout')⟩
  | failed _ hout' =>
    obtain rfl := Option.some.inj (hout.symm.trans hout')
    exact absurd rfl hstatus
  | killed _ hout' => exact absurd (hout.symm.trans hout') (by simp)

/-- **What was put is what is printed.** After a put with status 0, and whatever processes come then
that do not put to the same series and timestamp, a `get` of the two prints the sample, unless it
ends with a message. -/
theorem get_prints_put (hf : Fresh f) {before between after : List Invocation} {y : Invocation}
    (h : Invocations version f (before ++ x :: between ++ y :: after) g)
    {directory directory' : Bytes}
    {series : SeriesKey} {sample : Sample} {put shown : Output}
    (hx : read version x.arguments = .inr (directory, .ok (.put series sample)))
    (hput : x.output = some put) (hstatus : put.status ≠ 1)
    (hbetween : ∀ z ∈ between, ∀ r ∈ asked version z, r.entry.1 ≠ (series, sample.timestamp))
    (hy : read version y.arguments = .inr (directory', .ok (.get series sample.timestamp)))
    (hshown : y.output = some shown) (hstatus' : shown.status ≠ 1) :
    shown = ⟨0, printSample sample, []⟩ := by
  obtain ⟨puts, hexplained, -⟩ := invocations_explained hf h
  have hsplit : before ++ x :: between ++ y :: after =
      (before ++ [x] ++ between ++ [y]) ++ after := by
    simp
  rw [hsplit] at hexplained
  obtain ⟨upto, -, hupto, -, -⟩ := hexplained.of_append
  obtain ⟨now, effect, hnow, hget, -⟩ := hupto.of_concat
  obtain ⟨first, later, hfirst, rfl, hlater⟩ := hnow.of_append
  obtain ⟨older, effect', holder, hputs, rfl⟩ := hfirst.of_concat
  obtain ⟨rfl, -⟩ := hputs.exists_answer hx hput hstatus
  obtain ⟨-, a, hallows, rfl⟩ := hget.exists_answer hy hshown hstatus'
  -- none of the later puts is to the same key
  have hnone : lastWrite (historyOf later) (series, sample.timestamp) = none := by
    rw [lastWrite_eq_none_iff, keys, List.mem_toFinset, historyOf, List.map_map]
    intro hmem
    obtain ⟨r, hr, hkey⟩ := List.mem_map.1 hmem
    obtain ⟨z, hz, hrz⟩ := hlater r hr
    exact hbetween z hz r hrz hkey
  have hlast : lastWrite (historyOf (older ++ [⟨series, sample⟩] ++ later))
    (series, sample.timestamp) =
      some sample.value := by
    simp only [historyOf, List.map_append, List.map_singleton, lastWrite_append,
      lastWrite_singleton]
    rw [← historyOf, hnone]
    simp [WalPutRecord.entry]
  obtain rfl : a = .sample (sampleAt sample.timestamp
    (lastWrite (historyOf (older ++ [WalPutRecord.mk series sample] ++ later))
      (series, sample.timestamp))) := hallows
  rw [hlast]
  rfl

end Runs

/-! ### Runs, computed -/

/-- Run a process, if it ends as the invocation says. -/
def Invocation.made (version : Bytes) (listing : Listing) (g : Directory) (x : Invocation) :
    Option Directory :=
  match main version listing x.held x.arguments ((), ⟨⟨g, []⟩, x.sched⟩) with
  | .ok output (_, w) => if x.output = some output then some w.files else none
  | .error .crash (_, w) => if x.output = none then some w.files else none
  | .error (.exn _) _ => none

/-- **Computed processes** are processes that are run one after the other. -/
theorem Invocations.of_made {version : Bytes} {listing : Listing} {f g g' : Directory}
    {history more : List Invocation} (h : Invocations version f history g)
    (hmade : more.foldlM (Invocation.made version listing) g = some g') :
    Invocations version f (history ++ more) g' := by
  induction more generalizing history g with
  | nil =>
    obtain rfl := Option.some.inj hmade
    rwa [List.append_nil]
  | cons x more ih =>
    rw [List.foldlM_cons, Option.bind_eq_bind, Option.bind_eq_some_iff] at hmade
    obtain ⟨next, hx, hrest⟩ := hmade
    rw [List.append_cons]
    refine ih ?_ hrest
    rw [Invocation.made] at hx
    split at hx
    · rename_i output _ w hrun
      split at hx
      · exact Option.some.inj hx ▸ h.exited hrun ‹_›
      · cases hx
    · rename_i _ w hrun
      split at hx
      · exact Option.some.inj hx ▸ h.killed hrun ‹_›
      · cases hx
    · cases hx

/-- `chronostore put db cpu 5 1`. -/
def cpuPut : Invocation :=
  ⟨[ascii "chronostore", ascii "put", ascii "db", ascii "cpu", ascii "5", ascii "1"], false, [],
    some ⟨0, [], []⟩, by decide⟩

/-- A flush, a put to another series, and a put to a later timestamp that is killed while it
appends. -/
def otherProcesses : List Invocation :=
  [⟨[ascii "chronostore", ascii "flush", ascii "db"], false, [], some ⟨0, [], []⟩, by decide⟩,
    ⟨[ascii "chronostore", ascii "put", ascii "db", ascii "io", ascii "9", ascii "2"], false, [],
      some ⟨0, [], []⟩, by decide⟩,
    ⟨[ascii "chronostore", ascii "put", ascii "db", ascii "cpu", ascii "9", ascii "2"], false,
      List.replicate 25 .ok ++ [.crash 9], none, by decide⟩]

/-- `chronostore get db cpu 5`. -/
def cpuGet : Invocation :=
  ⟨[ascii "chronostore", ascii "get", ascii "db", ascii "cpu", ascii "5"], false, [],
    some ⟨0, ascii "5\t1\n", []⟩, by decide⟩

/-- A put, two other processes, and a query. -/
theorem exists_cpuProcesses :
    ∃ g, Invocations [] OrderedMap.empty ([] ++ cpuPut :: otherProcesses ++ cpuGet :: []) g := by
  obtain ⟨g, hmade⟩ : ∃ g, ([] ++ cpuPut :: otherProcesses ++ cpuGet :: []).foldlM
      (Invocation.made [] .sorted) OrderedMap.empty = some g :=
    Option.isSome_iff_exists.1 (by decide +kernel)
  exact ⟨g, Invocations.start.of_made hmade⟩

/-- A put, a flush, a put to another series, a put that is killed, and a `get`. -/
theorem invocations_explained_cpu : ∃ g puts,
    Explained [] ([] ++ cpuPut :: otherProcesses ++ cpuGet :: []) puts ∧ StandsFor g puts := by
  obtain ⟨g, hruns⟩ := exists_cpuProcesses
  obtain ⟨puts, h⟩ := invocations_explained fresh_empty hruns
  exact ⟨g, puts, h⟩

/-- The `get` again, after all of them. -/
theorem query_answered_cpu : ∃ g puts a w,
    Invocations [] OrderedMap.empty ([] ++ cpuPut :: otherProcesses ++ cpuGet :: []) g ∧
      Request.Allows (historyOf puts) (.get cpuSeries cpuSample.timestamp) a ∧
        main [] .sorted false cpuGet.arguments ((), ⟨⟨g, []⟩, []⟩) = .ok (answer a) ((), w) := by
  obtain ⟨g, hruns⟩ := exists_cpuProcesses
  have hread : read [] cpuGet.arguments =
      .inr (ascii "db", .ok (.get cpuSeries cpuSample.timestamp)) := by
    decide +kernel
  obtain ⟨puts, a, w, -, hallows, hrun⟩ := query_answered fresh_empty hruns hread (by decide)
    id .sorted not_failing_nil not_crashing_nil
  exact ⟨g, puts, a, w, hruns, hallows, hrun⟩

/-- Between the put and the `get` the store is flushed, another series is put to, and a put to
another timestamp is killed. -/
theorem get_prints_put_cpu : ∃ g,
    Invocations [] OrderedMap.empty ([] ++ cpuPut :: otherProcesses ++ cpuGet :: []) g ∧
      (⟨0, ascii "5\t1\n", []⟩ : Output) = ⟨0, printSample cpuSample, []⟩ := by
  obtain ⟨g, hruns⟩ := exists_cpuProcesses
  have hput : read [] cpuPut.arguments = .inr (ascii "db", .ok (.put cpuSeries cpuSample)) := by
    decide +kernel
  have hget : read [] cpuGet.arguments =
      .inr (ascii "db", .ok (.get cpuSeries cpuSample.timestamp)) := by
    decide +kernel
  have hother : ∀ z ∈ otherProcesses, ∀ r ∈ asked [] z,
      r.entry.1 ≠ (cpuSeries, cpuSample.timestamp) := by decide +kernel
  exact ⟨g, hruns, get_prints_put fresh_empty hruns hput rfl (by decide) hother hget rfl
    (by decide)⟩

end ChronoStore.CommandLine
