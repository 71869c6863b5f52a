import ChronoStore.Protocol.Stage

/-!
# Programs that follow the protocol

`Follows o log st`: the steps of `log` are moves of the protocol that lead from the stage of the
origin `o` to `st`. Between two moves a program may give up what it was doing, as an exception or
the death of the process does.

`At o d st` ties a disk to a stage through its log of steps. It is the only assertion about the disk
that the specifications of programs use; what the files contain follows from it (`At.holds`). The
rules below are those of `DiskLogic` for a program at a known stage: `Spec.move` for a step that is
a move, `Spec.look` for a program that reads.
-/

namespace ChronoStore

open FaultyDisk WriteHistory

/-- Where a run starts: a directory with a meaning. -/
structure Origin where
  files : Directory
  stage : Stage
  holds : Holds files stage

/-- The steps lead to the stage. -/
inductive Follows (o : Origin) : List (Step Bytes UInt8) → Stage → Prop
  | start : Follows o [] o.stage
  | move {log : List (Step Bytes UInt8)} {st st' : Stage} {step : Step Bytes UInt8} :
    Follows o log st → Move st step st' → Follows o (log ++ [step]) st'
  | abandon {log : List (Step Bytes UInt8)} {st : Stage} :
    Follows o log st → Follows o log st.abandoned

variable {o : Origin}

/-- **What the files contain** at a stage. -/
theorem Follows.holds {log : List (Step Bytes UInt8)} {st : Stage} (h : Follows o log st) :
    Holds (applyAll o.files log) st := by
  induction h with
  | start => exact o.holds
  | move _ hmove ih =>
    rw [applyAll_append]
    exact hmove.holds ih
  | abandon _ ih => exact ih.abandoned

/-- Each step on the way was a move. -/
theorem Follows.move_of_mem {log : List (Step Bytes UInt8)} {st : Stage} (h : Follows o log st)
    {before after : List (Step Bytes UInt8)} {step : Step Bytes UInt8}
    (hlog : log = before ++ step :: after) :
    ∃ st₁ st₂, Follows o before st₁ ∧ Move st₁ step st₂ := by
  induction h generalizing after with
  | start => simp at hlog
  | @move log st st' step' hf hmove ih =>
    rcases List.eq_nil_or_concat after with rfl | ⟨after', last, rfl⟩
    · obtain ⟨rfl, hstep⟩ := List.append_inj' hlog rfl
      obtain rfl : step' = step := by simpa using hstep
      exact ⟨st, st', hf, hmove⟩
    · rw [List.concat_eq_append, ← List.cons_append, ← List.append_assoc] at hlog
      exact ih (List.append_inj' hlog rfl).1
  | abandon _ ih => exact ih hlog

/-- The disk is at the stage. -/
structure At (o : Origin) (d : Disk Bytes UInt8) (st : Stage) : Prop where
  follows : Follows o d.log st
  files_eq : d.files = applyAll o.files d.log

/-- The files are those of the stage. -/
theorem At.holds {d : Disk Bytes UInt8} {st : Stage} (h : At o d st) : Holds d.files st := by
  rw [h.files_eq]
  exact h.follows.holds

theorem At.start (o : Origin) : At o ⟨o.files, []⟩ o.stage := ⟨.start, rfl⟩

/-- A step of the disk that is a move takes the stage along. -/
theorem At.perform {d : Disk Bytes UInt8} {st st' : Stage} {step : Step Bytes UInt8} (h : At o d st)
    (hmove : Move st step st') : At o (d.perform step) st' where
  follows := h.follows.move hmove
  files_eq := by
    rw [Disk.perform_files, Disk.perform_log, applyAll_append, ← h.files_eq]
    rfl

/-- A process that is gone leaves the disk as it is, with nothing under way. -/
theorem At.abandon {d : Disk Bytes UInt8} {st : Stage} (h : At o d st) :
    At o d ⟨st.abandoned.catalog, st.abandoned.log, none, .idle⟩ :=
  st.abandoned_eq ▸ ⟨h.follows.abandon, h.files_eq⟩

/-- Catalog and log satisfy `T`, and so do those from before a renaming or a truncation that is not
synchronized yet. -/
structure Stage.Is (T : Catalog → Option WalLog → Prop) (st : Stage) : Prop where
  now : T st.catalog st.log
  before_rename : ∀ previous, st.phase = .renamed previous → T previous st.log
  before_truncate : ∀ previous, st.phase = .truncated previous → T st.catalog (some previous)

/-- The disk is at some stage that satisfies `P`. -/
def AtSome (o : Origin) (P : Stage → Prop) (d : Disk Bytes UInt8) : Prop := ∃ st, At o d st ∧ P st

/-- The disk is at some stage at which catalog and log satisfy `T`. -/
abbrev Reaches (o : Origin) (T : Catalog → Option WalLog → Prop) : Disk Bytes UInt8 → Prop :=
  AtSome o (Stage.Is T)

/-- A condition on the stage may be weakened. -/
theorem AtSome.mono {P P' : Stage → Prop} {d : Disk Bytes UInt8} (h : AtSome o P d)
    (hP : ∀ st, P st → P' st) : AtSome o P' d := by
  obtain ⟨st, hat, hst⟩ := h
  exact ⟨st, hat, hP st hst⟩

section Stages

variable {T : Catalog → Option WalLog → Prop} {c previous : Catalog} {log : Option WalLog}
  {ready : Option Layer}

theorem Stage.Is.idle (h : T c log) : Stage.Is T ⟨c, log, ready, .idle⟩ := ⟨h, by simp, by simp⟩

theorem Stage.Is.staging (h : T c log) (target : Target) (content : Bytes) :
    Stage.Is T ⟨c, log, ready, .staging target content⟩ := ⟨h, by simp, by simp⟩

theorem Stage.Is.sealed (h : T c log) (target : Target) (content : Bytes) :
    Stage.Is T ⟨c, log, ready, .sealed target content⟩ := ⟨h, by simp, by simp⟩

/-- While a rename has not been settled, the condition has to hold of both catalogs. -/
theorem Stage.Is.renamed (h : T c log) (hprevious : T previous log) :
    Stage.Is T ⟨c, log, ready, .renamed previous⟩ :=
  ⟨h, fun p hp ↦ Phase.renamed.inj hp ▸ hprevious, by simp⟩

/-- While a truncation has not been settled, the condition has to hold of both logs. -/
theorem Stage.Is.truncated {previous : WalLog} (h : T c log) (hprevious : T c (some previous)) :
    Stage.Is T ⟨c, log, ready, .truncated previous⟩ :=
  ⟨h, by simp, fun p hp ↦ Phase.truncated.inj hp ▸ hprevious⟩

end Stages

/-! ### Rules -/

variable {σ α : Type} {S : List Event} {P : Stage → Prop} {st st' : Stage} {s₀ : σ}
    {R : Error → Prop}

/-- The disk is at the stage and the program has not changed its state. -/
def Here (o : Origin) (st : Stage) (s₀ : σ) (s : σ) (d : Disk Bytes UInt8) : Prop :=
  s = s₀ ∧ At o d st

/-- How a program may throw: the disk is at a stage that satisfies `P`, and either a call has failed
and the exception says so, or it is one of `R`. -/
def ThrowsAt (o : Origin) (S : List Event) (P : Stage → Prop) (R : Error → Prop) (e : Error) (_ : σ)
    (d : Disk Bytes UInt8) : Prop :=
  AtSome o P d ∧ (Failing S ∧ e.IsIo ∨ R e)

/-- How a program may throw where catalog and log satisfy `T`. -/
abbrev Throws (o : Origin) (S : List Event) (T : Catalog → Option WalLog → Prop)
    (R : Error → Prop) :
    Error → σ → Disk Bytes UInt8 → Prop :=
  ThrowsAt o S (Stage.Is T) R

theorem At.atSome {d : Disk Bytes UInt8} (h : At o d st) (hst : P st) : AtSome o P d := ⟨st, h, hst⟩

/-- **A step that is a move.** -/
theorem Spec.move {step : Step Bytes UInt8} {onFail : Error} (hfail : onFail.IsIo)
    (hmove : Move st step st') (hwhole : ∀ name bytes, step ≠ .append name bytes) (hst : P st)
    (hst' : P st') :
    Spec S (Here o st s₀) (Act.step step onFail) (fun _ ↦ Here o st' s₀)
      (ThrowsAt o S P R) (AtSome o P) := by
  have hpart : ∀ d n, At o d st → AtSome o P (d.performAll (step.truncated n)) := by
    intro d n hat
    rcases Step.truncated_eq hwhole n with heq | heq
    · rw [heq]
      exact hat.atSome hst
    · rw [heq]
      exact (hat.perform hmove).atSome hst'
  refine FaultyDisk.Spec.step ?_ ?_ ?_
  · rintro s d ⟨rfl, hat⟩
    exact ⟨rfl, hat.perform hmove⟩
  · rintro s d n hS ⟨rfl, hat⟩
    exact ⟨hpart d n hat, Or.inl ⟨hS, hfail⟩⟩
  · rintro s d n ⟨rfl, hat⟩
    exact hpart d n hat

/-- **A program that reads** what the stage says is there. -/
theorem Spec.look {m : Prog σ α} {a : α}
    (h : Reads S Error.IsIo (fun files ↦ Holds files st) m (.ok a)) (hst : P st) :
    Spec S (Here o st s₀) m (fun b s d ↦ b = a ∧ Here o st s₀ s d) (ThrowsAt o S P R)
      (AtSome o P) := by
  refine FaultyDisk.Spec.reads h (fun s d hd ↦ hd.2.holds) ?_ ?_ ?_
  · rintro b s d hb hd
    exact ⟨(Except.ok.inj hb).symm, hd⟩
  · rintro e s d (he | ⟨hS, he⟩) ⟨rfl, hat⟩
    · cases he
    · exact ⟨hat.atSome hst, Or.inl ⟨hS, he⟩⟩
  · rintro s d ⟨rfl, hat⟩
    exact hat.atSome hst

/-- A call that may fail and changes nothing. -/
theorem Spec.call {onFail : Error} (hfail : onFail.IsIo) (hst : P st) :
    Spec S (Here o st s₀) (Act.probe onFail) (fun _ ↦ Here o st s₀) (ThrowsAt o S P R)
      (AtSome o P) :=
  (Spec.look (Reads.probe hfail) hst).post fun _ _ _ h ↦ h.2

/-- An exception that is thrown on purpose leaves the directory as it is. -/
theorem At.throws {d : Disk Bytes UInt8} (h : At o d st) (hst : P st) {e : Error} (he : R e)
    (s : σ) :
    ThrowsAt o S P R e s d :=
  ⟨⟨st, h, hst⟩, Or.inr he⟩

end ChronoStore
