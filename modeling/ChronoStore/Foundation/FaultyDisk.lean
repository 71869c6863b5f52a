import ChronoStore.Foundation.OrderedMap

/-!
# Programs over a file system that may fail

A program over a directory of files is a state-passing function (`Act`) that ends in one of three
ways: it returns, it throws, or the process **crashes** — and a crash, unlike an exception, cannot
be caught. Beside the state of its own that a program keeps, it runs in a `World`: the files as a
reader would find them, the log of the file-system steps performed so far, and a **schedule** saying
how the operating system answers the calls still to be made. Programs are deterministic functions of
the world; quantifying over schedules is what makes a statement one about every short write, every
failing call and every crash point.

An exhausted schedule answers `ok`, so the empty schedule is the run in which nothing goes wrong.

## Two kinds of call

* `Act.step` performs one `Step`. A failing or crashing call may still have taken effect in part,
  and the number carried by the event says how much (`Step.truncated`).
* `Act.probe` and what is built on it only look, and leave files and log alone.

How such programs are reasoned about is the subject of `DiskLogic`.
-/

namespace FaultyDisk

/-- How the operating system answers one call. -/
inductive Event
  /-- The call succeeds. -/
  | ok
  /-- A write transfers at most this many bytes. -/
  | short (count : ℕ)
  /-- The call is interrupted before it does anything, and is made again. -/
  | interrupted
  /-- The call reports an error, after this much of its effect. -/
  | fail (done : ℕ)
  /-- The process ends during the call, after this much of its effect. -/
  | crash (done : ℕ)
deriving DecidableEq, Repr

/-- The events that make a call report an error; a write of zero bytes is one of them. -/
def Event.fails : Event → Bool
  | .short 0 => true
  | .fail _ => true
  | _ => false

/-- The events that end the process. -/
def Event.crashes : Event → Bool
  | .crash _ => true
  | _ => false

/-- One file-system step: an effect on the directory or on a file, or a request for durability. -/
inductive Step (N B : Type)
  /-- Create an empty file if the name is free. -/
  | create (name : N)
  /-- Create an empty file, or empty the one that is there. -/
  | createTrunc (name : N)
  /-- Extend a file at its end. -/
  | append (name : N) (bytes : List B)
  /-- Cut a file down to its first bytes. -/
  | truncate (name : N) (size : ℕ)
  /-- Move a file onto a name, replacing what is there. -/
  | rename (source target : N)
  /-- Delete a name. -/
  | remove (name : N)
  /-- Make a file's bytes and length durable. -/
  | fsync (name : N)
  /-- Make the directory's entries durable. -/
  | fsyncDir
deriving DecidableEq, Repr

variable {N B ε σ τ α β : Type} [LinearOrder N]

/-- The files of a directory, by name. -/
abbrev Files (N B : Type) [LinearOrder N] := OrderedMap N (List B)

namespace Step

/-- What a reader of the directory finds after the step. -/
def apply (files : Files N B) : Step N B → Files N B
  | create name => if (files.find? name).isSome then files else files.insert name []
  | createTrunc name => files.insert name []
  | append name bytes =>
    match files.find? name with
    | some content => files.insert name (content ++ bytes)
    | none => files
  | truncate name size =>
    match files.find? name with
    | some content => files.insert name (content.take size)
    | none => files
  | rename source target =>
    match files.find? source with
    | some content => (files.erase source).insert target content
    | none => files
  | remove name => files.erase name
  | fsync _ => files
  | fsyncDir => files

/-- Does the step change what a reader finds? -/
def mutates : Step N B → Bool
  | fsync _ => false
  | fsyncDir => false
  | _ => true

/-- The names whose files the step may change. -/
def touches : Step N B → List N
  | create name => [name]
  | createTrunc name => [name]
  | append name _ => [name]
  | truncate name _ => [name]
  | rename source target => [source, target]
  | remove name => [name]
  | fsync _ => []
  | fsyncDir => []

/-- How much of a step is done when it is cut short: a write has transferred a prefix, every other
step has either happened or not. -/
def truncated (done : ℕ) : Step N B → List (Step N B)
  | append name bytes => [append name (bytes.take done)]
  | s => if done = 0 then [] else [s]

omit [LinearOrder N] in
/-- Only a write can be done in part. -/
theorem truncated_eq {s : Step N B} (h : ∀ name bytes, s ≠ append name bytes) (done : ℕ) :
    s.truncated done = [] ∨ s.truncated done = [s] := by
  cases s with
  | append name bytes => exact absurd rfl (h name bytes)
  | _ =>
    rw [truncated]
    · split
      · exact Or.inl rfl
      · exact Or.inr rfl
    · simp

/-- **Frame.** A step leaves the files alone that it does not touch. -/
theorem find?_apply_of_notMem {files : Files N B} {s : Step N B} {name : N}
    (h : name ∉ s.touches) : (s.apply files).find? name = files.find? name := by
  cases s with
  | create n =>
    rw [apply]
    split
    · rfl
    · rw [OrderedMap.find?_insert, if_neg (by simpa [touches] using h)]
  | createTrunc n => rw [apply, OrderedMap.find?_insert, if_neg (by simpa [touches] using h)]
  | append n bytes =>
    rw [apply]
    split
    · rw [OrderedMap.find?_insert, if_neg (by simpa [touches] using h)]
    · rfl
  | truncate n size =>
    rw [apply]
    split
    · rw [OrderedMap.find?_insert, if_neg (by simpa [touches] using h)]
    · rfl
  | rename a b =>
    simp only [touches, List.mem_cons, List.not_mem_nil, or_false, not_or] at h
    rw [apply]
    split
    · rw [OrderedMap.find?_insert, if_neg h.2, OrderedMap.find?_erase, if_neg h.1]
    · rfl
  | remove n => rw [apply, OrderedMap.find?_erase, if_neg (by simpa [touches] using h)]
  | fsync n => rfl
  | fsyncDir => rfl

end Step

/-- Apply steps in order. -/
def applyAll (files : Files N B) (steps : List (Step N B)) : Files N B :=
  steps.foldl Step.apply files

@[simp] theorem applyAll_nil (files : Files N B) : applyAll files [] = files := rfl

@[simp] theorem applyAll_cons (files : Files N B) (s : Step N B) (steps : List (Step N B)) :
    applyAll files (s :: steps) = applyAll (s.apply files) steps := rfl

/-- Steps are applied one after the other. -/
theorem applyAll_append (files : Files N B) (a b : List (Step N B)) :
    applyAll files (a ++ b) = applyAll (applyAll files a) b :=
  List.foldl_append

/-- A directory together with the steps that led to it, oldest first. -/
structure Disk (N B : Type) [LinearOrder N] where
  /-- The files as a reader finds them. -/
  files : Files N B
  /-- The steps performed so far. -/
  log : List (Step N B)

namespace Disk

/-- The disk after a step. -/
def perform (d : Disk N B) (s : Step N B) : Disk N B :=
  ⟨s.apply d.files, d.log ++ [s]⟩

/-- The disk after steps. -/
def performAll (d : Disk N B) (steps : List (Step N B)) : Disk N B :=
  steps.foldl perform d

@[simp] theorem perform_files (d : Disk N B) (s : Step N B) :
    (d.perform s).files = s.apply d.files := rfl

@[simp] theorem perform_log (d : Disk N B) (s : Step N B) :
    (d.perform s).log = d.log ++ [s] := rfl

@[simp] theorem performAll_nil (d : Disk N B) : d.performAll [] = d := rfl

@[simp] theorem performAll_cons (d : Disk N B) (s : Step N B) (steps : List (Step N B)) :
    d.performAll (s :: steps) = (d.perform s).performAll steps := rfl

end Disk

/-- The world a program runs in: a disk, and how the operating system will answer. -/
structure World (N B : Type) [LinearOrder N] extends Disk N B where
  /-- The answers to the calls still to be made; past its end every call succeeds. -/
  sched : List Event

/-- The two ways in which a program ends without a result. -/
inductive Stop (ε : Type)
  /-- An exception, which an enclosing handler may see. -/
  | exn (e : ε)
  /-- The end of the process, which nothing sees. -/
  | crash
deriving DecidableEq, Repr

/-- Programs over a world that keep a state `σ` of their own. State survives an exception: a handler
sees what was assigned before the throw. -/
abbrev Act (N B ε σ α : Type) [LinearOrder N] := EStateM (Stop ε) (σ × World N B) α

/-- The next answer of the operating system; interrupted calls are made again. -/
def settle : List Event → Event × List Event
  | [] => (.ok, [])
  | .interrupted :: rest => settle rest
  | e :: rest => (e, rest)

namespace Act

/-- A call that only looks at the disk. -/
def probe (onFail : ε) : Act N B ε σ Unit := fun (s, w) ↦
  match settle w.sched with
  | (.fail _, rest) => .error (.exn onFail) (s, ⟨w.toDisk, rest⟩)
  | (.crash _, rest) => .error .crash (s, ⟨w.toDisk, rest⟩)
  | (_, rest) => .ok () (s, ⟨w.toDisk, rest⟩)

/-- Perform one step. -/
def step (t : Step N B) (onFail : ε) : Act N B ε σ Unit := fun (s, w) ↦
  match settle w.sched with
  | (.fail done, rest) => .error (.exn onFail) (s, ⟨w.performAll (t.truncated done), rest⟩)
  | (.crash done, rest) => .error .crash (s, ⟨w.performAll (t.truncated done), rest⟩)
  | (_, rest) => .ok () (s, ⟨w.perform t, rest⟩)

/-- Perform one step whose failure is ignored. -/
def tryStep (t : Step N B) : Act N B ε σ Unit := fun (s, w) ↦
  match settle w.sched with
  | (.fail done, rest) => .ok () (s, ⟨w.performAll (t.truncated done), rest⟩)
  | (.crash done, rest) => .error .crash (s, ⟨w.performAll (t.truncated done), rest⟩)
  | (_, rest) => .ok () (s, ⟨w.perform t, rest⟩)

/-- The files as they are now. -/
def files : Act N B ε σ (Files N B) := fun (s, w) ↦ .ok w.files (s, w)

/-- The content of a file, or nothing when there is no file of that name. -/
def lookup (name : N) (onFail : ε) : Act N B ε σ (Option (List B)) := do
  probe onFail
  return (← files).find? name

/-- The names in the directory. -/
def list (onFail : ε) : Act N B ε σ (List N) := do
  probe onFail
  return (← files).keys

/-- Open a file for appending, creating it if the name is free. -/
def openAppend (name : N) (onFail : ε) : Act N B ε σ Unit := do
  if ((← files).find? name).isSome then probe onFail else step (.create name) onFail

/-- The write loop, by recursion on the schedule: a short write is followed by another attempt at
the rest, an interrupted one by the same attempt. -/
def writeLoop (name : N) (onFail onZero : ε) :
    List Event → List B → σ × Disk N B → EStateM.Result (Stop ε) (σ × World N B) Unit
  | sched, [], (s, d) => .ok () (s, ⟨d, sched⟩)
  | [], b :: bytes, (s, d) => .ok () (s, ⟨d.perform (.append name (b :: bytes)), []⟩)
  | .interrupted :: rest, b :: bytes, (s, d) =>
    writeLoop name onFail onZero rest (b :: bytes) (s, d)
  | .ok :: rest, b :: bytes, (s, d) => .ok () (s, ⟨d.perform (.append name (b :: bytes)), rest⟩)
  | .short 0 :: rest, _ :: _, (s, d) => .error (.exn onZero) (s, ⟨d, rest⟩)
  | .short (n + 1) :: rest, b :: bytes, (s, d) =>
    writeLoop name onFail onZero rest (bytes.drop n)
      (s, d.perform (.append name (b :: bytes.take n)))
  | .fail _ :: rest, _ :: _, (s, d) => .error (.exn onFail) (s, ⟨d, rest⟩)
  | .crash done :: rest, b :: bytes, (s, d) =>
    .error .crash (s, ⟨d.perform (.append name ((b :: bytes).take done)), rest⟩)

/-- Append all bytes to a file, through as many writes as the operating system asks for. -/
def writeAll (name : N) (bytes : List B) (onFail onZero : ε) : Act N B ε σ Unit := fun (s, w) ↦
  writeLoop name onFail onZero w.sched bytes (s, w.toDisk)

/-- Code that does no input or output. -/
def ofExcept (r : Except ε α) : Act N B ε σ α := fun s ↦
  match r with
  | .ok a => .ok a s
  | .error e => .error (.exn e) s

instance : MonadLift (Except ε) (EStateM (Stop ε) (σ × World N B)) := ⟨ofExcept⟩

/-- Run a program on a part of the state. -/
def zoom (part : σ → τ) (put : τ → σ → σ) (m : Act N B ε τ α) : Act N B ε σ α := fun (s, w) ↦
  match m (part s, w) with
  | .ok a (t, w) => .ok a (put t s, w)
  | .error e (t, w) => .error e (put t s, w)

/-- Catch any exception, change the state, and throw it again. -/
def onException (m : Act N B ε σ α) (handler : σ → σ) : Act N B ε σ α := fun s ↦
  match m s with
  | .ok a t => .ok a t
  | .error (.exn e) t => .error (.exn e) (handler t.1, t.2)
  | .error .crash t => .error .crash t

/-- Throw the exceptions of a program as other exceptions. -/
def rethrow {ε' : Type} (f : ε → ε') (m : Act N B ε σ α) : Act N B ε' σ α := fun s ↦
  match m s with
  | .ok a t => .ok a t
  | .error (.exn e) t => .error (.exn (f e)) t
  | .error .crash t => .error .crash t

/-- Throw an exception. -/
def throw (e : ε) : Act N B ε σ α := fun s ↦ .error (.exn e) s

/-- The state the program keeps. -/
def state : Act N B ε σ σ := fun s ↦ .ok s.1 s

/-- Change the state the program keeps. -/
def update (f : σ → σ) : Act N B ε σ Unit := fun s ↦ .ok () (f s.1, s.2)

theorem ofExcept_ok (a : α) : (ofExcept (.ok a) : Act N B ε σ α) = pure a := rfl

/-- An error without the disk is thrown. -/
theorem ofExcept_error (e : ε) : (ofExcept (.error e) : Act N B ε σ α) = throw e := rfl

/-- Nothing runs behind an exception. -/
theorem throw_bind (e : ε) (k : α → Act N B ε σ β) : throw e >>= k = throw e := rfl

end Act

/-! ### Schedules -/

/-- Some call of the schedule reports an error. -/
def Failing (sched : List Event) : Prop := ∃ e ∈ sched, e.fails = true

/-- Some call of the schedule ends the process. -/
def Crashing (sched : List Event) : Prop := ∃ e ∈ sched, e.crashes = true

/-- Without events nothing fails. -/
theorem not_failing_nil : ¬Failing [] := by simp [Failing]

/-- Without events nothing crashes. -/
theorem not_crashing_nil : ¬Crashing [] := by simp [Crashing]

/-- Taking an answer leaves a suffix of the schedule. -/
theorem settle_suffix (sched : List Event) : (settle sched).2 <:+ sched := by
  induction sched with
  | nil => exact List.suffix_refl _
  | cons e sched ih =>
    cases e with
    | interrupted => exact ih.trans (List.suffix_cons _ _)
    | _ => exact List.suffix_cons _ _

/-- The answer taken stands in the schedule, unless the schedule has run out. -/
theorem settle_mem (sched : List Event) : (settle sched).1 = .ok ∨ (settle sched).1 ∈ sched := by
  induction sched with
  | nil => exact Or.inl rfl
  | cons e sched ih =>
    cases e with
    | interrupted => exact ih.imp_right (List.mem_cons_of_mem _)
    | _ => exact Or.inr List.mem_cons_self

/-- A failure that is met is an event of the schedule. -/
theorem failing_of_settle {sched S : List Event} (h : sched <:+ S) {n : ℕ}
    (hn : (settle sched).1 = .fail n) : Failing S := by
  refine ⟨.fail n, h.subset ?_, rfl⟩
  rcases settle_mem sched with hok | hmem
  · rw [hok] at hn; simp at hn
  · rwa [hn] at hmem

/-- A crash that is met is an event of the schedule. -/
theorem crashing_of_settle {sched S : List Event} (h : sched <:+ S) {n : ℕ}
    (hn : (settle sched).1 = .crash n) : Crashing S := by
  refine ⟨.crash n, h.subset ?_, rfl⟩
  rcases settle_mem sched with hok | hmem
  · rw [hok] at hn; simp at hn
  · rwa [hn] at hmem

end FaultyDisk
