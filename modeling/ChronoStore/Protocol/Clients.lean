import ChronoStore.Engine.Database
import ChronoStore.Protocol.Refinement

/-!
# Concurrent clients

`Database::put` takes the lock of the engine up to three times: to put, to look at the size of the
table, and to flush it if it is too large. Other clients may come in between. This module describes
any number of clients that call one database, as an interleaving of what each does under one lock
(`Concurrent`), and proves that

* the store holds the puts in the order in which they took the lock, each once;
* when all clients have returned, the table is smaller than the threshold.

The second holds although neither the look nor the flush belongs to the put: a client that has put
is going to look, and a client that has looked and found the table too large is going to flush it.
So as long as the table is too large, some client is still on its way (`Service.Sound.bounded`).
-/

namespace ChronoStore

open FaultyDisk WriteHistory

/-! ### Clients -/

/-- Where a client is: between two calls, before the lock of a call that takes it once, or before
one of the three locks of `Database::put`. -/
inductive ClientPhase
  | idle
  | calling (r : Request)
  | putting (series : SeriesKey) (sample : Sample)
  | counting
  | flushing
deriving DecidableEq

namespace ClientPhase

/-- What a client does under one lock, and where it is then. -/
def advance (threshold : ℕ) : ClientPhase → Prog StorageEngine ClientPhase
  | .idle => return .idle
  | .calling r => do
    r.run
    return .idle
  | .putting series sample => do
    StorageEngine.put series sample
    return if threshold ≠ 0 then .counting else .idle
  | .counting => do
    let count ← StorageEngine.memtableSampleCount
    return if threshold ≤ count then .flushing else .idle
  | .flushing => do
    StorageEngine.flush
    return .idle

/-- How a call begins. A put goes through the three locks, every other call through one. -/
def Begins : ClientPhase → Prop
  | .calling r => r.puts = []
  | .putting _ _ => True
  | _ => False

/-- The put that takes the lock next. -/
def puts : ClientPhase → List WalPutRecord
  | .putting series sample => [⟨series, sample⟩]
  | _ => []

/-- The client has put, and has not returned. -/
def checks : ClientPhase → Bool
  | .counting => true
  | .flushing => true
  | _ => false

/-- The client is inside of `Database::put`. -/
def inPut : ClientPhase → Bool
  | .putting _ _ => true
  | p => p.checks

end ClientPhase

/-! ### One client alone -/

/-- A program of the database returns what a program of its engine returns, and keeps the threshold.
-/
def Lifts {α : Type} (threshold : ℕ) (m' : DatabaseProg Database α) (m : Prog StorageEngine α) :
    Prop :=
  ∀ (e e' : StorageEngine) (threshold' : ℕ) (w w' : World Bytes UInt8) (a : α),
    m' (⟨e, threshold⟩, w) = .ok a (⟨e', threshold'⟩, w') ↔
      threshold' = threshold ∧ m (e, w) = .ok a (e', w')

namespace Lifts

variable {α β : Type} {threshold : ℕ} {m' : DatabaseProg Database α} {m : Prog StorageEngine α}

/-- A member function of the engine, whose exceptions are translated, does what it does in the
engine. -/
theorem onEngine (f : Error → DatabaseError) (m : Prog StorageEngine α) :
    Lifts threshold (Database.onEngine (Act.rethrow f m)) m := by
  intro e e' threshold' w w' a
  simp only [Database.onEngine, Act.zoom, Act.rethrow]
  rcases m (e, w) with ⟨b, e₁, w₁⟩ | ⟨err | -, e₁, w₁⟩
  · constructor
    · intro h
      cases h
      exact ⟨rfl, rfl⟩
    · rintro ⟨rfl, h⟩
      cases h
      rfl
  · simp
  · simp

theorem pure (a : α) : Lifts threshold (Pure.pure a) (Pure.pure a) := by
  intro e e' threshold' w w' b
  constructor
  · intro h
    cases h
    exact ⟨rfl, rfl⟩
  · rintro ⟨rfl, h⟩
    cases h
    rfl

theorem bind {k' : α → DatabaseProg Database β} {k : α → Prog StorageEngine β}
    (hm : Lifts threshold m' m) (hk : ∀ a, Lifts threshold (k' a) (k a)) :
    Lifts threshold (m' >>= k') (m >>= k) := by
  intro e e' threshold' w w' b
  constructor
  · intro h
    obtain ⟨a, ⟨⟨e₁, t⟩, w₁⟩, hrun, hrest⟩ := bind_eq_ok_iff.1 h
    obtain ⟨rfl, hrun'⟩ := (hm _ _ _ _ _ _).1 hrun
    obtain ⟨rfl, hrest'⟩ := (hk a _ _ _ _ _ _).1 hrest
    exact ⟨rfl, bind_eq_ok_iff.2 ⟨a, (e₁, w₁), hrun', hrest'⟩⟩
  · rintro ⟨rfl, h⟩
    obtain ⟨a, ⟨e₁, w₁⟩, hrun, hrest⟩ := bind_eq_ok_iff.1 h
    exact bind_eq_ok_iff.2 ⟨a, (⟨e₁, threshold'⟩, w₁), (hm _ _ _ _ _ _).2 ⟨rfl, hrun⟩,
      (hk a _ _ _ _ _ _).2 ⟨rfl, hrest⟩⟩

theorem ite {c : Prop} [Decidable c] {m₁' m₂' : DatabaseProg Database α}
    {m₁ m₂ : Prog StorageEngine α} (h₁ : Lifts threshold m₁' m₁) (h₂ : Lifts threshold m₂' m₂) :
    Lifts threshold (if c then m₁' else m₂') (if c then m₁ else m₂) := by
  split
  · exact h₁
  · exact h₂

/-- The threshold is a constant. -/
theorem state_bind {k' : Database → DatabaseProg Database α}
    (h : ∀ e, Lifts threshold (k' ⟨e, threshold⟩) m) : Lifts threshold (Act.state >>= k') m :=
  fun e ↦ h e e

end Lifts

/-- The three locks of a client that puts. -/
theorem ClientPhase.advance_putting (threshold : ℕ) (series : SeriesKey) (sample : Sample) :
    (do
      let p ← (ClientPhase.putting series sample).advance threshold
      let p ← p.advance threshold
      let _ ← p.advance threshold : Prog StorageEngine Unit) = (do
      StorageEngine.put series sample
      if threshold ≠ 0 then do
        let count ← StorageEngine.memtableSampleCount
        if threshold ≤ count then StorageEngine.flush else pure ()
      else pure ()) := by
  simp only [advance, bind_assoc, pure_bind]
  congr 1
  funext _
  by_cases h : threshold ≠ 0
  · simp only [if_pos h, bind_assoc, pure_bind]
    congr 1
    funext count
    by_cases hcount : threshold ≤ count
    · simp only [if_pos hcount, bind_assoc, pure_bind, bind_pure_unit]
    · simp only [if_neg hcount, pure_bind]
  · simp only [if_neg h, pure_bind]

/-- **`Database::put`** is what a client does under its three locks, one after the other. -/
theorem Database.put_lifts (threshold : ℕ) (series : SeriesKey) (sample : Sample) :
    Lifts threshold (Database.put series sample) (do
      let p ← (ClientPhase.putting series sample).advance threshold
      let p ← p.advance threshold
      let _ ← p.advance threshold) := by
  rw [ClientPhase.advance_putting]
  refine (Lifts.onEngine _ _).bind fun _ ↦ Lifts.state_bind fun _ ↦ ?_
  refine Lifts.ite ((Lifts.onEngine _ _).bind fun count ↦ ?_) (Lifts.pure ())
  exact Lifts.ite (Lifts.onEngine _ _) (Lifts.pure ())

/-! ### Any number of clients -/

/-- The engine and the disk that the clients share, where each client is, the puts in the order in
which they took the lock, and how many calls of `Database::put` have returned. -/
structure Service (ι : Type) where
  engine : StorageEngine
  disk : Disk Bytes UInt8
  phase : ι → ClientPhase
  puts : List WalPutRecord
  completed : ℕ

namespace Service

variable {ι : Type} [DecidableEq ι]

/-- Client `i` is somewhere else. -/
def moved (v : Service ι) (i : ι) (p : ClientPhase) : Service ι :=
  { v with phase := Function.update v.phase i p }

/-- Client `i` has done what it does under one lock. -/
def advanced (v : Service ι) (i : ι) (p : ClientPhase) (e : StorageEngine) (d : Disk Bytes UInt8) :
    Service ι where
  engine := e
  disk := d
  phase := Function.update v.phase i p
  puts := v.puts ++ (v.phase i).puts
  completed := match p with
    | .idle => if (v.phase i).inPut then v.completed + 1 else v.completed
    | _ => v.completed

variable {v : Service ι} {i j : ι} {p : ClientPhase} {e : StorageEngine} {d : Disk Bytes UInt8}

@[simp] theorem phase_moved_self : (v.moved i p).phase i = p := Function.update_self ..

theorem phase_moved_of_ne (h : j ≠ i) : (v.moved i p).phase j = v.phase j :=
  Function.update_of_ne h ..

@[simp] theorem phase_advanced_self : (v.advanced i p e d).phase i = p := Function.update_self ..

theorem phase_advanced_of_ne (h : j ≠ i) : (v.advanced i p e d).phase j = v.phase j :=
  Function.update_of_ne h ..

end Service

/-- **The interleavings** of the clients of an engine: in every step some client begins a call, or
does what it does under one lock. No step fails. -/
inductive Concurrent {ι : Type} [DecidableEq ι] (threshold : ℕ) (e : StorageEngine)
    (d : Disk Bytes UInt8) :
    Service ι → Prop
  | start : Concurrent threshold e d ⟨e, d, fun _ ↦ .idle, [], 0⟩
  | begin {v : Service ι} (i : ι) {p : ClientPhase} : Concurrent threshold e d v →
    v.phase i = .idle → p.Begins → Concurrent threshold e d (v.moved i p)
  | advance {v : Service ι} (i : ι) {sched : List Event} {p : ClientPhase} {e' : StorageEngine}
    {w : World Bytes UInt8} : Concurrent threshold e d v →
    (v.phase i).advance threshold (v.engine, ⟨v.disk, sched⟩) = .ok p (e', w) →
      Concurrent threshold e d (v.advanced i p e' w.toDisk)

/-! ### Interleavings, computed -/

/-- A step of a client: it begins a call, or does what it does under one lock. -/
inductive Turn (ι : Type)
  | begin (i : ι) (p : ClientPhase)
  | advance (i : ι) (sched : List Event)

instance : DecidablePred ClientPhase.Begins := fun p ↦ by
  cases p <;> unfold ClientPhase.Begins <;> infer_instance

section Turns

variable {ι : Type} [DecidableEq ι] {threshold : ℕ} {e : StorageEngine} {d : Disk Bytes UInt8}
  {v v' : Service ι}

/-- Take a step, if the client can take it and it does not fail. -/
def Service.turn (threshold : ℕ) (v : Service ι) : Turn ι → Option (Service ι)
  | .begin i p => if v.phase i = .idle ∧ p.Begins then some (v.moved i p) else none
  | .advance i sched =>
    match (v.phase i).advance threshold (v.engine, ⟨v.disk, sched⟩) with
    | .ok p (e, w) => some (v.advanced i p e w.toDisk)
    | .error _ _ => none

/-- A turn that can be taken is a step of the service. -/
theorem Concurrent.turn {t : Turn ι} (h : Concurrent threshold e d v)
    (ht : v.turn threshold t = some v') : Concurrent threshold e d v' := by
  cases t with
  | begin i p =>
    rw [Service.turn] at ht
    split at ht
    · rename_i hbegins
      exact Option.some.inj ht ▸ h.begin i hbegins.1 hbegins.2
    · cases ht
  | advance i sched =>
    rw [Service.turn] at ht
    split at ht
    · rename_i hrun
      exact Option.some.inj ht ▸ h.advance i hrun
    · cases ht

/-- **A computed interleaving** is an interleaving. -/
theorem Concurrent.turns {turns : List (Turn ι)} (h : Concurrent threshold e d v)
    (hturns : turns.foldlM (Service.turn threshold) v = some v') : Concurrent threshold e d v' := by
  induction turns generalizing v with
  | nil => exact Option.some.inj hturns ▸ h
  | cons t turns ih =>
    rw [List.foldlM_cons, Option.bind_eq_bind, Option.bind_eq_some_iff] at hturns
    obtain ⟨next, ht, hrest⟩ := hturns
    exact ih (h.turn ht) hrest

end Turns

/-! ### What a client does under one lock -/

section Advance

variable {o : Origin} {S : List Event} {puts : List WalPutRecord} {threshold : ℕ}
  {durability : WalDurability}

/-- A call that is not a put leaves the table as it is, or empties it. -/
theorem spec_request_memtable (e₀ : StorageEngine) {r : Request} (hr : r.puts = []) :
    Spec S (fun e d ↦ e = e₀ ∧ Usable o puts 0 durability e d) r.run
      (fun _ e d ↦ (e.memtable = e₀.memtable ∨ e.memtable.isEmpty = true) ∧
        Usable o puts 0 durability e d)
      (fun _ _ _ ↦ True) (fun _ ↦ True) := by
  have hquery : r.writes = false → Spec S (fun e d ↦ e = e₀ ∧ Usable o puts 0 durability e d) r.run
      (fun _ e d ↦ (e.memtable = e₀.memtable ∨ e.memtable.isEmpty = true) ∧
        Usable o puts 0 durability e d) (fun _ _ _ ↦ True) (fun _ ↦ True) := by
    intro hr
    refine ((Request.quiet hr).spec _).conseq (fun _ _ ↦ id) ?_ (fun _ _ _ _ ↦ trivial)
      fun _ _ ↦ trivial
    rintro _ e d ⟨rfl, h⟩
    exact ⟨Or.inl rfl, h⟩
  cases r with
  | put series sample => cases hr
  | sync =>
    refine (spec_sync (R := fun _ ↦ False) e₀).conseq (fun _ _ ↦ id) ?_ (fun _ _ _ _ ↦ trivial)
      fun _ _ ↦ trivial
    rintro _ e d ⟨hsame, h⟩
    exact ⟨Or.inl hsame.memtable_eq, h.mono (Nat.zero_le _)⟩
  | flush =>
    refine (spec_flush e₀).conseq (fun _ _ ↦ id) ?_ (fun _ _ _ _ ↦ trivial) fun _ _ ↦ trivial
    rintro _ e d ⟨-, hempty, h⟩
    exact ⟨Or.inr hempty, h.mono (Nat.zero_le _)⟩
  | compact =>
    refine (spec_compact e₀).conseq (fun _ _ ↦ id) ?_ (fun _ _ _ _ ↦ trivial) fun _ _ ↦ trivial
    rintro _ e d ⟨hmem, h⟩
    exact ⟨Or.inl hmem, h⟩
  | _ => exact hquery rfl

/-- How a client goes on: it is not before a call again, it checks only inside of a put, and either
it goes on to check, or the table is small enough, or nothing was put and the table is what it was.
-/
structure ClientPhase.GoesOn (threshold : ℕ) (p p' : ClientPhase) (before after : MemTable) :
    Prop where
  not_calling : ∀ r, p' ≠ .calling r
  inPut : p'.checks = true → p.inPut = true
  bounded : threshold ≠ 0 → p'.checks = true ∨ after.sampleCount < threshold ∨
    p.checks = false ∧ p.puts = [] ∧ after = before

/-- **Under one lock** the puts grow by the put of the client. -/
theorem spec_advance (e₀ : StorageEngine) (p : ClientPhase)
    (hp : ∀ r, p = .calling r → r.puts = []) :
    Spec S (fun e d ↦ e = e₀ ∧ Usable o puts 0 durability e d) (p.advance threshold)
      (fun p' e d ↦ p.GoesOn threshold p' e₀.memtable e.memtable ∧
        Usable o (puts ++ p.puts) 0 durability e d)
      (fun _ _ _ ↦ True) (fun _ ↦ True) := by
  have hsmall : ∀ {m : MemTable}, m.isEmpty = true → threshold ≠ 0 → m.sampleCount < threshold := by
    intro m hm hne
    rw [MemTable.isEmpty, decide_eq_true_eq] at hm
    omega
  have hnone : ∀ {p : ClientPhase}, p.puts = [] → puts ++ p.puts = puts := by
    intro p hp
    rw [hp, List.append_nil]
  cases p with
  | idle =>
    refine Spec.pure ?_
    rintro e d ⟨rfl, h⟩
    exact ⟨⟨by simp, by simp [ClientPhase.checks], fun _ ↦ Or.inr (Or.inr ⟨rfl, rfl, rfl⟩)⟩,
      by rwa [hnone rfl]⟩
  | calling r =>
    refine Spec.bind (spec_request_memtable e₀ (hp r rfl)) fun _ ↦ Spec.pure ?_
    rintro e d ⟨hmem, h⟩
    refine ⟨⟨by simp, by simp [ClientPhase.checks], fun hne ↦ ?_⟩, by rwa [hnone rfl]⟩
    rcases hmem with hmem | hempty
    · exact Or.inr (Or.inr ⟨rfl, rfl, hmem⟩)
    · exact Or.inr (Or.inl (hsmall hempty hne))
  | putting series sample =>
    refine Spec.bind ((spec_put e₀ series sample).conseq (fun _ _ ↦ id) (fun _ _ _ ↦ id)
      (fun _ _ _ _ ↦ trivial) fun _ _ ↦ trivial) fun _ ↦ Spec.pure ?_
    rintro e d ⟨-, -, h⟩
    refine ⟨⟨fun r ↦ ?_, fun _ ↦ rfl, fun hne ↦ Or.inl ?_⟩, h.mono (Nat.zero_le _)⟩
    · split <;> simp
    · rw [if_pos hne]
      rfl
  | counting =>
    refine Spec.bind (Q := fun count e d ↦ count = e₀.memtable.sampleCount ∧ e = e₀ ∧
      Usable o puts 0 durability e d) ?_ fun count ↦ Spec.pure ?_
    · refine Spec.bind ((quiet_ensureUsable.spec _).conseq (fun _ _ ↦ id) (fun _ _ _ ↦ id)
        (fun _ _ _ _ ↦ trivial) fun _ _ ↦ trivial) fun _ ↦ ?_
      refine Spec.bind (Spec.state (R := fun e e' d ↦ e = e₀ ∧ e' = e₀ ∧
        Usable o puts 0 durability e' d)
        fun e d h ↦ ⟨h.1, h⟩) fun e ↦ Spec.assume fun he ↦ Spec.pure fun e' d h ↦ ⟨by rw [he], h⟩
    · rintro e d ⟨rfl, rfl, h⟩
      refine ⟨⟨fun r ↦ ?_, fun _ ↦ rfl, fun _ ↦ ?_⟩, by rwa [hnone rfl]⟩
      · split <;> simp
      · by_cases hcount : threshold ≤ e.memtable.sampleCount
        · rw [if_pos hcount]
          exact Or.inl rfl
        · exact Or.inr (Or.inl (not_le.1 hcount))
  | flushing =>
    refine Spec.bind ((spec_flush e₀).conseq (fun _ _ ↦ id) (fun _ _ _ ↦ id)
      (fun _ _ _ _ ↦ trivial) fun _ _ ↦ trivial) fun _ ↦ Spec.pure ?_
    rintro e d ⟨-, hempty, h⟩
    exact ⟨⟨by simp, by simp [ClientPhase.checks], fun hne ↦ Or.inr (Or.inl (hsmall hempty hne))⟩,
      by rw [hnone rfl]; exact h.mono (Nat.zero_le _)⟩

end Advance

/-! ### All interleavings -/

section Interleavings

variable {ι : Type} [DecidableEq ι] {o : Origin} {threshold : ℕ} {durability : WalDurability}
  {before : List WalPutRecord} {v : Service ι}

/-- What holds of the clients at every step. -/
structure Service.Sound (o : Origin) (threshold : ℕ) (durability : WalDurability)
    (before : List WalPutRecord) (v : Service ι) : Prop where
  usable : Usable o (before ++ v.puts) 0 durability v.engine v.disk
  calls : ∀ i r, v.phase i = .calling r → r.puts = []
  /-- Who has put has put something. -/
  begun : (0 < v.completed ∨ ∃ i, (v.phase i).checks = true) → v.puts ≠ []
  /-- A table that is too large is going to be looked at. -/
  bounded : threshold ≠ 0 →
    v.puts = [] ∨ v.engine.memtable.sampleCount < threshold ∨ ∃ i, (v.phase i).checks = true

/-- Beginning a call changes nothing that matters. -/
theorem Service.Sound.moved (h : v.Sound o threshold durability before) {i : ι}
    (hidle : v.phase i = .idle) {p : ClientPhase} (hp : p.Begins) :
    (v.moved i p).Sound o threshold durability before := by
  have hchecks : ∀ j, ((v.moved i p).phase j).checks = (v.phase j).checks := by
    intro j
    by_cases hj : j = i
    · subst hj
      rw [Service.phase_moved_self, hidle]
      cases p with
      | counting | flushing => exact hp.elim
      | _ => rfl
    · rw [Service.phase_moved_of_ne hj]
  refine ⟨h.usable, fun j r hj ↦ ?_, ?_, ?_⟩
  · by_cases hji : j = i
    · subst hji
      rw [Service.phase_moved_self] at hj
      subst hj
      exact hp
    · rw [Service.phase_moved_of_ne hji] at hj
      exact h.calls j r hj
  · simp only [hchecks]
    exact h.begun
  · simp only [hchecks]
    exact h.bounded

/-- **One lock** keeps the clients sound. -/
theorem Service.Sound.advanced (h : v.Sound o threshold durability before) {i : ι}
    {sched : List Event} {p : ClientPhase} {e : StorageEngine} {w : World Bytes UInt8}
    (hrun : (v.phase i).advance threshold (v.engine, ⟨v.disk, sched⟩) = .ok p (e, w)) :
    (v.advanced i p e w.toDisk).Sound o threshold durability before := by
  obtain ⟨hgoes, husable⟩ := (spec_advance (S := sched) v.engine (v.phase i)
    (h.calls i)).of_ok (w := ⟨v.disk, sched⟩) ⟨rfl, h.usable⟩ hrun
  -- whoever is inside of a put has put
  have hput : (v.phase i).inPut = true → v.puts ++ (v.phase i).puts ≠ [] := by
    intro hin
    cases hphase : v.phase i with
    | putting series sample => simp [ClientPhase.puts]
    | counting | flushing =>
      have := h.begun (Or.inr ⟨i, by rw [hphase]; rfl⟩)
      simpa [ClientPhase.puts] using this
    | idle | calling r =>
      rw [hphase] at hin
      cases hin
  refine ⟨by rwa [List.append_assoc] at husable, fun j r hj ↦ ?_, fun hbegun ↦ ?_, fun hne ↦ ?_⟩
  · by_cases hji : j = i
    · subst hji
      rw [Service.phase_advanced_self] at hj
      exact absurd hj (hgoes.not_calling r)
    · rw [Service.phase_advanced_of_ne hji] at hj
      exact h.calls j r hj
  · by_cases hin : (v.phase i).inPut = true
    · exact hput hin
    · refine List.append_ne_nil_of_left_ne_nil (h.begun ?_) _
      refine hbegun.imp (fun hcompleted ↦ ?_) fun ⟨j, hj⟩ ↦ ⟨j, ?_⟩
      · cases p <;> simpa [Service.advanced, hin] using hcompleted
      · by_cases hji : j = i
        · subst hji
          rw [Service.phase_advanced_self] at hj
          exact absurd (hgoes.inPut hj) hin
        · rwa [Service.phase_advanced_of_ne hji] at hj
  · rcases hgoes.bounded hne with hchecks | hsmall | ⟨hnot, hnone, hmem⟩
    · exact Or.inr (Or.inr ⟨i, by rwa [Service.phase_advanced_self]⟩)
    · exact Or.inr (Or.inl hsmall)
    · rcases h.bounded hne with hempty | hsmall | ⟨j, hj⟩
      · exact Or.inl (List.append_eq_nil_iff.2 ⟨hempty, hnone⟩)
      · exact Or.inr (Or.inl (hmem ▸ hsmall))
      · have hji : j ≠ i := by
          rintro rfl
          rw [hnot] at hj
          cases hj
        exact Or.inr (Or.inr ⟨j, by rwa [Service.phase_advanced_of_ne hji]⟩)

/-- **Every interleaving** keeps the clients sound. -/
theorem Concurrent.sound {e : StorageEngine} {d : Disk Bytes UInt8}
    (h : Usable o before 0 durability e d) (hv : Concurrent threshold e d v) :
    v.Sound o threshold durability before := by
  induction hv with
  | start =>
    exact ⟨by rwa [List.append_nil], by simp, by simp [ClientPhase.checks], fun _ ↦ Or.inl rfl⟩
  | begin i _ hidle hp ih => exact ih.moved hidle hp
  | advance i _ hrun ih => exact ih.advanced hrun

end Interleavings

/-- **Concurrent clients.** Let any number of clients call a database that has been opened, with any
interleaving of what they do under the lock, in which no step fails. At every step the store holds
the puts in the order in which they took the lock, each once, after what it held before; and
whenever no client is inside of a call and some put has returned, the table is smaller than the
threshold. -/
theorem concurrent_puts {f : Directory} (hf : Fresh f) {history : List Entry} {m : Machine}
    (h : Session f history m) {e : StorageEngine} (he : m.engine = some e)
    (hfailed : e.failed = false) :
    ∃ before, Answers e m.disk (historyOf before) ∧
      ∀ (ι : Type) [DecidableEq ι] (threshold : ℕ) (v : Service ι),
      Concurrent threshold e m.disk v →
        Answers v.engine v.disk (historyOf (before ++ v.puts)) ∧
          (threshold ≠ 0 → (∀ i, v.phase i = .idle) → 0 < v.completed →
            v.engine.memtable.sampleCount < threshold) := by
  obtain ⟨before, durability, husable⟩ := h.usable hf he hfailed
  refine ⟨_, husable.answers, fun ι _ threshold v hv ↦ ?_⟩
  have hsound := hv.sound husable
  refine ⟨hsound.usable.answers, fun hne hidle hcompleted ↦ ?_⟩
  rcases hsound.bounded hne with hnone | hsmall | ⟨i, hi⟩
  · exact absurd hnone (hsound.begun (Or.inl hcompleted))
  · exact hsmall
  · rw [hidle i] at hi
    cases hi

/-- Two clients whose puts meet: both find that the threshold is reached and flush, the second an
empty table, and then the first puts again. -/
def meetingPuts : List (Turn (Fin 2)) :=
  [.begin 0 (.putting cpuRecord.series cpuRecord.sample),
    .begin 1 (.putting laterRecord.series laterRecord.sample),
    .advance 1 [], .advance 0 [], .advance 0 [], .advance 1 [], .advance 0 [], .advance 1 [],
    .begin 0 (.putting ioRecord.series ioRecord.sample), .advance 0 [], .advance 0 []]

/-- Two clients whose puts meet at the flush of the one: every put is there, and one segment. -/
theorem concurrent_puts_meetingPuts : ∃ m e, Session OrderedMap.empty [openCall] m ∧
    m.engine = some e ∧ ∃ v : Service (Fin 2), Concurrent 2 e m.disk v ∧
      v.puts = [laterRecord, cpuRecord, ioRecord] ∧ v.engine.segments.length = 1 ∧
      (∀ i, v.phase i = .idle) ∧ v.completed = 3 ∧ v.engine.memtable.sampleCount < 2 := by
  obtain ⟨m, h, hend⟩ := @exists_session OrderedMap.empty [openCall] (fun m ↦ m.engine.any fun e ↦
    e.failed = false ∧ (meetingPuts.foldlM (Service.turn 2) ⟨e, m.disk, fun _ ↦ .idle, [], 0⟩).any
      fun v ↦ v.puts = [laterRecord, cpuRecord, ioRecord] ∧ v.engine.segments.length = 1 ∧
        (∀ i, v.phase i = .idle) ∧ v.completed = 3) (by decide +kernel)
  obtain ⟨e, he, hend⟩ := (Option.any_eq_true _ _).1 hend
  obtain ⟨hfailed, hend⟩ := of_decide_eq_true hend
  obtain ⟨v, hturns, hend⟩ := (Option.any_eq_true _ _).1 hend
  obtain ⟨hputs, hsegments, hidle, hcompleted⟩ := of_decide_eq_true hend
  have hrun : Concurrent 2 e m.disk v := Concurrent.start.turns hturns
  obtain ⟨before, -, hall⟩ := concurrent_puts fresh_empty h he hfailed
  exact ⟨m, e, h, he, v, hrun, hputs, hsegments, hidle, hcompleted,
    (hall (Fin 2) 2 v hrun).2 (by decide) hidle (by omega)⟩

end ChronoStore
