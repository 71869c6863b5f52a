import ChronoStore.Protocol.Exceptions
import ChronoStore.Protocol.Linearization

/-!
# What the counters say

`Database::stats` shows how a store is laid out: how many samples are in the table, how many
segments there are, how long the log is. Where nothing fails, all of it follows from the calls by a
machine of three registers (`Accounts`): the puts, those of them that are in the log, and the number
of segments. The machine has no files and no recovery; `DatabaseRun` is what the code does, on a
directory, with any reopening in between and any answers of the operating system that let the calls
return.

* `answers_exact`: every answer of every run is the one the machine gives.
* `accounts_of_distinct`: the automatic flush cuts a stream of distinct puts into segments of
  exactly as many samples as the threshold says.
-/

namespace ChronoStore

open FaultyDisk WriteHistory

/-! ### The machine -/

/-- The puts, those that are in the log and in the table, and the number of segments. -/
@[ext]
structure Accounts where
  puts : List WalPutRecord
  pending : List WalPutRecord
  segments : ℕ

namespace Accounts

/-- A new store. -/
def new : Accounts := ⟨[], [], 0⟩

def flush (l : Accounts) : Accounts :=
  if l.pending = [] then l else { l with pending := [], segments := l.segments + 1 }

def compact (l : Accounts) : Accounts := { l with segments := min l.segments 1 }

def record (l : Accounts) (r : WalPutRecord) : Accounts :=
  { l with puts := l.puts ++ [r], pending := l.pending ++ [r] }

/-- The number of samples in the table. -/
def tableSize (l : Accounts) : ℕ := (keys (historyOf l.pending)).card

/-- A put flushes a table that it has filled. -/
def put (threshold : ℕ) (l : Accounts) (r : WalPutRecord) : Accounts :=
  if threshold ≠ 0 ∧ threshold ≤ (l.record r).tableSize then (l.record r).flush else l.record r

/-- The machine after a request. -/
def after (threshold : ℕ) (l : Accounts) : Request → Accounts
  | .put series sample => l.put threshold ⟨series, sample⟩
  | .flush => l.flush
  | .compact => l.compact
  | _ => l

/-- The answer to a request. -/
def Allows (l : Accounts) : Request → Response → Prop
  | .memtableSampleCount, a => a = .count l.tableSize
  | .segmentCount, a => a = .count l.segments
  | .walSizeBytes, a => a = .count (walBytes l.pending).length
  | .stats, a => a = .stats ⟨(keys (historyOf l.puts)).card, l.tableSize, l.segments,
      (walBytes l.pending).length⟩
  | r, a => r.Allows (historyOf l.puts) a

theorem puts_flush (l : Accounts) : l.flush.puts = l.puts := by
  rw [flush]
  split <;> rfl

end Accounts

/-! ### What the operations make of the engine -/

section Engine

variable {w₀ : WalWriter} {e₀ : StorageEngine}

theorem makes_walSync : Makes (fun w ↦ w = w₀) WalWriter.sync fun _ w ↦ w = w₀ :=
  (Makes.of_quiet quiet_walUsable _).bind fun _ ↦ Makes.onException (Makes.step _ _ _)

/-- An append adds the length of the record to the size. -/
theorem makes_append (r : WalPutRecord) : Makes (fun w ↦ w = w₀) (WalWriter.append r)
    fun _ w ↦ w = { w₀ with sizeBytes := w₀.sizeBytes + (walFrame r).length } := by
  refine (Makes.of_quiet quiet_walUsable _).bind fun _ ↦ ?_
  by_cases hacc : WalAccepts r
  · rw [encodeWalRecord_of_accepts hacc, Act.ofExcept_ok, pure_bind]
    refine Makes.state.bind fun w ↦ Makes.assume fun hw ↦ ?_
    subst hw
    refine Makes.ite (fun _ ↦ Makes.throw _) fun _ ↦ Makes.onException ?_
    refine (Makes.writeAll _ _ _ _ _).bind fun _ ↦ ?_
    refine (Makes.update (R := fun _ w' ↦
      w' = { w with sizeBytes := w.sizeBytes + (walFrame r).length }) ?_).bind fun _ ↦ ?_
    · rintro w' rfl
      rfl
    · refine Makes.state.bind fun w' ↦ Makes.assume fun _ ↦ ?_
      exact Makes.ite (fun _ ↦ makes_walSync) fun _ ↦ Makes.pure fun _ h ↦ h
  · obtain ⟨what, herr⟩ := encodeWalRecord_of_not_accepts hacc
    rw [herr, Act.ofExcept_error, Act.throw_bind]
    exact Makes.throw _

/-- A reset sets the size to zero. -/
theorem makes_reset : Makes (fun w ↦ w = w₀) WalWriter.reset
    fun _ w ↦ w = { w₀ with sizeBytes := 0 } := by
  refine (Makes.of_quiet quiet_walUsable _).bind fun _ ↦ ?_
  refine (Makes.onException ((Makes.step _ _ _).bind fun _ ↦ Makes.step _ _ _)).bind fun _ ↦ ?_
  exact Makes.update fun w hw ↦ by rw [hw]

/-- A member function of the writer. -/
theorem makes_onWriter {m : Prog WalWriter Unit} {f : WalWriter → WalWriter}
    (h : ∀ w₀, Makes (fun w ↦ w = w₀) m fun _ w ↦ w = f w₀) : Makes (fun e ↦ e = e₀)
      (StorageEngine.onWriter m) fun _ e ↦ e = { e₀ with walWriter := f e₀.walWriter } :=
  Makes.zoom (h e₀.walWriter) fun _ w hw ↦ by rw [hw]

theorem makes_syncEngine : Makes (fun e ↦ e = e₀)
    (StorageEngine.guarded (StorageEngine.onWriter WalWriter.sync)) fun _ e ↦ e = e₀ :=
  Makes.onException (makes_onWriter (f := id) fun _ ↦ makes_walSync)

/-- A query of the engine alone. -/
theorem makes_look {α : Type} (f : StorageEngine → α) : Makes (fun e ↦ e = e₀) (do
    StorageEngine.ensureUsable
    return f (← Act.state)) fun a e ↦ a = f e₀ ∧ e = e₀ :=
  (Makes.of_quiet quiet_ensureUsable _).bind fun _ ↦
    Makes.state.bind fun e ↦ Makes.assume fun he ↦ Makes.pure fun _ h ↦ ⟨by rw [he], h⟩

/-- The numbers of `stats` are those of the engine. -/
theorem makes_stats : Makes (fun e ↦ e = e₀) StorageEngine.stats fun a e ↦
    a = ⟨e₀.logicalSampleCount, e₀.memtable.sampleCount, e₀.segments.length,
      e₀.walWriter.sizeBytes⟩ ∧
      e = e₀ := by
  refine (Makes.of_quiet quiet_ensureUsable _).bind fun _ ↦ ?_
  refine Makes.state.bind fun e ↦ Makes.assume fun he ↦ ?_
  refine Makes.ite (fun _ ↦ Makes.throw _) fun _ ↦ Makes.pure fun _ h ↦ ?_
  rw [he]
  exact ⟨rfl, h⟩

/-- What a put makes of table, segments and log. -/
theorem makes_put (series : SeriesKey) (sample : Sample) : Makes (fun e ↦ e = e₀)
    (StorageEngine.put series sample) fun _ e ↦ e.memtable = e₀.memtable.put series sample ∧
      e.segments = e₀.segments ∧
        e.walWriter.sizeBytes = e₀.walWriter.sizeBytes + (walFrame ⟨series, sample⟩).length := by
  refine (Makes.of_quiet quiet_ensureUsable _).bind fun _ ↦ ?_
  refine (Makes.of_quiet (quiet_contains _ _) _).bind fun found ↦ ?_
  refine Makes.onException ?_
  refine (makes_onWriter fun w₀ ↦ makes_append ⟨series, sample⟩).bind fun _ ↦ ?_
  refine (Makes.update (R := fun _ e ↦ e.memtable = e₀.memtable.put series sample ∧
    e.segments = e₀.segments ∧ e.walWriter.sizeBytes =
      e₀.walWriter.sizeBytes + (walFrame ⟨series, sample⟩).length) ?_).bind fun _ ↦ ?_
  · rintro e rfl
    exact ⟨rfl, rfl, rfl⟩
  · exact Makes.ite (fun _ ↦ Makes.pure fun _ h ↦ h) fun _ ↦ Makes.update fun _ h ↦ h

/-- Writing a file makes nothing of the engine. -/
theorem makes_atomicWriteFile {σ : Type} (name bytes : Bytes) (A : σ → Prop) :
    Makes A (atomicWriteFile name bytes : Prog σ Unit) fun _ ↦ A := by
  have hprobe : ∀ what, Makes A (Act.probe what : Prog σ Unit) fun _ ↦ A := fun what ↦
    Makes.of_quiet (Quiet.probe _) _
  have hsync : ∀ name, Makes A (syncFile name : Prog σ Unit) fun _ ↦ A := by
    intro name
    refine (hprobe _).bind fun _ ↦ ?_
    exact (Makes.step _ _ _).bind fun _ ↦ hprobe _
  have hreplace : ∀ temporary final,
      Makes A (replaceFile temporary final : Prog σ Unit) fun _ ↦ A := by
    intro temporary final
    refine (Makes.step _ _ _).bind fun _ ↦ ?_
    refine (hprobe _).bind fun _ ↦ ?_
    exact (Makes.step _ _ _).bind fun _ ↦ hprobe _
  refine (Makes.step _ _ _).bind fun _ ↦ ?_
  refine Makes.ite (fun _ ↦ Makes.throw _) fun _ ↦ ?_
  refine (Makes.writeAll _ _ _ _ _).bind fun _ ↦ ?_
  exact (hsync _).bind fun _ ↦ hreplace _ _

theorem makes_writeSegmentFile {σ : Type} (name : Bytes) (blocks : List SegmentBlock)
    (A : σ → Prop) :
    Makes A (writeSegmentFile name blocks : Prog σ SegmentFileMetadata) fun _ ↦ A :=
  (Makes.of_quiet (Quiet.ofExcept _) A).bind fun _ ↦ (makes_atomicWriteFile _ _ A).bind fun _ ↦
    Makes.of_quiet (Quiet.pure _) A

theorem makes_storeManifest {σ : Type} (state : ManifestState) (A : σ → Prop) :
    Makes A (storeManifest state : Prog σ Unit) fun _ ↦ A :=
  (Makes.of_quiet (Quiet.ofExcept _) A).bind fun _ ↦ makes_atomicWriteFile _ _ A

/-- A flush of an empty table makes nothing of the engine. -/
theorem makes_flush_of_isEmpty (hempty : e₀.memtable.isEmpty = true) :
    Makes (fun e ↦ e = e₀) StorageEngine.flush fun _ e ↦ e = e₀ := by
  refine (Makes.of_quiet quiet_ensureUsable _).bind fun _ ↦ ?_
  refine Makes.state.bind fun e ↦ Makes.assume fun he ↦ ?_
  rw [he, if_pos hempty]
  exact makes_syncEngine

/-- What a flush makes of table, segments and log. -/
theorem makes_flush (hfull : e₀.memtable.isEmpty = false) :
    Makes (fun e ↦ e = e₀) StorageEngine.flush fun _ e ↦ e.memtable = .empty ∧
      e.segments.length = e₀.segments.length + 1 ∧ e.walWriter.sizeBytes = 0 := by
  refine (Makes.of_quiet quiet_ensureUsable _).bind fun _ ↦ ?_
  refine Makes.state.bind fun e ↦ Makes.assume fun he ↦ ?_
  rw [he, hfull, if_neg (by simp)]
  refine Makes.onException ?_
  refine Makes.state.bind fun e ↦ Makes.assume fun he ↦ ?_
  subst he
  refine (Makes.of_quiet (Quiet.ofExcept _) _).bind fun blocks ↦ ?_
  refine (Makes.of_quiet (Quiet.ofExcept _) _).bind fun filename ↦ ?_
  refine (makes_writeSegmentFile _ _ _).bind fun _ ↦ ?_
  refine (Makes.of_quiet (quiet_openSegment _) _).bind fun reader ↦ ?_
  refine (makes_storeManifest _ _).bind fun _ ↦ ?_
  -- the engine has its new segment, and then the log is emptied
  refine Makes.bind (Makes.update (R := fun _ e' ↦
    ∃ next, e' = { e with segments := e.segments ++ [reader], manifest := next }) ?_) fun _ ↦ ?_
  · rintro e' rfl
    exact ⟨_, rfl⟩
  · refine Makes.exists_pre fun next ↦ ?_
    refine (makes_onWriter fun _ ↦ makes_reset).bind fun _ ↦ Makes.update ?_
    rintro e' rfl
    exact ⟨rfl, by simp, rfl⟩

/-- What a compaction makes of table, segments and log: nothing, if there are few segments. -/
theorem makes_compact : Makes (fun e ↦ e = e₀) StorageEngine.compact fun _ e ↦
    e.memtable = e₀.memtable ∧ e.segments.length = min e₀.segments.length 1 ∧
      e.walWriter.sizeBytes = e₀.walWriter.sizeBytes := by
  refine (Makes.of_quiet quiet_ensureUsable _).bind fun _ ↦ ?_
  refine Makes.state.bind fun e ↦ Makes.assume fun he ↦ ?_
  subst he
  refine Makes.ite (fun hfew ↦ Makes.pure ?_) fun hmany ↦ Makes.onException ?_
  · rintro e' rfl
    exact ⟨rfl, by omega, rfl⟩
  refine Makes.state.bind fun e' ↦ Makes.assume fun he ↦ ?_
  subst he
  refine (Makes.of_quiet (quiet_mergeSegments _) _).bind fun merged ↦ ?_
  refine Makes.ite (fun _ ↦ Makes.throw _) fun _ ↦ ?_
  refine (Makes.of_quiet (Quiet.ofExcept _) _).bind fun blocks ↦ ?_
  refine (Makes.of_quiet (Quiet.ofExcept _) _).bind fun filename ↦ ?_
  refine (makes_writeSegmentFile _ _ _).bind fun _ ↦ ?_
  refine (Makes.of_quiet (quiet_openSegment _) _).bind fun reader ↦ ?_
  refine (makes_storeManifest _ _).bind fun _ ↦ ?_
  refine (Makes.update ?_).bind fun _ ↦ Makes.forM fun _ _ ↦ Makes.tryStep _ _
  rintro e rfl
  exact ⟨rfl, by show 1 = _; omega, rfl⟩

end Engine

/-! ### The engine shows the accounts -/

/-- Table, segments and log of the engine are as the accounts say. -/
structure Accounts.Shown (l : Accounts) (e : StorageEngine) : Prop where
  memtable_eq : e.memtable = .ofRecords l.pending
  length_segments : e.segments.length = l.segments
  sizeBytes_eq : e.walWriter.sizeBytes = (walBytes l.pending).length

/-- The engine is usable, and shows the accounts. -/
def Accounts.Held (l : Accounts) (o : Origin) (durability : WalDurability) (e : StorageEngine)
    (d : Disk Bytes UInt8) : Prop :=
  Usable o l.puts 0 durability e d ∧ l.Shown e

section Held

variable {o : Origin} {S : List Event} {durability : WalDurability} {l l' : Accounts}
  {e : StorageEngine} {d : Disk Bytes UInt8} {threshold : ℕ}

theorem Usable.sizeBytes_lt {puts : List WalPutRecord} {n : ℕ}
    (h : Usable o puts n durability e d) :
    e.walWriter.sizeBytes < 2 ^ 64 := by
  obtain ⟨c, log, -, -, rfl, -⟩ := h
  exact log.small

theorem Accounts.Held.length_lt (h : l.Held o durability e d) : l.pending.length < 2 ^ 64 := by
  have hsize := h.1.sizeBytes_lt
  have hle := length_le_walBytes l.pending
  rw [h.2.sizeBytes_eq] at hsize
  unfold walHeaderSize at hle
  omega

/-- The table counts the samples since the last flush. -/
theorem Accounts.Held.sampleCount_eq (h : l.Held o durability e d) :
    e.memtable.sampleCount = l.tableSize := by
  rw [h.2.memtable_eq, MemTable.sampleCount_ofRecords h.length_lt]
  rfl

/-- The table is empty if nothing has been put since the last flush. -/
theorem Accounts.Held.isEmpty_iff (h : l.Held o durability e d) :
    e.memtable.isEmpty = true ↔ l.pending = [] := by
  rw [h.2.memtable_eq]
  exact MemTable.isEmpty_ofRecords h.length_lt

/-- What a request makes of the engine, and what it makes of the puts, taken together. -/
theorem spec_held (l l' : Accounts) {r : Request} (P : Response → Prop)
    (hputs : l'.puts = l.puts ++ r.puts) (h : ∀ e d, l.Held o durability e d →
      Makes (fun e' ↦ e' = e) r.respond fun a e' ↦ P a ∧ l'.Shown e') :
    Spec S (l.Held o durability) r.respond
      (fun a e d ↦ (r.Allows (historyOf l.puts) a ∧ P a) ∧ l'.Held o durability e d)
      (fun _ _ _ ↦ True) fun _ ↦ True := by
  intro e w hheld hs
  have hspec := (@spec_respond o S l.puts 0 durability e w.files r).and (h e w.toDisk hheld S)
  refine hspec.conseq (fun _ _ ↦ id) ?_ (fun _ _ _ _ ↦ trivial) (fun _ _ ↦ trivial) e w
    ⟨⟨rfl, rfl, hheld.1⟩, rfl⟩ hs
  rintro a e d ⟨⟨hallows, husable⟩, hP, hshown⟩
  refine ⟨⟨hallows, hP⟩, ?_, hshown⟩
  rw [hputs]
  exact husable.mono (Nat.zero_le _)

/-- **A request that puts nothing** is answered as the accounts say, and leaves them as they say. -/
theorem spec_accounts {r : Request} (hr : r.puts = []) :
    Spec S (l.Held o durability) r.respond
      (fun a e d ↦ l.Allows r a ∧ (l.after threshold r).Held o durability e d)
      (fun _ _ _ ↦ True) fun _ ↦ True := by
  have hkeep : ∀ {e d}, l.Held o durability e d → ∀ e', e' = e → l.Shown e' := by
    rintro e d h e' rfl
    exact h.2
  have hanswer : ∀ {α : Type} {e : StorageEngine} {m : Prog StorageEngine α} {answer : α → Response}
      {Q : α → StorageEngine → Prop} {P : Response → StorageEngine → Prop},
      Makes (fun e' ↦ e' = e) m Q → (∀ a e', Q a e' → P (answer a) e') →
        Makes (fun e' ↦ e' = e) (do return answer (← m)) P :=
    fun h hQ ↦ h.bind fun a ↦ Makes.pure fun e' ↦ hQ a e'
  -- the map answers what it can
  have hquery : r.writes = false → (∀ a, r.Allows (historyOf l.puts) a → l.Allows r a) →
      Spec S (l.Held o durability) r.respond (fun a e d ↦ l.Allows r a ∧ l.Held o durability e d)
        (fun _ _ _ ↦ True) fun _ ↦ True := by
    intro hwrites hallows
    refine (spec_held l l (fun _ ↦ True) (by rw [hr, List.append_nil]) ?_).post
      fun a e d h ↦ ⟨hallows a h.1.1, h.2⟩
    exact fun e d hheld ↦ (Makes.of_consults (Request.consults hwrites)).conseq (fun _ ↦ id)
      fun a e' he' ↦ ⟨trivial, hkeep hheld e' he'⟩
  cases r with
  | put series sample => cases hr
  | sync =>
    refine (spec_held l l (fun _ ↦ True) (by rw [hr, List.append_nil]) ?_).post
      fun a e d h ↦ ⟨h.1.1, h.2⟩
    refine fun e d hheld ↦ Makes.bind ((Makes.of_quiet quiet_ensureUsable _).bind fun _ ↦
      makes_syncEngine) fun _ ↦ Makes.pure fun e' he' ↦ ⟨trivial, hkeep hheld e' he'⟩
  | flush =>
    refine (spec_held l l.flush (fun _ ↦ True)
      (by rw [hr, List.append_nil, Accounts.puts_flush]) ?_).post fun a e d h ↦ ⟨h.1.1, h.2⟩
    intro e d hheld
    by_cases hempty : l.pending = []
    · refine (makes_flush_of_isEmpty (hheld.isEmpty_iff.2 hempty)).bind fun _ ↦
        Makes.pure fun e' he' ↦
        ⟨trivial, ?_⟩
      rw [Accounts.flush, if_pos hempty]
      exact hkeep hheld e' he'
    · have hfull : e.memtable.isEmpty = false := by
        rw [← Bool.not_eq_true, hheld.isEmpty_iff]
        exact hempty
      refine (makes_flush hfull).bind fun _ ↦ Makes.pure fun e' he' ↦ ⟨trivial, ?_⟩
      rw [Accounts.flush, if_neg hempty]
      exact ⟨he'.1, by rw [he'.2.1, hheld.2.length_segments], he'.2.2⟩
  | compact =>
    refine (spec_held l l.compact (fun _ ↦ True)
      (by rw [hr, List.append_nil]; rfl) ?_).post fun a e d h ↦ ⟨h.1.1, h.2⟩
    refine fun e d hheld ↦ makes_compact.bind fun _ ↦ Makes.pure fun e' he' ↦ ⟨trivial, ?_⟩
    exact ⟨he'.1.trans hheld.2.memtable_eq, by rw [he'.2.1, hheld.2.length_segments]; rfl,
      he'.2.2.trans hheld.2.sizeBytes_eq⟩
  | memtableSampleCount =>
    refine (spec_held l l (l.Allows .memtableSampleCount)
      (by rw [hr, List.append_nil]) ?_).post fun a e d h ↦ ⟨h.1.2, h.2⟩
    refine fun e d hheld ↦ hanswer (makes_look fun e ↦ e.memtable.sampleCount) fun a e' he' ↦ ?_
    exact ⟨by rw [he'.1, hheld.sampleCount_eq]; rfl, hkeep hheld e' he'.2⟩
  | segmentCount =>
    refine (spec_held l l (l.Allows .segmentCount)
      (by rw [hr, List.append_nil]) ?_).post fun a e d h ↦ ⟨h.1.2, h.2⟩
    refine fun e d hheld ↦ hanswer (makes_look fun e ↦ e.segments.length) fun a e' he' ↦ ?_
    exact ⟨by rw [he'.1, hheld.2.length_segments]; rfl, hkeep hheld e' he'.2⟩
  | walSizeBytes =>
    refine (spec_held l l (l.Allows .walSizeBytes)
      (by rw [hr, List.append_nil]) ?_).post fun a e d h ↦ ⟨h.1.2, h.2⟩
    refine fun e d hheld ↦ hanswer (makes_look fun e ↦ e.walWriter.sizeBytes) fun a e' he' ↦ ?_
    exact ⟨by rw [he'.1, hheld.2.sizeBytes_eq]; rfl, hkeep hheld e' he'.2⟩
  | stats =>
    refine (spec_held l l (l.Allows .stats)
      (by rw [hr, List.append_nil]) ?_).post fun a e d h ↦ ⟨h.1.2, h.2⟩
    refine fun e d hheld ↦ hanswer makes_stats fun a e' he' ↦ ?_
    refine ⟨?_, hkeep hheld e' he'.2⟩
    rw [he'.1, hheld.1.logicalSampleCount_eq, hheld.sampleCount_eq, hheld.2.length_segments,
      hheld.2.sizeBytes_eq]
    rfl
  | _ => exact hquery rfl fun _ ↦ id

/-- **A put** is one more record in the log and in the table. -/
theorem spec_accountsPut (series : SeriesKey) (sample : Sample) :
    Spec S (l.Held o durability) (StorageEngine.put series sample)
      (fun _ e d ↦ (l.record ⟨series, sample⟩).Held o durability e d)
      (fun _ _ _ ↦ True) fun _ ↦ True := by
  intro e w hheld hs
  have hspec := (@spec_put o S durability l.puts 0 e series sample).and
    (@makes_put e series sample S)
  refine hspec.conseq (fun _ _ ↦ id) ?_ (fun _ _ _ _ ↦ trivial) (fun _ _ ↦ trivial) e w
    ⟨⟨rfl, hheld.1⟩, rfl⟩ hs
  rintro a e' d ⟨⟨-, -, husable⟩, hmem, hsegments, hsize⟩
  refine ⟨husable.mono (Nat.zero_le _), ?_, ?_, ?_⟩
  · rw [hmem, hheld.2.memtable_eq]
    exact (MemTable.ofRecords_concat _ ⟨series, sample⟩).symm
  · rw [hsegments]
    exact hheld.2.length_segments
  · rw [hsize, hheld.2.sizeBytes_eq, Accounts.record, walBytes, walBytes, List.flatMap_append,
      List.length_append, List.flatMap_singleton]

end Held

/-! ### The database shows the accounts -/

/-- What a member function of the database answers. -/
def Database.respond : Request → DatabaseProg Database Response
  | .put series sample => do
    Database.put series sample
    return .done
  | .sync => do
    Database.sync
    return .done
  | .flush => do
    Database.flush
    return .done
  | .compact => do
    Database.compact
    return .done
  | .latest series => return .sample (← Database.latest series)
  | .get series t => return .sample (← Database.get series t)
  | .range series start stop => return .samples (← Database.range series start stop)
  | .series => return .names (← Database.series)
  | .sampleCount => return .count (← Database.sampleCount)
  | .empty => return .flag (← Database.empty)
  | .stats => return .stats (← Database.stats)
  -- what the public interface shows only as a part of `stats`
  | r => Database.onEngine (untranslated r.respond)

section Database

variable {o : Origin} {S : List Event} {durability : WalDurability} {l : Accounts} {threshold : ℕ}

/-- A member function other than a put asks the engine, and translates what it throws. -/
theorem Database.respond_eq {r : Request} (hr : r.puts = []) :
    ∃ f, (f = .other ∨ f = .ofError) ∧
      Database.respond r = Database.onEngine (Act.rethrow f r.respond) := by
  have hcall : ∀ {α : Type} (f : Error → DatabaseError) (m : Prog StorageEngine α)
    (answer : α → Response),
      (do return answer (← Database.onEngine (Act.rethrow f m)) : DatabaseProg Database Response) =
        Database.onEngine (Act.rethrow f (do return answer (← m))) := by
    intro α f m answer
    funext ⟨db, w⟩
    simp only [bind_apply, Database.onEngine, Act.zoom, Act.rethrow]
    rcases m (db.engine, w) with ⟨a, e, w'⟩ | ⟨err | -, e, w'⟩ <;> rfl
  cases r with
  | put => cases hr
  | memtableSampleCount | segmentCount | walSizeBytes => exact ⟨_, Or.inl rfl, rfl⟩
  | sync | sampleCount | series | empty | stats => exact ⟨_, Or.inl rfl, hcall _ _ _⟩
  | flush | compact | latest | get | range => exact ⟨_, Or.inr rfl, hcall _ _ _⟩

/-- The database has the threshold, and its engine shows the accounts. -/
def Accounts.HeldBy (l : Accounts) (o : Origin) (durability : WalDurability) (threshold : ℕ)
    (db : Database) (d : Disk Bytes UInt8) : Prop :=
  db.flushThresholdSamples = threshold ∧ l.Held o durability db.engine d

/-- A member function of the engine, called through the database. -/
theorem spec_onEngine {α : Type} {A : StorageEngine → Disk Bytes UInt8 → Prop}
    {m : Prog StorageEngine α}
    {Q : α → StorageEngine → Disk Bytes UInt8 → Prop} (f : Error → DatabaseError)
    (h : Spec S A m Q (fun _ _ _ ↦ True) fun _ ↦ True) :
    Spec S (fun db d ↦ db.flushThresholdSamples = threshold ∧ A db.engine d)
      (Database.onEngine (Act.rethrow f m))
      (fun a db d ↦ db.flushThresholdSamples = threshold ∧ Q a db.engine d)
      (fun _ _ _ ↦ True) fun _ ↦ True := by
  refine Spec.zoom fun db ↦ Spec.rethrow ?_
  refine (Spec.assume (P := db.flushThresholdSamples = threshold) fun hdb ↦ h.conseq (fun _ _ ↦ id)
    (fun a e d hq ↦ ⟨hdb, hq⟩) (fun _ _ _ ↦ id) fun _ ↦ id).pre ?_
  rintro e d ⟨rfl, hdb, ha⟩
  exact ⟨hdb, ha⟩

/-- **A put through the database** flushes the table that it has filled. -/
theorem spec_databasePut (series : SeriesKey) (sample : Sample) :
    Spec S (l.HeldBy o durability threshold) (Database.put series sample)
      (fun _ ↦ (l.put threshold ⟨series, sample⟩).HeldBy o durability threshold)
      (fun _ _ _ ↦ True) fun _ ↦ True := by
  rw [Accounts.put]
  generalize hl' : l.record ⟨series, sample⟩ = l'
  refine Spec.bind (spec_onEngine _ (spec_accountsPut series sample)) fun _ ↦ ?_
  rw [hl']
  refine Spec.bind (Spec.state (R := fun db db' d ↦ db.flushThresholdSamples = threshold ∧
    l'.HeldBy o durability threshold db' d) fun db d h ↦ ⟨h.1, h⟩) fun db ↦ Spec.assume fun hdb ↦ ?_
  rw [hdb]
  by_cases hzero : threshold = 0
  · rw [if_neg (by simpa using hzero), if_neg (by simp [hzero])]
    exact Spec.pure fun _ _ h ↦ h
  rw [if_pos hzero]
  have hcount : Spec S (l'.Held o durability) StorageEngine.memtableSampleCount
      (fun n e d ↦ n = l'.tableSize ∧ l'.Held o durability e d)
      (fun _ _ _ ↦ True) fun _ ↦ True := by
    intro e w hheld hs
    refine ((Quiet.spec (quiet_ensureUsable.bind fun _ ↦ Quiet.state.bind fun _ ↦ Quiet.pure _)
      (l'.Held o durability)).and (@makes_look e ℕ (fun e ↦ e.memtable.sampleCount) S)).conseq
        (fun _ _ ↦ id) ?_ (fun _ _ _ _ ↦ trivial) (fun _ _ ↦ trivial) e w ⟨hheld, rfl⟩ hs
    rintro n e' d ⟨hheld', rfl, rfl⟩
    exact ⟨hheld'.sampleCount_eq, hheld'⟩
  refine Spec.bind (spec_onEngine _ hcount) fun n ↦ ?_
  refine Spec.pre (A := fun db d ↦ n = l'.tableSize ∧ l'.HeldBy o durability threshold db d) ?_
    fun db d h ↦ ⟨h.2.1, h.1, h.2.2⟩
  refine Spec.assume fun hn ↦ ?_
  by_cases hfull : threshold ≤ n
  · rw [if_pos hfull, if_pos ⟨hzero, hn ▸ hfull⟩]
    have hflush := @spec_accounts o S durability l' threshold .flush rfl
    exact (spec_onEngine _ (Spec.of_map (f := fun _ ↦ Response.done) hflush)).post
      fun _ _ _ h ↦ ⟨h.1, h.2.2⟩
  · rw [if_neg hfull, if_neg fun h ↦ hfull (hn ▸ h.2)]
    exact Spec.pure fun _ _ h ↦ h

/-- **Every member function of the database** answers as the accounts say, and leaves them as they
say. -/
theorem spec_databaseRespond (r : Request) :
    Spec S (l.HeldBy o durability threshold) (Database.respond r)
      (fun a db d ↦ l.Allows r a ∧ (l.after threshold r).HeldBy o durability threshold db d)
      (fun _ _ _ ↦ True) fun _ ↦ True := by
  by_cases hr : r.puts = []
  · obtain ⟨f, -, heq⟩ := Database.respond_eq hr
    rw [heq]
    exact (spec_onEngine f (spec_accounts hr)).post fun a db d h ↦ ⟨h.2.1, h.1, h.2.2⟩
  · cases r with
    | put series sample =>
      exact Spec.bind (spec_databasePut series sample) fun _ ↦ Spec.pure fun db d h ↦ ⟨rfl, h⟩
    | _ => exact absurd rfl hr

end Database

/-! ### Runs of a database -/

/-- What is done with a database, and what it answers. To open it again is to destroy it first. -/
inductive DatabaseCall
  | open (listing : Listing) (options : DatabaseOptions)
  | request (r : Request) (a : Response)

/-- The threshold and the accounts after a call. -/
def Accounts.next : ℕ × Accounts → DatabaseCall → ℕ × Accounts
  | (_, l), .open _ options => (options.memtableFlushThresholdSamples, l)
  | (threshold, l), .request r _ => (threshold, l.after threshold r)

def accountsOf (calls : List DatabaseCall) : ℕ × Accounts := calls.foldl Accounts.next (0, .new)

/-- The directory has been opened as this database. -/
def OpenedAs (f : Directory) (listing : Listing) (options : DatabaseOptions) (db : Database)
    (g : Directory) : Prop :=
  ∃ sched sched' w w', takeLock false ((), ⟨⟨f, []⟩, sched⟩) = .ok () ((), w) ∧
    constructEngine listing options ((), ⟨⟨w.files, []⟩, sched'⟩) = .ok db ((), w') ∧ g = w'.files

/-- The runs of a database on a directory, in which every call returns. -/
inductive DatabaseRun (f : Directory) : List DatabaseCall → Database → Directory → Prop
  | opened {db : Database} {g : Directory} (listing : Listing) (options : DatabaseOptions) :
    OpenedAs f listing options db g → DatabaseRun f [.open listing options] db g
  | reopened {calls : List DatabaseCall} {db db' : Database} {g g' : Directory} (listing : Listing)
    (options : DatabaseOptions) : DatabaseRun f calls db g → OpenedAs g listing options db' g' →
      DatabaseRun f (calls ++ [.open listing options]) db' g'
  | request {calls : List DatabaseCall} {db db' : Database} {g : Directory} {w : World Bytes UInt8}
    {sched : List Event} {r : Request} {a : Response} : DatabaseRun f calls db g →
      Database.respond r (db, ⟨⟨g, []⟩, sched⟩) = .ok a (db', w) →
        DatabaseRun f (calls ++ [.request r a]) db' w.files

section Runs

variable {f g : Directory} {l : Accounts} {db db' : Database} {threshold : ℕ} {listing : Listing}
  {options : DatabaseOptions} {calls : List DatabaseCall}

/-- The engine of a catalog and a log shows what they hold. -/
theorem shown_engineOf {c : Catalog} {log : WalLog} (htail : log.tail = [])
    (puts : List WalPutRecord)
    (durability : WalDurability) :
    (Accounts.mk puts log.records c.layers.length).Shown (engineOf c log durability) where
  memtable_eq := rfl
  length_segments := List.length_map _
  sizeBytes_eq := by
    show log.bytes.length = _
    rw [WalLog.bytes, htail, List.append_nil]

/-- The database holds the accounts, whatever led to its files. -/
def Accounts.HeldOn (l : Accounts) (threshold : ℕ) (db : Database) (f : Directory) : Prop :=
  ∃ o durability, l.HeldBy o durability threshold db ⟨f, []⟩

theorem Accounts.HeldBy.heldOn {o : Origin} {durability : WalDurability} {d : Disk Bytes UInt8}
    (h : l.HeldBy o durability threshold db d) : l.HeldOn threshold db d.files := by
  obtain ⟨hthreshold, ⟨c, log, htail, htracks, he, hat⟩, hshown⟩ := h
  exact ⟨.of hat.holds, durability, hthreshold,
    ⟨c, log, htail, htracks, he, At.start (.of hat.holds)⟩, hshown⟩

/-- **Opening a directory** shows what its catalog and its log hold. -/
theorem heldOn_of_openedAs {c : Catalog} {log : Option WalLog} {puts : List WalPutRecord}
    (hholds : Holds f ⟨c, log, none, .idle⟩) (htracks : Tracks puts 0 c log)
    (h : OpenedAs f listing options db g) :
    (Accounts.mk puts (recordsOf log) c.layers.length).HeldOn
      options.memtableFlushThresholdSamples db
      g := by
  obtain ⟨sched, sched', w, w', hlock, hconstruct, rfl⟩ := h
  obtain ⟨-, hfiles⟩ := (spec_takeLock (S := sched) false).of_ok (w := ⟨⟨f, []⟩, sched⟩) rfl hlock
  have hholds' := hholds.of_lock hfiles
  have hopen := @spec_open (.of hholds') Unit sched' (Tracks puts 0) () (fun _ ↦ False) c log
    listing options.durability.toInternal fun _ hrec hsync ↦
      htracks.of_log hrec hsync
  have hspec : Spec sched' (fun _ d ↦ d = ⟨w.files, []⟩) (constructEngine listing options)
      (fun db _ d ↦ (Accounts.mk puts (recordsOf log) c.layers.length).HeldOn
        options.memtableFlushThresholdSamples db d.files) (fun _ _ _ ↦ True) fun _ ↦ True := by
    refine Spec.bind (Q := fun e _ d ↦ ∃ log' : WalLog, log'.records = recordsOf log ∧
      log'.tail = [] ∧ e = engineOf c log' options.durability.toInternal ∧
        At (.of hholds') d ⟨c, some log', none, .idle⟩ ∧ Tracks puts 0 c (some log'))
      (Spec.rethrow (hopen.conseq ?_ ?_ (fun _ _ _ _ ↦ trivial) fun _ _ ↦ trivial)) fun e ↦
        Spec.pure ?_
    · rintro s d rfl
      exact ⟨rfl, At.start (.of hholds')⟩
    · rintro e s d ⟨log', hrec, htail, hsync, he, -, hat⟩
      exact ⟨log', hrec, htail, he, hat, htracks.of_log hrec hsync⟩
    · rintro s d ⟨log', hrec, htail, rfl, hat, htracks'⟩
      rw [← hrec]
      exact Accounts.HeldBy.heldOn (o := .of hholds') ⟨rfl, ⟨c, log', htail, htracks', rfl, hat⟩,
        shown_engineOf htail _ _⟩
  exact hspec.of_ok (w := ⟨⟨w.files, []⟩, sched'⟩) rfl hconstruct

/-- Opening a directory again shows the same accounts. -/
theorem Accounts.HeldOn.reopened (h : l.HeldOn threshold db f)
    (hopened : OpenedAs f listing options db' g) :
    l.HeldOn options.memtableFlushThresholdSamples db' g := by
  obtain ⟨o, durability, -, ⟨c, log, htail, htracks, he, hat⟩, hshown⟩ := h
  obtain ⟨o', durability', hthreshold, husable, hshown'⟩ :=
    heldOn_of_openedAs hat.holds htracks hopened
  -- both engines show what catalog and log hold
  have hsame := shown_engineOf (c := c) htail l.puts durability
  rw [← he] at hsame
  refine ⟨o', durability', hthreshold, husable, ?_, ?_, ?_⟩
  · rw [← hshown.memtable_eq, hsame.memtable_eq]
    exact hshown'.memtable_eq
  · rw [← hshown.length_segments, hsame.length_segments]
    exact hshown'.length_segments
  · rw [← hshown.sizeBytes_eq, hsame.sizeBytes_eq]
    exact hshown'.sizeBytes_eq

theorem accountsOf_concat (calls : List DatabaseCall) (x : DatabaseCall) :
    accountsOf (calls ++ [x]) = Accounts.next (accountsOf calls) x := by
  simp [accountsOf]

/-- **The machine is followed** by every run. -/
theorem DatabaseRun.heldOn (hf : Fresh f) (h : DatabaseRun f calls db g) :
    (accountsOf calls).2.HeldOn (accountsOf calls).1 db g := by
  induction h with
  | opened listing options hopened =>
    have hholds : Holds f ⟨.empty, none, none, .idle⟩ := hf.origin.holds
    have htracks : Tracks [] 0 .empty none := tracks_empty
    exact heldOn_of_openedAs hholds htracks hopened
  | reopened listing options _ hopened ih =>
    rw [accountsOf_concat]
    exact ih.reopened hopened
  | @request calls db db' g w sched r a _ hrun ih =>
    obtain ⟨o, durability, hheld⟩ := ih
    rw [accountsOf_concat]
    exact ((spec_databaseRespond (S := sched) r).of_ok (w := ⟨⟨g, []⟩, sched⟩)
      hheld hrun).2.heldOn

/-- **Every answer is exact.** Take any run of a database in which every call returns: any requests
in any order, with the automatic flush, and any number of reopenings with any options. Every answer
is the one that the accounts of the calls before it give: to the queries that of the map, and to the
counters how many samples are in the table, how many segments there are, and how long the log is to
the byte. -/
theorem answers_exact (hf : Fresh f) (h : DatabaseRun f calls db g) :
    ∀ before r a after, calls = before ++ .request r a :: after →
    (accountsOf before).2.Allows r a := by
  induction h with
  | opened listing options _ =>
    rintro before r a after heq
    rcases before with _ | ⟨x, before⟩
    · cases heq
    · simp at heq
  | reopened listing options _ _ ih =>
    rintro before r a after heq
    rcases Linearizability.split_concat heq with ⟨-, hlast⟩ | ⟨after', hcalls⟩
    · cases hlast
    · exact ih before r a after' hcalls
  | @request calls db db' g w sched r' a' hprev hrun ih =>
    rintro before r a after heq
    rcases Linearizability.split_concat heq with ⟨rfl, hlast⟩ | ⟨after', hcalls⟩
    · obtain ⟨rfl, rfl⟩ := DatabaseCall.request.inj hlast
      obtain ⟨o, durability, hheld⟩ := hprev.heldOn hf
      exact ((spec_databaseRespond (S := sched) r').of_ok
        (w := ⟨⟨g, []⟩, sched⟩) hheld hrun).1
    · exact ih before r a after' hcalls

/-! ### A stream of distinct puts -/

/-- **What the automatic flush makes of a stream.** The segments take as many records as the
threshold says each, and the rest of the stream is in the table. -/
theorem accounts_of_distinct (hpos : threshold ≠ 0) (hempty : l.pending = [])
    {rs : List WalPutRecord}
    (hnodup : (rs.map fun r ↦ r.entry.1).Nodup) : rs.foldl (Accounts.put threshold) l =
      ⟨l.puts ++ rs, rs.drop (threshold * (rs.length / threshold)),
        l.segments + rs.length / threshold⟩ := by
  induction rs using List.reverseRecOn with
  | nil =>
    ext : 1
    · exact (List.append_nil _).symm
    · exact hempty.trans List.drop_nil.symm
    · simp
  | append_singleton rs r ih =>
    have hprefix : (rs.map fun r ↦ r.entry.1).Nodup :=
      hnodup.sublist ((List.sublist_append_left rs [r]).map _)
    rw [List.foldl_concat, ih hprefix]
    set q := rs.length / threshold with hq
    have hdivmod := Nat.div_add_mod rs.length threshold
    have hpositive := Nat.pos_of_ne_zero hpos
    have hmod := Nat.mod_lt rs.length hpositive
    rw [← hq] at hdivmod
    have hrest : (rs ++ [r]).drop (threshold * q) = rs.drop (threshold * q) ++ [r] :=
      List.drop_append_of_le_length (by omega)
    -- no two records of the table share a key
    have hsize :
        (Accounts.record ⟨l.puts ++ rs, rs.drop (threshold * q), l.segments + q⟩ r).tableSize =
          rs.length % threshold + 1 := by
      have hdistinct : ((historyOf ((rs ++ [r]).drop (threshold * q))).map Prod.fst).Nodup := by
        rw [historyOf, List.map_map]
        exact hnodup.sublist ((List.drop_sublist _ _).map _)
      rw [Accounts.tableSize, Accounts.record, ← hrest, card_keys_of_nodup hdistinct, historyOf,
        List.length_map, List.length_drop, List.length_append, List.length_singleton]
      omega
    rw [Accounts.put, hsize, List.length_append, List.length_singleton]
    by_cases hfull : threshold ≤ rs.length % threshold + 1
    · have hlast : rs.length % threshold + 1 = threshold := by omega
      have hnext : (rs.length + 1) / threshold = q + 1 := by
        rw [Nat.succ_div_of_dvd, ← hq]
        exact ⟨q + 1, by rw [mul_add]; omega⟩
      rw [if_pos ⟨hpos, hfull⟩, Accounts.flush, if_neg (by simp [Accounts.record]), hnext]
      ext : 1
      · exact List.append_assoc _ _ _
      · exact (List.drop_eq_nil_of_le (by simp [mul_add]; omega)).symm
      · exact Nat.add_assoc _ _ _
    · have hnext : (rs.length + 1) / threshold = q := by
        rw [← hdivmod, add_assoc, Nat.mul_add_div hpositive, Nat.div_eq_of_lt (by omega), add_zero]
      rw [if_neg fun h ↦ hfull h.2, hnext, hrest]
      ext : 1
      · exact List.append_assoc _ _ _
      · rfl
      · rfl

/-- The books after an opening and puts. -/
theorem accountsOf_puts (listing : Listing) (options : DatabaseOptions) (rs : List WalPutRecord) :
    accountsOf (.open listing options :: rs.map fun r ↦ .request (.put r.series r.sample) .done) =
      (options.memtableFlushThresholdSamples,
        rs.foldl (Accounts.put options.memtableFlushThresholdSamples) .new) := by
  show List.foldl Accounts.next (options.memtableFlushThresholdSamples, Accounts.new) _ = _
  generalize Accounts.new = l
  induction rs generalizing l with
  | nil => rfl
  | cons r rs ih => exact ih _

/-- **The automatic flush cuts a stream of puts evenly.** A new database with a threshold other than
zero that has taken distinct puts says afterwards: so many samples as puts, of these in the table as
many as the threshold leaves over, as many segments as it goes into the puts, and a log of exactly
the records that are in the table. -/
theorem stats_of_distinct (hf : Fresh f) (hpos : options.memtableFlushThresholdSamples ≠ 0)
    {rs : List WalPutRecord} (hnodup : (rs.map fun r ↦ r.entry.1).Nodup) {a : Response}
    (h : DatabaseRun f ((.open listing options ::
      rs.map fun r ↦ .request (.put r.series r.sample) .done) ++ [.request .stats a]) db g) :
    a = .stats ⟨rs.length, rs.length % options.memtableFlushThresholdSamples,
      rs.length / options.memtableFlushThresholdSamples,
      (walBytes (rs.drop (options.memtableFlushThresholdSamples *
        (rs.length / options.memtableFlushThresholdSamples)))).length⟩ := by
  have hanswer := answers_exact hf h _ _ _ [] rfl
  rw [accountsOf_puts, accounts_of_distinct hpos rfl hnodup] at hanswer
  have hcard : ∀ k, (keys (historyOf (rs.drop k))).card = rs.length - k := fun k ↦ by
    rw [card_keys_of_nodup, historyOf, List.length_map, List.length_drop]
    rw [historyOf, List.map_map]
    exact hnodup.sublist ((List.drop_sublist k rs).map _)
  have hall : (keys (historyOf rs)).card = rs.length := hcard 0
  have hrest := hcard (options.memtableFlushThresholdSamples *
    (rs.length / options.memtableFlushThresholdSamples))
  refine Eq.trans hanswer ?_
  rw [Nat.mod_eq_sub_mul_div, ← hrest]
  simp only [Accounts.tableSize, Accounts.new, List.nil_append, hall, zero_add]

end Runs

/-! ### Runs, computed -/

/-- Make a call, if it returns what the call says, where the operating system does everything it is
asked. -/
def DatabaseCall.made : Option Database × Directory → DatabaseCall →
    Option (Option Database × Directory)
  | (_, f), .open listing options =>
    match takeLock false ((), ⟨⟨f, []⟩, []⟩) with
    | .ok _ (_, w) =>
      match constructEngine listing options ((), ⟨⟨w.files, []⟩, []⟩) with
      | .ok db (_, w') => some (some db, w'.files)
      | .error _ _ => none
    | .error _ _ => none
  | (none, _), .request _ _ => none
  | (some db, f), .request r a =>
    match Database.respond r (db, ⟨⟨f, []⟩, []⟩) with
    | .ok b (db', w) => if b = a then some (some db', w.files) else none
    | .error _ _ => none

/-- **A computed run** is a run. -/
theorem DatabaseRun.of_made {f g : Directory} {calls : List DatabaseCall} {db : Option Database}
    (h : calls.foldlM DatabaseCall.made (none, f) = some (db, g)) :
    calls = [] ∧ db = none ∧ g = f ∨ ∃ db', db = some db' ∧ DatabaseRun f calls db' g := by
  induction calls using List.reverseRecOn generalizing db g with
  | nil =>
    obtain ⟨rfl, rfl⟩ := Prod.mk.inj (Option.some.inj h)
    exact Or.inl ⟨rfl, rfl, rfl⟩
  | append_singleton calls x ih =>
    rw [List.foldlM_append, Option.bind_eq_bind, Option.bind_eq_some_iff] at h
    obtain ⟨⟨db₁, g₁⟩, hcalls, hx⟩ := h
    have hx : (DatabaseCall.made (db₁, g₁) x).bind some = some (db, g) := hx
    rw [Option.bind_fun_some] at hx
    refine Or.inr ?_
    cases x with
    | «open» listing options =>
      rw [DatabaseCall.made] at hx
      split at hx
      · rename_i w hlock
        split at hx
        · rename_i db' _ w' hconstruct
          obtain ⟨rfl, rfl⟩ := Prod.mk.inj (Option.some.inj hx)
          rcases ih hcalls with ⟨rfl, rfl, rfl⟩ | ⟨db₂, rfl, hrun⟩
          · exact ⟨db', rfl, .opened listing options ⟨[], [], w, w', hlock, hconstruct, rfl⟩⟩
          · exact ⟨db', rfl, hrun.reopened listing options ⟨[], [], w, w', hlock, hconstruct, rfl⟩⟩
        · cases hx
      · cases hx
    | request r a =>
      rcases ih hcalls with ⟨rfl, rfl, rfl⟩ | ⟨db₂, rfl, hrun⟩
      · cases hx
      rw [DatabaseCall.made] at hx
      split at hx
      · rename_i b db' w hresponds
        split at hx
        · rename_i hb
          obtain ⟨rfl, rfl⟩ := Prod.mk.inj (Option.some.inj hx)
          exact ⟨db', rfl, hrun.request (hb ▸ hresponds)⟩
        · cases hx
      · cases hx

/-- Calls that have been computed are a run. -/
theorem exists_databaseRun {calls : List DatabaseCall} (hne : calls ≠ [])
    (h : (calls.foldlM DatabaseCall.made (none, OrderedMap.empty)).isSome = true) :
    ∃ db g, DatabaseRun OrderedMap.empty calls db g := by
  obtain ⟨⟨db, g⟩, hmade⟩ := Option.isSome_iff_exists.1 h
  rcases DatabaseRun.of_made hmade with ⟨hnil, -⟩ | ⟨db', -, hrun⟩
  · exact absurd hnil hne
  · exact ⟨db', g, hrun⟩

/-- Puts that fill the table, a flush, a compaction, and an opening with another threshold. -/
def countedCalls : List DatabaseCall :=
  [.open .sorted ⟨.buffered, 2⟩, .request (.put cpuRecord.series cpuRecord.sample) .done,
    .request (.put laterRecord.series laterRecord.sample) .done,
    .request (.put replacingRecord.series replacingRecord.sample) .done, .request .flush .done,
    .request .compact .done, .open .sorted ⟨.syncOnWrite, 8⟩,
    .request (.put ioRecord.series ioRecord.sample) .done]

/-- Four puts, the third of which replaces a sample and fills the table: three samples, one of them
in the table, one segment. -/
theorem answers_exact_countedCalls : ∃ db g,
    DatabaseRun OrderedMap.empty (countedCalls ++ [.request .stats (.stats ⟨3, 1, 1, 44⟩)]) db g ∧
      Accounts.Allows ⟨[cpuRecord, laterRecord, replacingRecord, ioRecord], [ioRecord], 1⟩ .stats
        (.stats ⟨3, 1, 1, 44⟩) := by
  obtain ⟨db, g, hrun⟩ := @exists_databaseRun
    (countedCalls ++ [.request .stats (.stats ⟨3, 1, 1, 44⟩)]) (by simp) (by decide +kernel)
  exact ⟨db, g, hrun, answers_exact fresh_empty hrun countedCalls .stats _ [] rfl⟩

/-- Three puts, of which the second fills the table. -/
theorem stats_of_distinct_cpu :
    ∃ a db g, DatabaseRun OrderedMap.empty ((.open .sorted ⟨.buffered, 2⟩ ::
      [cpuRecord, laterRecord, ioRecord].map fun r ↦ .request (.put r.series r.sample) .done) ++
        [.request .stats a]) db g ∧
    a = .stats ⟨3, 1, 1, (walBytes [ioRecord]).length⟩ := by
  obtain ⟨db, g, hrun⟩ := @exists_databaseRun ((.open .sorted ⟨.buffered, 2⟩ ::
      [cpuRecord, laterRecord, ioRecord].map fun r ↦ .request (.put r.series r.sample) .done) ++
        [.request .stats (.stats ⟨3, 1, 1, 44⟩)]) (by simp) (by decide +kernel)
  exact ⟨_, db, g, hrun, @stats_of_distinct _ _ _ _ _ fresh_empty (by decide)
    [cpuRecord, laterRecord, ioRecord] (by decide +kernel) _ hrun⟩

end ChronoStore
