import ChronoStore.Engine.AnyDirectory

/-!
# The database

`database.cpp`: the public face of the engine. It owns the lock of the directory, reports every
format error of the files as one exception (`translateCorruption`), and flushes the table when a put
has filled it.

A directory of any content, in which the segments that the manifest names are there and no call
fails, either opens or is reported as corrupted; and a database that has been opened answers each
query or reports corruption. No other exception is possible.
-/

namespace ChronoStore

open FaultyDisk

inductive Durability
  | buffered
  | syncOnWrite
deriving DecidableEq, Repr

/-- `to_internal_durability`: the names differ, the choice is the same. -/
def Durability.toInternal : Durability → WalDurability
  | .buffered => .buffered
  | .syncOnWrite => .syncOnAppend

structure DatabaseOptions where
  durability : Durability := .syncOnWrite
  memtableFlushThresholdSamples : ℕ := 4096

/-- The exceptions of the public interface. -/
inductive DatabaseError
  | corruption (what : String)
  | busy (what : String)
  | other (error : Error)
deriving DecidableEq, Repr

/-- Programs of the public interface. -/
abbrev DatabaseProg (σ : Type) : Type → Type := EStateM (Stop DatabaseError) (σ × World Bytes UInt8)

/-- How `translate_corruption` reports an exception. -/
def DatabaseError.ofError : Error → DatabaseError
  | .manifestFormatError what => .corruption what
  | .segmentFormatError what => .corruption what
  | .walFormatError offset error => .corruption (Error.walFormatError offset error).what
  | error => .other error

/-- A format error is reported as corruption, with its own text. -/
theorem DatabaseError.ofError_of_isFormat {e : Error} (h : e.IsFormat) :
    DatabaseError.ofError e = .corruption e.what := by
  cases e with
  | manifestFormatError => rfl
  | segmentFormatError => rfl
  | walFormatError => rfl
  | _ => exact h.elim

variable {σ α : Type}

/-- `translate_corruption`: the format errors of manifest, segments and log reach the caller as one.
-/
def translateCorruption (m : Prog σ α) : DatabaseProg σ α := Act.rethrow DatabaseError.ofError m

/-- A call that is not translated. -/
def untranslated (m : Prog σ α) : DatabaseProg σ α := Act.rethrow .other m

/-- `prepare_database_directory` on a directory that exists. -/
def prepareDatabaseDirectory : DatabaseProg σ Unit := do
  Act.probe (.other (.systemError "failed to inspect database directory"))
  Act.probe (.other (.systemError "failed to inspect database path"))

def lockName : Bytes := ascii "LOCK"

/-- The constructor of `DatabaseLock`; another process may hold the lock. -/
def acquireLock (heldElsewhere : Bool) : DatabaseProg σ Unit := do
  Act.openAppend lockName (.other (.systemError "failed to open database lock file"))
  if heldElsewhere then Act.throw (.busy "database directory is already open")
  else Act.probe (.other (.systemError "failed to lock database directory"))

/-- The members of `Database::Impl`; the lock is held as long as it lives. -/
structure Database where
  engine : StorageEngine
  flushThresholdSamples : ℕ

namespace Database

/-- The constructor. -/
def «open» (listing : Listing) (heldElsewhere : Bool) (options : DatabaseOptions) :
    DatabaseProg σ Database := do
  prepareDatabaseDirectory
  acquireLock heldElsewhere
  let engine ← translateCorruption (StorageEngine.open listing options.durability.toInternal)
  return ⟨engine, options.memtableFlushThresholdSamples⟩

/-- A member function of the engine. -/
def onEngine (m : DatabaseProg StorageEngine α) : DatabaseProg Database α :=
  Act.zoom Database.engine (fun e db ↦ { db with engine := e }) m

/-- `Database::put`: a put that fills the table flushes it. The put has taken place by then, and a
flush that throws does not take it back. -/
def put (series : SeriesKey) (sample : Sample) : DatabaseProg Database Unit := do
  onEngine (translateCorruption (StorageEngine.put series sample))
  let threshold := (← Act.state).flushThresholdSamples
  if threshold ≠ 0 then do
    let count ← onEngine (untranslated StorageEngine.memtableSampleCount)
    if threshold ≤ count then onEngine (translateCorruption StorageEngine.flush) else pure ()
  else pure ()

def sync : DatabaseProg Database Unit := onEngine (untranslated StorageEngine.sync)

def flush : DatabaseProg Database Unit := onEngine (translateCorruption StorageEngine.flush)

def compact : DatabaseProg Database Unit := onEngine (translateCorruption StorageEngine.compact)

def latest (series : SeriesKey) : DatabaseProg Database (Option Sample) :=
  onEngine (translateCorruption (StorageEngine.latest series))

def get (series : SeriesKey) (t : Timestamp) : DatabaseProg Database (Option Sample) :=
  onEngine (translateCorruption (StorageEngine.get series t))

def range (series : SeriesKey) (start stop : Timestamp) : DatabaseProg Database (List Sample) :=
  onEngine (translateCorruption (StorageEngine.range series start stop))

def series : DatabaseProg Database (List SeriesKey) := onEngine (untranslated StorageEngine.series)

def sampleCount : DatabaseProg Database ℕ := onEngine (untranslated StorageEngine.sampleCount)

def empty : DatabaseProg Database Bool := onEngine (untranslated StorageEngine.empty)

def stats : DatabaseProg Database StorageEngineStats := onEngine (untranslated StorageEngine.stats)

end Database

/-! ### Opening a directory of any content -/

section AnyBytes

variable {S : List Event} {f : Directory} {s₀ : σ}

/-- Taking the lock leaves the files of the store alone. -/
theorem spec_acquireLock (hfail : ¬Failing S) {E : DatabaseError → σ → Disk Bytes UInt8 → Prop} :
    Spec S (Finds f s₀) (acquireLock false)
      (fun _ s d ↦ s = s₀ ∧ ∀ name, name ≠ lockName → d.files.find? name = f.find? name) E
      (fun _ ↦ True) := by
  have hopen : Spec S (Finds f s₀)
      (Act.openAppend lockName (.other (.systemError "failed to open database lock file")))
      (fun _ s d ↦ s = s₀ ∧ ∀ name, name ≠ lockName → d.files.find? name = f.find? name) E
      (fun _ ↦ True) := by
    refine Spec.bind (Spec.files (R := fun g s d ↦ g = f ∧ Finds f s₀ s d) fun s d hd ↦ ⟨hd.2, hd⟩)
      fun g ↦ Spec.assume fun hg ↦ ?_
    split
    · refine (FaultyDisk.Spec.probe (fun _ _ hS ↦ absurd hS hfail) fun _ _ _ ↦ trivial).post ?_
      rintro _ s d ⟨rfl, rfl⟩
      exact ⟨rfl, fun _ _ ↦ rfl⟩
    · refine FaultyDisk.Spec.step ?_ (fun _ _ _ hS ↦ absurd hS hfail) fun _ _ _ _ ↦ trivial
      rintro s d ⟨rfl, rfl⟩
      exact ⟨rfl, fun name hname ↦ Step.find?_apply_of_notMem (by simpa [Step.touches] using hname)⟩
  refine Spec.bind hopen fun _ ↦ ?_
  rw [if_neg (by simp)]
  exact FaultyDisk.Spec.probe (fun _ _ hS ↦ absurd hS hfail) fun _ _ _ ↦ trivial

/-- Opening a database: what it opens, or what it reports. -/
theorem spec_openDatabase (hfail : ¬Failing S) (hf : Complete f) (listing : Listing)
    (options : DatabaseOptions) :
    Spec S (Finds f s₀) (Database.open listing false options)
      (fun db s d ↦ s = s₀ ∧ db.engine.failed = false ∧ AllFit d.files db.engine.segments)
      (fun err s _ ↦ s = s₀ ∧ ∃ what, err = .corruption what) (fun _ ↦ True) := by
  have hcall : ∀ onFail : DatabaseError, Spec S (Finds f s₀) (Act.probe onFail)
      (fun _ ↦ Finds f s₀) (fun err s _ ↦ s = s₀ ∧ ∃ what, err = .corruption what)
      (fun _ ↦ True) := fun onFail ↦
    FaultyDisk.Spec.probe (fun _ _ hS ↦ absurd hS hfail) fun _ _ _ ↦ trivial
  refine Spec.bind (Spec.bind (hcall _) fun _ ↦ hcall _) fun _ ↦
    Spec.bind (spec_acquireLock hfail) fun _ ↦ ?_
  refine Spec.pre (A := fun s d ↦ ∃ g, (∀ name, name ≠ lockName → g.find? name = f.find? name) ∧
    Finds g s₀ s d) ?_ ?_
  swap
  · rintro s d ⟨rfl, hg⟩
    exact ⟨d.files, hg, rfl, rfl⟩
  refine Spec.exists_pre fun g ↦ Spec.assume fun hg ↦ ?_
  -- the lock is not one of the files that recovery looks at
  have hload : loadManifestIn g = loadManifestIn f := loadManifestIn_congr (hg _ (by decide))
  have hcomplete : Complete g := by
    refine ⟨fun content hwal ↦ hf.wal content ((hg _ (by decide)).symm.trans hwal),
      fun state hstate name hname ↦ ?_, fun name hname ↦ ?_⟩
    · have hne : name ≠ lockName := by
        rintro rfl
        exact absurd (valid_of_loadManifestIn hstate _ hname) (by decide)
      rw [hg name hne]
      exact hf.segments state (hload.symm.trans hstate) name hname
    · by_cases hne : name = lockName
      · rw [hne]
        decide
      · refine hf.names name (not_not.1 fun hnot ↦ ?_)
        rw [← OrderedMap.find?_eq_none_iff, ← hg name hne, OrderedMap.find?_eq_none_iff] at hnot
        exact hnot hname
  refine Spec.bind (Q := fun e s d ↦ s = s₀ ∧ e.failed = false ∧ AllFit d.files e.segments)
    (Spec.rethrow ((spec_open_finds hfail listing _).conseq (fun _ _ ↦ id) ?_ ?_ fun _ ↦ id))
    fun engine ↦ Spec.pure fun s d h ↦ h
  · rintro e s d ⟨rfl, r, hrec, hrecovered, rfl⟩
    refine ⟨rfl, rfl, fun segment hsegment ↦ ?_⟩
    obtain ⟨physical, hload', hopen, -, -⟩ := of_recoverIn hrec
    obtain ⟨content, hfile, hfits⟩ := hcomplete.allFit hload' hopen segment hsegment
    refine ⟨content, ?_, hfits⟩
    rw [hrecovered.segments hrec (hcomplete.not_mistakesLive hload') _
      (path_mem_of_openSegmentsIn hopen segment hsegment)]
    exact hfile
  · rintro err s d ⟨rfl, herr, -⟩
    exact ⟨rfl, _, DatabaseError.ofError_of_isFormat (hcomplete.isFormat herr)⟩

/-- Wherever no call fails, the call returns or reports corruption, and changes nothing. -/
def AnswersOrReports (m : DatabaseProg Database α) (db : Database) (d : Disk Bytes UInt8) : Prop :=
  ∀ sched, ¬Failing sched → ¬Crashing sched →
    (∃ a rest, m (db, ⟨d, sched⟩) = .ok a (db, ⟨d, rest⟩)) ∨
      ∃ what rest, m (db, ⟨d, sched⟩) = .error (.exn (.corruption what)) (db, ⟨d, rest⟩)

/-- A translated call, run. -/
theorem Database.onEngine_translated (m : Prog StorageEngine α) (db : Database)
    (w : World Bytes UInt8) :
    Database.onEngine (translateCorruption m) (db, w) =
      match m (db.engine, w) with
      | .ok a (e, w) => .ok a ({ db with engine := e }, w)
      | .error (.exn err) (e, w) =>
        .error (.exn (DatabaseError.ofError err)) ({ db with engine := e }, w)
      | .error .crash (e, w) => .error .crash ({ db with engine := e }, w) := by
  simp only [Database.onEngine, Act.zoom, translateCorruption, Act.rethrow]
  rcases m (db.engine, w) with ⟨a, e, w'⟩ | ⟨err | -, e, w'⟩ <;> rfl

/-- A query whose reading part throws format errors only. -/
theorem answersOrReports_of_reads {k : StorageEngine → Prog StorageEngine α} {r : Except Error α}
    {db : Database} {d : Disk Bytes UInt8} (hdb : db.engine.failed = false)
    (h : ∀ S, Reads S Error.IsIo (fun g ↦ g = d.files) (k db.engine) r) (hr : FormatErrorsOnly r) :
    AnswersOrReports (Database.onEngine (translateCorruption do
      StorageEngine.ensureUsable
      let e ← Act.state
      k e)) db d := by
  intro sched hfail hcrash
  -- past the check, the call is its reading part
  have hrun : (do
      StorageEngine.ensureUsable
      let e ← Act.state
      k e : Prog StorageEngine α) (db.engine, ⟨d, sched⟩) = k db.engine (db.engine, ⟨d, sched⟩) :=
    StorageEngine.ensureUsable_bind hdb _ _
  have hreads := h sched db.engine ⟨d, sched⟩ rfl (List.suffix_refl _)
  rw [Database.onEngine_translated, hrun]
  revert hreads
  rcases k db.engine (db.engine, ⟨d, sched⟩) with ⟨a, e, w⟩ | ⟨err | -, e, w⟩
  · rintro ⟨⟨-, rfl, hd⟩, -⟩
    have hd' : w.toDisk = d := hd
    exact Or.inl ⟨a, w.sched, by rw [← hd']⟩
  · rintro ⟨herr | ⟨hS, -⟩, rfl, hd⟩
    · have hd' : w.toDisk = d := hd
      refine Or.inr ⟨err.what, w.sched, ?_⟩
      dsimp only
      rw [DatabaseError.ofError_of_isFormat (hr.isFormat herr), ← hd']
    · exact absurd hS hfail
  · exact fun hc ↦ absurd hc.1 hcrash

/-- The queries of a database whose readers fit their files. -/
theorem answersOrReports_of_allFit {db : Database} {d : Disk Bytes UInt8}
    (hdb : db.engine.failed = false) (hfit : AllFit d.files db.engine.segments) :
    (∀ series t, AnswersOrReports (Database.get series t) db d) ∧
      (∀ series, AnswersOrReports (Database.latest series) db d) ∧
      ∀ series start stop, start ≤ stop →
        AnswersOrReports (Database.range series start stop) db d := by
  refine ⟨fun series t ↦ ?_, fun series ↦ ?_, fun series start stop hle ↦ ?_⟩
  · have hget : AllFit d.files db.engine.segments.reverse :=
      fun segment hsegment ↦ hfit segment (List.mem_reverse.1 hsegment)
    by_cases hmem : (db.engine.memtable.get series t).isSome = true
    · refine answersOrReports_of_reads (r := .ok (db.engine.memtable.get series t)) hdb (fun S ↦ ?_)
        (formatErrorsOnly_ok _)
      rw [if_pos hmem]
      exact Reads.pure _
    · refine answersOrReports_of_reads hdb (fun S ↦ ?_) (hget.get series t)
      rw [if_neg hmem]
      exact reads_getInSegments_in series t _
  · refine answersOrReports_of_reads hdb (fun S ↦ (reads_latestInSegments_in _ series).bind
      (g := fun result ↦ .ok (StorageEngine.later (db.engine.memtable.latest series) result))
        fun _ _ ↦ Reads.pure _) ((hfit.latest series).bind fun _ _ ↦ formatErrorsOnly_ok _)
  · have hrange := db.engine.memtable.range_eq series hle
    have hbody := answersOrReports_of_reads (d := d) (k := fun e ↦ do
        let merged ← e.segments.foldlM (fun merged segment ↦ do
          let samples ← segment.range (readFileBytes segment.path) series start stop
          return StorageEngine.overlay merged samples) OrderedMap.empty
        let recent ← Act.ofExcept (e.memtable.range series start stop)
        return (StorageEngine.overlay merged recent).entries.map sampleOf) hdb
      (fun S ↦ (reads_rangeInSegments_in _ series start stop).bind fun merged _ ↦
        (Reads.ofExcept (db.engine.memtable.range series start stop)).bind fun _ _ ↦ Reads.pure _)
      ((hfit.range series hle).bind fun _ _ ↦ by
        rw [hrange]
        exact (formatErrorsOnly_ok _).bind fun _ _ ↦ formatErrorsOnly_ok _)
    rw [Database.range, StorageEngine.range, if_neg (not_lt.2 hle)]
    exact hbody

/-- **Opening arbitrary bytes is total and correctly classified.** Where the segments that the
manifest names are there, no file is larger than a file can be and no call fails, constructing a
database either succeeds or reports corruption; and a database so constructed answers every query
with ordered bounds or reports corruption, as often as it is asked. -/
theorem open_total (listing : Listing) (options : DatabaseOptions) (s : σ) {w : World Bytes UInt8}
    (hcomplete : Complete w.files) (hfail : ¬Failing w.sched) (hcrash : ¬Crashing w.sched) :
    (∃ what w', Database.open listing false options (s, w) = .error (.exn (.corruption what))
      (s, w')) ∨
      ∃ db w', Database.open listing false options (s, w) = .ok db (s, w') ∧
        (∀ series t, AnswersOrReports (Database.get series t) db w'.toDisk) ∧
        (∀ series, AnswersOrReports (Database.latest series) db w'.toDisk) ∧
        ∀ series start stop, start ≤ stop →
          AnswersOrReports (Database.range series start stop) db w'.toDisk := by
  have hspec := spec_openDatabase hfail hcomplete listing options s w ⟨rfl, rfl⟩
    (List.suffix_refl _)
  revert hspec
  rcases Database.open listing false options (s, w) with ⟨db, s', w'⟩ | ⟨err | -, s', w'⟩
  · rintro ⟨⟨rfl, hdb, hfit⟩, -⟩
    exact Or.inr ⟨db, w', rfl, answersOrReports_of_allFit hdb hfit⟩
  · rintro ⟨rfl, what, rfl⟩
    exact Or.inl ⟨what, w', rfl⟩
  · exact fun hc ↦ absurd hc.1 hcrash

/-- A directory without a manifest is complete. -/
theorem complete_tornLog : Complete tornLog.files := by
  have hlen : (walFrame cpuRecord).length = 45 := by decide +kernel
  refine ⟨fun content hwal ↦ ?_, fun state hstate ↦ ?_, ?_⟩
  · rw [tornLog, OrderedMap.find?_insert, if_pos rfl] at hwal
    rw [← Option.some.inj hwal, List.length_append, hlen]
    decide
  · rw [loadManifestIn, tornLog, OrderedMap.find?_insert, if_neg (by decide)] at hstate
    rw [← Except.ok.inj hstate]
    simp
  · decide +kernel

/-- The statement on a directory whose log ends within a record. -/
theorem open_total_torn :
    (∃ what w', Database.open Listing.sorted false {} ((), tornLog) =
        .error (.exn (.corruption what)) ((), w')) ∨
      ∃ db w', Database.open Listing.sorted false {} ((), tornLog) = .ok db ((), w') ∧
        (∀ series t, AnswersOrReports (Database.get series t) db w'.toDisk) ∧
        (∀ series, AnswersOrReports (Database.latest series) db w'.toDisk) ∧
        ∀ series start stop, start ≤ stop →
          AnswersOrReports (Database.range series start stop) db w'.toDisk :=
  open_total Listing.sorted {} () complete_tornLog not_failing_nil not_crashing_nil

end AnyBytes

end ChronoStore
