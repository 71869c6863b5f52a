import ChronoStore.Foundation.Footprint
import ChronoStore.Protocol.Limits

/-!
# Exceptions of calls that have changed nothing

A call that throws before it has changed a file may still mark the engine as failed. Everything else
of the engine — table, manifest, segments, counter, and what the writer knows of the log — is then
as it was, because each operation changes its state only after it has changed a file
(`Request.careful`).

Whether the engine is marked depends on where the exception comes from. Queries and the existence
check of a put are outside of the guarded parts, so the engine stays usable; a failing call inside
of one marks it, even when it is a synchronization and no file has changed.
-/

namespace ChronoStore

open FaultyDisk

/-- The writer, whether or not it is marked as failed. -/
def WalWriter.unmarked (w : WalWriter) : WalWriter := { w with failed := false }

/-- The engine, whether or not it or its writer is marked as failed. -/
def StorageEngine.unmarked (e : StorageEngine) : StorageEngine :=
  { e with failed := false, walWriter := e.walWriter.unmarked }

/-! ### Writing files -/

section Files

variable {σ : Type}

theorem grows_syncFile (name : Bytes) : Grows (syncFile name : Prog σ Unit) :=
  (Grows.of_quiet (Quiet.probe _)).bind fun _ ↦ (Grows.step _ _).bind fun _ ↦
    Grows.of_quiet (Quiet.probe _)

theorem grows_replaceFile (temporary final : Bytes) :
    Grows (replaceFile temporary final : Prog σ Unit) :=
  (Grows.step _ _).bind fun _ ↦ (Grows.of_quiet (Quiet.probe _)).bind fun _ ↦
    (Grows.step _ _).bind fun _ ↦ Grows.of_quiet (Quiet.probe _)

/-- An atomic write starts with the creation of the temporary file. -/
theorem careful_atomicWriteFile (name bytes : Bytes) (A : σ → Prop) :
    Careful A (atomicWriteFile name bytes : Prog σ Unit) (fun _ _ ↦ False) A :=
  (Careful.step_mutates rfl _ A).bind_grows fun _ ↦ Careful.ite (Grows.of_quiet (Quiet.throw _))
    ((Grows.writeAll _ _ _ _).bind fun _ ↦ (grows_syncFile _).bind fun _ ↦ grows_replaceFile _ _)

theorem grows_storeManifest (state : ManifestState) : Grows (storeManifest state : Prog σ Unit) :=
  (Grows.of_quiet (Quiet.ofExcept _)).bind fun _ ↦ careful_atomicWriteFile _ _ _

/-- A segment is encoded before a file is changed, and nothing is owed once it is written. -/
theorem careful_writeSegmentFile (name : Bytes) (blocks : List SegmentBlock) (A : σ → Prop) :
    Careful A (writeSegmentFile name blocks : Prog σ SegmentFileMetadata) (fun _ _ ↦ False) A :=
  (Careful.of_quiet (Quiet.ofExcept _) A).bind fun _ ↦
    (careful_atomicWriteFile _ _ A).bind_grows fun _ ↦ Grows.of_quiet (Quiet.pure _)

theorem quiet_openSegment (name : Bytes) : Quiet (openSegment name : Prog σ SegmentReader) :=
  Quiet.of_reads fun _ ↦ ⟨_, fun _ ↦ reads_openSegment_in name⟩

/-- Merging segments is quiet. -/
theorem quiet_mergeSegments (segments : List SegmentReader) :
    Quiet (StorageEngine.mergeSegments segments : Prog σ SeriesMap) :=
  Quiet.foldlM (fun _ segment ↦ (Quiet.of_reads fun _ ↦
    ⟨_, fun _ ↦ reads_blocks (reads_readFileBytes_in segment.path) segment⟩).bind
      fun _ ↦ Quiet.pure _) _ _

end Files

/-! ### The writer -/

section Writer

variable {w₀ : WalWriter}

theorem quiet_walUsable : Quiet WalWriter.ensureUsable :=
  Quiet.state.bind fun _ ↦ Quiet.ite (Quiet.throw _) (Quiet.pure _)

/-- A sync that throws leaves the writer as it was, up to its mark. -/
theorem careful_walSync : Careful (fun w ↦ w = w₀) WalWriter.sync (fun _ w ↦ w = w₀)
    fun w ↦ w.unmarked = w₀.unmarked := by
  refine ((Careful.of_quiet quiet_walUsable _).conseq (fun _ ↦ id) (fun _ _ ↦ id) ?_).bind fun _ ↦
    Careful.onException (Careful.step _ _ _) ?_
  · rintro w rfl
    rfl
  · rintro w rfl
    rfl

theorem grows_walSync : Grows WalWriter.sync := Grows.of_careful fun _ ↦ careful_walSync

theorem grows_walReset : Grows WalWriter.reset :=
  (Grows.of_quiet quiet_walUsable).bind fun _ ↦
    (Grows.onException ((Grows.step _ _).bind fun _ ↦ Grows.step _ _)).bind fun _ ↦ Grows.update _

/-- An append changes the writer only after it has written. -/
theorem careful_append (r : WalPutRecord) : Careful (fun w ↦ w = w₀) (WalWriter.append r)
    (fun _ _ ↦ False) fun w ↦ w.unmarked = w₀.unmarked := by
  have hquiet : ∀ {α : Type} {m : Prog WalWriter α}, Quiet m →
      Careful (fun w ↦ w = w₀) m (fun _ w ↦ w = w₀) fun w ↦ w.unmarked = w₀.unmarked := fun hm ↦
    (Careful.of_quiet hm _).conseq (fun _ ↦ id) (fun _ _ ↦ id) fun w hw ↦ by rw [hw]
  have hthrow : ∀ {α : Type} (err : Error), Careful (fun w ↦ w = w₀)
      (Act.throw err : Prog WalWriter α) (fun _ _ ↦ False) fun w ↦ w.unmarked = w₀.unmarked := by
    rintro α err S d₀ s w hs -
    exact hs.imp fun hw ↦ by rw [hw]
  refine (hquiet quiet_walUsable).bind fun _ ↦ ?_
  by_cases hacc : WalAccepts r
  · have hne : walFrame r ≠ [] := by
      intro hnil
      have hlen := length_walFrame r
      rw [hnil, List.length_nil] at hlen
      unfold walHeaderSize at hlen
      omega
    rw [encodeWalRecord_of_accepts hacc, Act.ofExcept_ok, pure_bind]
    refine (hquiet Quiet.state).bind fun _ ↦ Careful.ite (hthrow _) (Careful.onException
      ((Careful.writeAll _ hne _ _ _).bind_grows fun _ ↦ (Grows.update _).bind fun _ ↦
        (Grows.of_quiet Quiet.state).bind fun _ ↦
          Careful.ite grows_walSync (Grows.of_quiet (Quiet.pure _))) ?_)
    rintro w rfl
    rfl
  · obtain ⟨what, herr⟩ := encodeWalRecord_of_not_accepts hacc
    rw [herr, Act.ofExcept_error, Act.throw_bind]
    exact hthrow _

end Writer

/-! ### The engine -/

section Engine

variable {e₀ : StorageEngine}

/-- What only looks leaves the engine as it was. -/
theorem careful_of_quiet {α : Type} {m : Prog StorageEngine α} (h : Quiet m) :
    Careful (fun e ↦ e = e₀) m (fun _ e ↦ e = e₀) fun e ↦ e.unmarked = e₀.unmarked :=
  (Careful.of_quiet h _).conseq (fun _ ↦ id) (fun _ _ ↦ id) fun e he ↦ by rw [he]

/-- A `try` block that marks the engine is careful if what it guards is. -/
theorem careful_guarded {α : Type} {m : Prog StorageEngine α} {Q : α → StorageEngine → Prop}
    (h : Careful (fun e ↦ e = e₀) m Q fun e ↦ e.unmarked = e₀.unmarked) :
    Careful (fun e ↦ e = e₀) (StorageEngine.guarded m) Q fun e ↦ e.unmarked = e₀.unmarked :=
  Careful.onException h fun _ he ↦ he

/-- A member function of the writer. -/
theorem careful_onWriter {m : Prog WalWriter Unit} {Q : WalWriter → WalWriter → Prop}
    (h : ∀ w₀, Careful (fun w ↦ w = w₀) m (fun _ ↦ Q w₀) fun w ↦ w.unmarked = w₀.unmarked) :
    Careful (fun e ↦ e = e₀) (StorageEngine.onWriter m)
      (fun _ e ↦ ∃ w, Q e₀.walWriter w ∧ e = { e₀ with walWriter := w })
      fun e ↦ e.unmarked = e₀.unmarked := by
  refine (Careful.zoom h e₀).conseq (fun _ ↦ id) (fun _ _ ↦ id) ?_
  rintro e ⟨w, hw, rfl⟩
  rw [StorageEngine.unmarked, StorageEngine.unmarked, hw]

theorem careful_syncEngine : Careful (fun e ↦ e = e₀)
    (StorageEngine.guarded (StorageEngine.onWriter WalWriter.sync)) (fun _ e ↦ e = e₀)
    fun e ↦ e.unmarked = e₀.unmarked := by
  refine careful_guarded
    ((careful_onWriter fun _ ↦ careful_walSync).conseq (fun _ ↦ id) ?_ fun _ ↦ id)
  rintro _ e ⟨w, rfl, rfl⟩
  rfl

/-- The existence check of a put is quiet. -/
theorem quiet_contains (series : SeriesKey) (t : Timestamp) :
    Quiet (StorageEngine.contains series t) :=
  Quiet.state.bind fun e ↦ Quiet.of_reads fun _ ↦
    ⟨_, fun _ ↦ reads_containsAnywhere_in e.memtable e.segments series t⟩

/-- A put changes the engine only after it has written to the log. -/
theorem careful_put (series : SeriesKey) (sample : Sample) : Careful (fun e ↦ e = e₀)
    (StorageEngine.put series sample) (fun _ _ ↦ False) fun e ↦ e.unmarked = e₀.unmarked := by
  refine (careful_of_quiet quiet_ensureUsable).bind fun _ ↦ ?_
  refine (careful_of_quiet (quiet_contains _ _)).bind fun _ ↦ ?_
  refine careful_guarded ?_
  refine Careful.bind_grows ((careful_onWriter fun _ ↦ careful_append ⟨series, sample⟩).conseq
    (fun _ ↦ id) (fun _ _ h ↦ h.choose_spec.1) fun _ ↦ id) fun _ ↦ ?_
  exact (Grows.update _).bind fun _ ↦ Careful.ite (Grows.of_quiet (Quiet.pure _)) (Grows.update _)

/-- A flush changes the engine only after it has written the segment file. -/
theorem careful_flush : Careful (fun e ↦ e = e₀) StorageEngine.flush (fun _ _ ↦ True)
    fun e ↦ e.unmarked = e₀.unmarked := by
  refine (careful_of_quiet quiet_ensureUsable).bind fun _ ↦ ?_
  refine (careful_of_quiet Quiet.state).bind fun _ ↦ ?_
  refine Careful.ite (careful_syncEngine.conseq (fun _ ↦ id) (fun _ _ _ ↦ trivial) fun _ ↦ id) ?_
  refine (careful_guarded (Q := fun _ _ ↦ False) ?_).conseq (fun _ ↦ id) (fun _ _ ↦ False.elim)
    fun _ ↦ id
  refine (careful_of_quiet Quiet.state).bind fun _ ↦ ?_
  refine (careful_of_quiet (Quiet.ofExcept _)).bind fun _ ↦ ?_
  refine (careful_of_quiet (Quiet.ofExcept _)).bind fun _ ↦ ?_
  -- the segment file is the first thing that is written
  refine Careful.bind_grows ((careful_writeSegmentFile _ _ _).conseq (fun _ ↦ id) (fun _ _ ↦ id)
    fun e he ↦ by rw [he]) fun _ ↦ ?_
  refine (Grows.of_quiet (quiet_openSegment _)).bind fun _ ↦ ?_
  refine (grows_storeManifest _).bind fun _ ↦ ?_
  refine (Grows.update _).bind fun _ ↦ ?_
  exact (Grows.zoom grows_walReset).bind fun _ ↦ Grows.update _

/-- A compaction changes the engine only after it has written the segment file. -/
theorem careful_compact : Careful (fun e ↦ e = e₀) StorageEngine.compact (fun _ _ ↦ True)
    fun e ↦ e.unmarked = e₀.unmarked := by
  have hquiet : ∀ {m : Prog StorageEngine Unit}, Quiet m →
    Careful (fun e ↦ e = e₀) m (fun _ _ ↦ True)
      fun e ↦ e.unmarked = e₀.unmarked := fun h ↦
    (careful_of_quiet h).conseq (fun _ ↦ id) (fun _ _ _ ↦ trivial) fun _ ↦ id
  refine (careful_of_quiet quiet_ensureUsable).bind fun _ ↦ ?_
  refine (careful_of_quiet Quiet.state).bind fun _ ↦ ?_
  refine Careful.ite (hquiet (Quiet.pure _)) (careful_guarded ?_)
  refine (careful_of_quiet Quiet.state).bind fun _ ↦ ?_
  refine (careful_of_quiet (quiet_mergeSegments _)).bind fun _ ↦ ?_
  refine Careful.ite (hquiet (Quiet.throw _)) ?_
  refine Careful.conseq (Q := fun _ _ ↦ False) ?_ (fun _ ↦ id) (fun _ _ ↦ False.elim) fun _ ↦ id
  refine (careful_of_quiet (Quiet.ofExcept _)).bind fun _ ↦ ?_
  refine (careful_of_quiet (Quiet.ofExcept _)).bind fun _ ↦ ?_
  refine Careful.bind_grows ((careful_writeSegmentFile _ _ _).conseq (fun _ ↦ id) (fun _ _ ↦ id)
    fun e he ↦ by rw [he]) fun _ ↦ ?_
  refine (Grows.of_quiet (quiet_openSegment _)).bind fun _ ↦ ?_
  refine (grows_storeManifest _).bind fun _ ↦ ?_
  exact (Grows.update _).bind fun _ ↦ Grows.forM (fun _ ↦ Grows.tryStep _) _

/-- **Every request changes a file before it changes the engine.** -/
theorem Request.careful (r : Request) : Careful (fun e ↦ e = e₀) r.run (fun _ _ ↦ True)
    fun e ↦ e.unmarked = e₀.unmarked := by
  have hquery : r.writes = false → Careful (fun e ↦ e = e₀) r.run (fun _ _ ↦ True)
      fun e ↦ e.unmarked = e₀.unmarked := fun hr ↦
    (careful_of_quiet (Request.quiet hr)).conseq (fun _ ↦ id) (fun _ _ _ ↦ trivial) fun _ ↦ id
  cases r with
  | put series sample =>
    exact (careful_put series sample).conseq (fun _ ↦ id) (fun _ _ ↦ False.elim) fun _ ↦ id
  | sync =>
    exact (careful_of_quiet quiet_ensureUsable).bind fun _ ↦
      careful_syncEngine.conseq (fun _ ↦ id) (fun _ _ _ ↦ trivial) fun _ ↦ id
  | flush => exact careful_flush
  | compact => exact careful_compact
  | _ => exact hquery rfl

end Engine

/-! ### Exceptions without a trace -/

section Throws

variable {e e' : StorageEngine} {d : Disk Bytes UInt8} {sched : List Event} {err : Error}
  {w : World Bytes UInt8}

/-- An exception from a guarded part marks the engine. -/
theorem failed_of_guarded {α : Type} {m : Prog StorageEngine α}
    {x : StorageEngine × World Bytes UInt8}
    (h : StorageEngine.guarded m x = .error (.exn err) (e', w)) : e'.failed = true := by
  rw [StorageEngine.guarded, Act.onException] at h
  revert h
  rcases m x with ⟨a, y⟩ | ⟨err' | -, y⟩
  · intro h
    cases h
  · intro h
    obtain ⟨-, hy⟩ := EStateM.Result.error.inj h
    rw [← (Prod.mk.inj hy).1]
    rfl
  · intro h
    cases h

/-- An exception of a flush or a compaction marks the engine. -/
theorem failed_of_maintenance (hfailed : e.failed = false) {r : Request}
    (hr : r = .flush ∨ r = .compact)
    (hrun : r.run (e, ⟨d, sched⟩) = .error (.exn err) (e', w)) : e'.failed = true := by
  rcases hr with rfl | rfl
  · rw [Request.run, StorageEngine.flush, StorageEngine.ensureUsable_bind hfailed] at hrun
    change (if _ then _ else _ : Prog StorageEngine Unit) (e, ⟨d, sched⟩) = _ at hrun
    split at hrun
    · exact failed_of_guarded hrun
    · exact failed_of_guarded hrun
  · rw [Request.run, StorageEngine.compact, StorageEngine.ensureUsable_bind hfailed] at hrun
    change (if _ then _ else _ : Prog StorageEngine Unit) (e, ⟨d, sched⟩) = _ at hrun
    split at hrun
    · cases hrun
    · exact failed_of_guarded hrun

/-- Where an exception of a put comes from. -/
theorem put_throws_cases (hfailed : e.failed = false) {series : SeriesKey} {sample : Sample}
    (hrun : StorageEngine.put series sample (e, ⟨d, sched⟩) = .error (.exn err) (e', w)) :
    (StorageEngine.contains series sample.timestamp (e, ⟨d, sched⟩) = .error (.exn err) (e', w) ∧
        e' = e) ∨
      (∃ found x, StorageEngine.contains series sample.timestamp (e, ⟨d, sched⟩) = .ok found x) ∧
        e'.failed = true := by
  rw [StorageEngine.put, StorageEngine.ensureUsable_bind hfailed, bind_apply] at hrun
  have hquiet := quiet_contains series sample.timestamp sched e d e ⟨d, sched⟩ ⟨rfl, rfl⟩
    (List.suffix_refl _)
  revert hrun hquiet
  rcases StorageEngine.contains series sample.timestamp (e, ⟨d, sched⟩) with
    ⟨found, x⟩ | ⟨err' | -, e'', w'⟩
  · exact fun hrun _ ↦ Or.inr ⟨⟨found, x, rfl⟩, failed_of_guarded hrun⟩
  · intro hrun hquiet
    obtain ⟨herr, hstate⟩ := EStateM.Result.error.inj hrun
    obtain ⟨rfl, rfl⟩ := Prod.mk.inj hstate
    exact Or.inl ⟨by rw [herr], hquiet.1⟩
  · intro h
    cases h

/-- **A call that throws and has changed nothing.** Take any engine that has not failed, any
request, and any answers of the operating system. If the request throws and no file was created,
written, renamed, cut or removed, then the files and everything of the engine but its marks are as
they were, and either the engine is marked as failed or it is as it was altogether. It is as it was
if the request is a query, or a put whose existence check throws. It is marked if the request is a
flush or a compaction, or a put of a record that fits the log whose existence check returns. -/
theorem throw_without_trace (hfailed : e.failed = false) (r : Request)
    (hrun : r.run (e, ⟨d, sched⟩) = .error (.exn err) (e', w))
    (hnone : ∀ t ∈ w.log.drop d.log.length, t.mutates = false) :
    w.files = d.files ∧ e'.unmarked = e.unmarked ∧ (e'.failed = false → e' = e) ∧
      (r.writes = false → e' = e) ∧
      (∀ series sample, r = .put series sample →
        (∀ err' x, StorageEngine.contains series sample.timestamp (e, ⟨d, sched⟩) =
          .error (.exn err') x → e' = e) ∧
        ((∃ found x, StorageEngine.contains series sample.timestamp (e, ⟨d, sched⟩) = .ok found x) →
          e.Loggable ⟨series, sample⟩ → e'.failed = true)) ∧
      (r = .flush ∨ r = .compact → e'.failed = true) := by
  obtain ⟨hfiles, hmarks⟩ := (Request.careful r).of_throw rfl hrun hnone
  have hquery : r.writes = false → e' = e := by
    intro hr
    have hquiet := Request.quiet hr sched e d e ⟨d, sched⟩ ⟨rfl, rfl⟩ (List.suffix_refl _)
    rw [hrun] at hquiet
    exact hquiet.1
  have hmaintenance := @failed_of_maintenance e e' d sched err w hfailed r
  refine ⟨hfiles, hmarks, fun hnot ↦ ?_, hquery, ?_, fun hr ↦ hmaintenance hr hrun⟩
  · cases r with
    | put series sample =>
      rcases put_throws_cases hfailed hrun with ⟨-, rfl⟩ | ⟨-, hmarked⟩
      · rfl
      · rw [hnot] at hmarked
        cases hmarked
    | sync =>
      rw [Request.run, StorageEngine.sync, StorageEngine.ensureUsable_bind hfailed] at hrun
      rw [failed_of_guarded hrun] at hnot
      cases hnot
    | flush =>
      rw [hmaintenance (Or.inl rfl) hrun] at hnot
      cases hnot
    | compact =>
      rw [hmaintenance (Or.inr rfl) hrun] at hnot
      cases hnot
    | _ => exact hquery rfl
  · rintro series sample rfl
    rcases put_throws_cases hfailed hrun with ⟨hcheck, rfl⟩ | ⟨⟨found, x, hcheck⟩, hmarked⟩
    · refine ⟨fun _ _ _ ↦ rfl, fun hreturns ↦ ?_⟩
      obtain ⟨found, x, hreturns⟩ := hreturns
      rw [hcheck] at hreturns
      cases hreturns
    · refine ⟨fun err' x' hthrows ↦ ?_, fun _ _ ↦ hmarked⟩
      rw [hcheck] at hthrows
      cases hthrows

end Throws

/-- A flush of one record whose first synchronization fails: nothing but the marks differs. -/
theorem throw_without_trace_flush :
    ∃ m e, Session OrderedMap.empty [openCall, putCall cpuRecord] m ∧
    m.engine = some e ∧ e.failed = false ∧ ∃ err e' w,
      Request.run .flush (e, ⟨m.disk, [.fail 0]⟩) = .error (.exn err) (e', w) ∧
        w.files = m.disk.files ∧ e'.unmarked = e.unmarked ∧ e'.failed = true := by
  obtain ⟨m, h, hend⟩ := @exists_session OrderedMap.empty [openCall, putCall cpuRecord]
    (fun m ↦ m.engine.any fun e ↦ !e.failed &&
      match Request.run .flush (e, ⟨m.disk, [.fail 0]⟩) with
        | .error (.exn _) (_, w) => (w.log.drop m.disk.log.length).all (!·.mutates)
        | _ => false) (by decide +kernel)
  obtain ⟨e, he, hend⟩ := (Option.any_eq_true _ _).1 hend
  obtain ⟨hfailed, hthrows⟩ := Bool.and_eq_true_iff.1 hend
  rw [Bool.not_eq_true'] at hfailed
  split at hthrows
  · rename_i err e' w hrun
    have hnone : ∀ t ∈ w.log.drop m.disk.log.length, t.mutates = false := by
      simpa only [List.all_eq_true, Bool.not_eq_true'] using hthrows
    obtain ⟨hfiles, hmarks, -, -, -, hmarked⟩ := throw_without_trace hfailed .flush hrun hnone
    exact ⟨m, e, h, he, hfailed, err, e', w, hrun, hfiles, hmarks, hmarked (Or.inl rfl)⟩
  · cases hthrows

/-- **A synchronization that fails changes no file and marks the engine.** -/
theorem flush_of_failing_fsync : ∃ d, Session OrderedMap.empty [openCall] ⟨some newEngine, d⟩ ∧
    ∃ err e', StorageEngine.flush (newEngine, ⟨d, [.fail 0]⟩) = .error (.exn err) (e', ⟨d, []⟩) ∧
      newEngine.failed = false ∧ e'.failed = true := by
  obtain ⟨d, -, hsession, -⟩ := exists_opened
  exact ⟨d, hsession, _, _, rfl, rfl, rfl⟩

end ChronoStore
