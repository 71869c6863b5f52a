import ChronoStore.Codec.WalDamage
import ChronoStore.Engine.FileIo

/-!
# Runs of one log writer

What the log file can look like after any sequence of calls to one `WalWriter`, however the
operating system answers. `WriterRun` is such a sequence: the writer is opened, and then each call
returns or throws, under a schedule of its own. The file is always `written` — the content at
opening, or nothing after a reset, and then the encodings of the appends that returned — except that
the one call that put the writer into its failed state may have left a trace (`Torn`), which stays
the last.
-/

namespace ChronoStore

open FaultyDisk

/-- The member functions of the writer. -/
inductive WalCall
  | append (record : WalPutRecord)
  | sync
  | reset

def WalCall.run : WalCall → Prog WalWriter Unit
  | .append record => WalWriter.append record
  | .sync => WalWriter.sync
  | .reset => WalWriter.reset

/-- How a call ended: it returned, or it threw and left the writer usable, or it threw and left the
writer failed. -/
inductive CallOutcome
  | returned
  | refused
  | failed
deriving DecidableEq

/-- The outcome of a call that threw. -/
def CallOutcome.ofThrow (writer : WalWriter) : CallOutcome :=
  if writer.failed then .failed else .refused

/-- The calls of a run and how each ended; the writer and the disk after them. -/
inductive WriterRun (base : Bytes) :
    List (WalCall × CallOutcome) → WalWriter → Disk Bytes UInt8 → Prop
  | opened {σ : Type} {s s' : σ} {w w' : World Bytes UInt8} {durability : WalDurability}
      {writer : WalWriter} (hbase : (w.files.find? walName).getD [] = base)
      (hopen : WalWriter.open durability (s, w) = .ok writer (s', w')) :
      WriterRun base [] writer w'.toDisk
  | returned {history : List (WalCall × CallOutcome)} {writer writer' : WalWriter}
    {d : Disk Bytes UInt8}
      {sched : List Event} {w' : World Bytes UInt8} {call : WalCall}
      (before : WriterRun base history writer d)
      (hrun : call.run (writer, ⟨d, sched⟩) = .ok () (writer', w')) :
      WriterRun base (history ++ [(call, .returned)]) writer' w'.toDisk
  | threw {history : List (WalCall × CallOutcome)} {writer writer' : WalWriter}
    {d : Disk Bytes UInt8}
      {sched : List Event} {w' : World Bytes UInt8} {call : WalCall} {e : Error}
      (before : WriterRun base history writer d)
      (hrun : call.run (writer, ⟨d, sched⟩) = .error (.exn e) (writer', w')) :
      WriterRun base (history ++ [(call, .ofThrow writer')]) writer' w'.toDisk

/-- What a call that returned makes of the file. -/
def WalCall.writes (content : Bytes) : WalCall × CallOutcome → Bytes
  | (.append record, .returned) =>
    match encodeWalRecord record with
    | .ok encoded => content ++ encoded
    | .error _ => content
  | (.reset, .returned) => []
  | _ => content

/-- The content at opening, or nothing after a reset, and then the encodings of the appends that
returned. -/
def written (base : Bytes) (history : List (WalCall × CallOutcome)) : Bytes :=
  history.foldl WalCall.writes base

theorem written_concat (base : Bytes) (history : List (WalCall × CallOutcome))
    (last : WalCall × CallOutcome) :
    written base (history ++ [last]) = WalCall.writes (written base history) last := by
  rw [written, List.foldl_append]
  rfl

/-- What a call that put the writer into its failed state may have left behind. -/
def Torn (content : Bytes) : WalCall → Bytes → Prop
  | .append record, file =>
    ∃ encoded p, encodeWalRecord record = .ok encoded ∧ p <+: encoded ∧ file = content ++ p
  | .sync, file => file = content
  | .reset, file => file = content ∨ file = []

/-! ### One call -/

variable {S : List Event} {content : Bytes} {w₀ : WalWriter}

/-- The file has this content, and the writer is `w₀`. -/
def Holding (content : Bytes) (w₀ w : WalWriter) (d : Disk Bytes UInt8) : Prop :=
  w = w₀ ∧ d.files.find? walName = some content

/-- A usable writer passes the check, and the log stays as it is. -/
theorem spec_usable_holding (hw : w₀.failed = false) {E : Error → WalWriter →
    Disk Bytes UInt8 → Prop}
    {C : Disk Bytes UInt8 → Prop} :
    Spec S (Holding content w₀) WalWriter.ensureUsable (fun _ ↦ Holding content w₀) E C := by
  refine Spec.bind (Spec.state (R := fun s s' d ↦ s.failed = false ∧ Holding content w₀ s' d)
    fun s d h ↦ ⟨h.1 ▸ hw, h⟩) fun s ↦ Spec.assume fun hs ↦ ?_
  rw [hs]
  exact Spec.pure fun _ _ h ↦ h

/-- The writer has failed, and the file is what a failure of the call leaves. -/
def Failed (content : Bytes) (call : WalCall) (w : WalWriter) (d : Disk Bytes UInt8) : Prop :=
  w.failed = true ∧ ∃ file, d.files.find? walName = some file ∧ Torn content call file

/-- A synchronization leaves the file, also one that is reported as failed. -/
theorem find?_performAll_fsync {d : Disk Bytes UInt8} (hd : d.files.find? walName = some content)
    (n : ℕ) :
    (d.performAll ((.fsync walName : Step Bytes UInt8).truncated n)).files.find? walName =
      some content := by
  rcases Step.truncated_eq (s := (.fsync walName : Step Bytes UInt8)) (by simp) n with heq | heq
  · rw [heq]
    exact hd
  · rw [heq]
    exact hd

/-- A sync leaves the log as it is, also if it fails. -/
theorem spec_sync_holding (hw : w₀.failed = false) (call : WalCall)
    (htorn : Torn content call content) :
    Spec S (Holding content w₀) WalWriter.sync (fun _ ↦ Holding content w₀)
      (fun _ ↦ Failed content call) (fun _ ↦ True) := by
  refine Spec.bind (spec_usable_holding hw) fun _ ↦ Spec.onException (Spec.step ?_ ?_ ?_)
  · rintro w d ⟨rfl, hd⟩
    exact ⟨rfl, hd⟩
  · rintro w d n - ⟨rfl, hd⟩
    exact ⟨rfl, content, find?_performAll_fsync hd n, htorn⟩
  · exact fun _ _ _ _ ↦ trivial

/-- A reset leaves an empty log, or the old one, if it fails before the log has been cut. -/
theorem spec_reset_holding (hw : w₀.failed = false) :
    Spec S (Holding content w₀) WalWriter.reset
      (fun _ ↦ Holding [] { w₀ with sizeBytes := 0 }) (fun _ ↦ Failed content .reset)
      (fun _ ↦ True) := by
  have hcut : ∀ d : Disk Bytes UInt8, d.files.find? walName = some content →
      (d.perform (.truncate walName 0)).files.find? walName = some [] := by
    intro d hd
    rw [Disk.perform_files, Step.apply, hd]
    dsimp only
    rw [OrderedMap.find?_insert, if_pos rfl, List.take_zero]
  refine Spec.bind (spec_usable_holding hw) fun _ ↦ Spec.bind (Q := fun _ ↦ Holding [] w₀)
    (Spec.onException (Spec.bind (Q := fun _ ↦ Holding [] w₀) (Spec.step ?_ ?_ ?_) fun _ ↦
      Spec.step ?_ ?_ ?_)) fun _ ↦ Spec.update ?_
  · rintro w d ⟨rfl, hd⟩
    exact ⟨rfl, hcut d hd⟩
  · -- the truncation may have taken effect although it is reported as failed
    rintro w d n - ⟨rfl, hd⟩
    refine ⟨rfl, ?_⟩
    rcases Step.truncated_eq (s := (.truncate walName 0 : Step Bytes UInt8)) (by simp) n with
      heq | heq
    · rw [heq]
      exact ⟨content, hd, Or.inl rfl⟩
    · rw [heq]
      exact ⟨[], hcut d hd, Or.inr rfl⟩
  · exact fun _ _ _ _ ↦ trivial
  · rintro w d ⟨rfl, hd⟩
    exact ⟨rfl, hd⟩
  · rintro w d n - ⟨rfl, hd⟩
    exact ⟨rfl, [], find?_performAll_fsync hd n, Or.inr rfl⟩
  · exact fun _ _ _ _ ↦ trivial
  · rintro w d ⟨rfl, hd⟩
    exact ⟨rfl, hd⟩

/-- **The append** writes the whole encoding, or is refused before it writes, or fails with part of
the encoding written. -/
theorem spec_append_holding (record : WalPutRecord) (hw : w₀.failed = false)
    (hsize : w₀.sizeBytes = content.length) :
    Spec S (Holding content w₀) (WalWriter.append record)
      (fun _ w d ↦ ∃ encoded, encodeWalRecord record = .ok encoded ∧
        Holding (content ++ encoded) { w₀ with sizeBytes := (content ++ encoded).length } w d)
      (fun _ w d ↦ Holding content w₀ w d ∨ Failed content (.append record) w d)
      (fun _ ↦ True) := by
  refine Spec.bind (spec_usable_holding hw) fun _ ↦ ?_
  refine Spec.bind (Spec.ofExcept (Q := fun encoded w d ↦ encodeWalRecord record = .ok encoded ∧
    Holding content w₀ w d) (fun _ _ _ henc hd ↦ ⟨henc, hd⟩) fun _ _ _ _ hd ↦ Or.inl hd)
      fun encoded ↦ Spec.assume fun henc ↦ ?_
  refine Spec.bind (Spec.state (R := fun s s' d ↦ Holding content w₀ s' d)
    fun s d h ↦ h) fun s ↦ Spec.ite (fun _ ↦ Spec.throw fun _ _ hd ↦ Or.inl hd) fun _ ↦ ?_
  -- from here on every exception leaves the writer failed
  have htorn : ∀ {p : Bytes}, p <+: encoded → Torn content (.append record) (content ++ p) :=
    fun hp ↦ ⟨encoded, _, henc, hp, rfl⟩
  have hwrite := FaultyDisk.Spec.writeAll (S := S) walName encoded
    (Error.systemError "failed to append WAL")
    (Error.runtimeError "zero-byte write while appending WAL")
    (fun done ↦ Holding (content ++ done) w₀) (by
    rintro done piece w d - ⟨rfl, hd⟩
    refine ⟨rfl, ?_⟩
    rw [Disk.perform_files, Step.apply, hd]
    dsimp only
    rw [OrderedMap.find?_insert, if_pos rfl, List.append_assoc])
  have hsync : ∀ w₁ : WalWriter, w₁.failed = false →
      Spec S (Holding (content ++ encoded) w₁) WalWriter.sync
        (fun _ ↦ Holding (content ++ encoded) w₁) (fun _ ↦ Failed content (.append record))
        (fun _ ↦ True) := by
    intro w₁ hw₁
    refine (spec_sync_holding hw₁ .sync rfl).conseq (fun _ _ ↦ id) (fun _ _ _ ↦ id) ?_ fun _ ↦ id
    rintro - w d ⟨hfailed, file, hd, rfl⟩
    exact ⟨hfailed, _, hd, htorn (List.prefix_refl _)⟩
  refine Spec.onException ?_
  refine Spec.bind (Q := fun _ ↦ Holding (content ++ encoded) w₀) (hwrite.conseq ?_ (fun _ _ _ ↦ id)
    ?_ fun _ _ ↦ trivial) fun _ ↦ ?_
  · rintro w d ⟨rfl, hd⟩
    exact ⟨rfl, by rw [List.append_nil]; exact hd⟩
  · rintro e w d ⟨-, -, p, hp, rfl, hd⟩
    exact Or.inr ⟨rfl, _, hd, htorn hp⟩
  refine Spec.bind (Q := fun _ ↦ Holding (content ++ encoded)
    { w₀ with sizeBytes := (content ++ encoded).length }) (Spec.update ?_) fun _ ↦ ?_
  · rintro w d ⟨rfl, hd⟩
    exact ⟨by rw [hsize, List.length_append], hd⟩
  refine Spec.bind (Spec.state (R := fun _ ↦ Holding (content ++ encoded)
    { w₀ with sizeBytes := (content ++ encoded).length }) fun _ _ h ↦ h) fun s ↦
      Spec.ite (fun _ ↦ ?_) fun _ ↦ Spec.pure fun _ _ hd ↦ ⟨encoded, henc, hd⟩
  refine (hsync { w₀ with sizeBytes := (content ++ encoded).length } hw).conseq (fun _ _ ↦ id)
    (fun _ _ _ hd ↦ ⟨encoded, henc, hd⟩) ?_ fun _ ↦ id
  rintro - w d ⟨-, hfile⟩
  exact Or.inr ⟨rfl, hfile⟩

/-- **One call.** Where it returns the file is what the call writes; where it throws, nothing has
happened or the writer has failed. -/
theorem spec_walCall (call : WalCall) (hw : w₀.failed = false)
    (hsize : w₀.sizeBytes = content.length) :
    Spec S (Holding content w₀) call.run
      (fun _ w d ↦ Holding (WalCall.writes content (call, .returned))
        { w₀ with sizeBytes := (WalCall.writes content (call, .returned)).length } w d)
      (fun _ w d ↦ Holding content w₀ w d ∨ Failed content call w d) (fun _ ↦ True) := by
  cases call with
  | append record =>
    refine (spec_append_holding record hw hsize).post ?_
    rintro - w d ⟨encoded, henc, hd⟩
    simpa only [WalCall.writes, henc] using hd
  | sync =>
    refine (spec_sync_holding hw .sync rfl).conseq (fun _ _ ↦ id) ?_ (fun _ _ _ ↦ Or.inr) fun _ ↦ id
    have hsame : WalCall.writes content (.sync, .returned) = content := rfl
    rintro - w d ⟨rfl, hd⟩
    rw [hsame, ← hsize]
    exact ⟨rfl, hd⟩
  | reset =>
    exact (spec_reset_holding hw).conseq (fun _ _ ↦ id) (fun _ _ _ ↦ id) (fun _ _ _ ↦ Or.inr)
      fun _ ↦ id

/-- **A failed writer** refuses every call, and changes nothing. -/
theorem run_of_failed (call : WalCall) {w : WalWriter} (hw : w.failed = true)
    (world : World Bytes UInt8) : call.run (w, world) =
      .error (.exn (.runtimeError "WAL writer is in a failed state")) (w, world) := by
  have husable : WalWriter.ensureUsable (w, world) =
      .error (.exn (.runtimeError "WAL writer is in a failed state")) (w, world) := by
    rw [WalWriter.ensureUsable, bind_apply, Act.state]
    dsimp only
    rw [hw]
    rfl
  cases call with
  | append record => rw [WalCall.run, WalWriter.append, bind_apply, husable]
  | sync => rw [WalCall.run, WalWriter.sync, bind_apply, husable]
  | reset => rw [WalCall.run, WalWriter.reset, bind_apply, husable]

/-! ### Runs -/

/-- What holds of the file and the writer after any calls. Once the writer has failed, the first
call that failed is the last that left a trace. -/
def Shaped (base : Bytes) (history : List (WalCall × CallOutcome)) (w : WalWriter)
    (d : Disk Bytes UInt8) : Prop :=
  (w.failed = false ∧ d.files.find? walName = some (written base history) ∧
    w.sizeBytes = (written base history).length) ∨
  w.failed = true ∧ ∃ file before call after, history = before ++ (call, .failed) :: after ∧
    (∀ earlier ∈ before, earlier.2 ≠ .failed) ∧ (∀ later ∈ after, later.2 = .failed) ∧
    d.files.find? walName = some file ∧ Torn (written base before) call file

/-- A writer that has been opened holds the log that it has found. -/
theorem shaped_of_open {σ : Type} {s s' : σ} {w w' : World Bytes UInt8} {durability : WalDurability}
    {writer : WalWriter} (hopen : WalWriter.open durability (s, w) = .ok writer (s', w')) :
    Shaped ((w.files.find? walName).getD []) [] writer w'.toDisk := by
  have hspec : Spec w.sched (fun (_ : σ) d ↦ d.files = w.files) (WalWriter.open durability)
      (fun writer _ d ↦ writer = ⟨durability, ((w.files.find? walName).getD []).length, false⟩ ∧
        d.files.find? walName = some ((w.files.find? walName).getD []))
      (fun _ _ _ ↦ True) (fun _ ↦ True) := by
    refine Spec.bind (Q := fun _ _ d ↦
      d.files.find? walName = some ((w.files.find? walName).getD [])) ?_ fun _ ↦ ?_
    · cases hfile : w.files.find? walName with
      | some content =>
        refine Spec.reads (Reads.openAppend (J := fun _ ↦ True) trivial
          (F := fun f ↦ f.find? walName = some content) fun _ h ↦ h) (fun _ d hd ↦ by
            rw [hd, hfile]) (fun _ _ d _ hd ↦ by rw [hd, hfile]; rfl) (fun _ _ _ _ _ ↦ trivial)
            fun _ _ _ ↦ trivial
      | none =>
        refine Spec.bind (Spec.files (R := fun f _ d ↦ f.find? walName = none ∧ d.files = w.files)
          fun _ d hd ↦ ⟨hd ▸ hfile, hd⟩) fun f ↦ Spec.assume fun hf ↦ ?_
        rw [hf]
        refine Spec.step ?_ (fun _ _ _ _ _ ↦ trivial) fun _ _ _ _ ↦ trivial
        intro s d hd
        rw [Disk.perform_files, Step.apply, hd, hfile]
        rw [if_neg (by simp), OrderedMap.find?_insert, if_pos rfl]
        rfl
    · refine Spec.bind (Spec.reads (J := fun _ ↦ True)
        (Q := fun c _ d ↦ c = some ((w.files.find? walName).getD []) ∧
          d.files.find? walName = some ((w.files.find? walName).getD []))
        (Reads.lookup trivial (F := fun f ↦
          f.find? walName = some ((w.files.find? walName).getD [])) fun _ h ↦ h)
        (fun _ _ hd ↦ hd) (fun _ _ _ hc hd ↦ ⟨(Except.ok.inj hc).symm, hd⟩)
        (fun _ _ _ _ _ ↦ trivial) fun _ _ _ ↦ trivial) fun c ↦ Spec.assume fun hc ↦ ?_
      subst hc
      exact Spec.pure fun _ _ hd ↦ ⟨rfl, hd⟩
  have hend := hspec s w rfl (List.suffix_refl _)
  rw [hopen] at hend
  obtain ⟨⟨rfl, hfile⟩, -⟩ := hend
  exact Or.inl ⟨rfl, hfile, rfl⟩

/-- No call has failed as long as the writer is usable. -/
theorem WriterRun.not_failed {base : Bytes} {history : List (WalCall × CallOutcome)} {w : WalWriter}
    {d : Disk Bytes UInt8} (h : WriterRun base history w d) (hw : w.failed = false) :
    ∀ past ∈ history, past.2 ≠ .failed := by
  induction h with
  | opened hbase hopen => simp
  | @returned history writer writer' d sched w' call _ hrun ih =>
    have hbefore : writer.failed = false := by
      by_contra hf
      rw [run_of_failed call (by simpa using hf)] at hrun
      cases hrun
    intro past hpast
    rcases List.mem_append.1 hpast with hpast | hpast
    · exact ih hbefore past hpast
    · rw [List.mem_singleton.1 hpast]
      simp
  | @threw history writer writer' d sched w' call e _ hrun ih =>
    have hbefore : writer.failed = false := by
      by_contra hf
      rw [run_of_failed call (by simpa using hf)] at hrun
      cases hrun
      exact hf hw
    intro past hpast
    rcases List.mem_append.1 hpast with hpast | hpast
    · exact ih hbefore past hpast
    · rw [List.mem_singleton.1 hpast, CallOutcome.ofThrow, hw]
      simp

/-- Every run of a writer leaves a log of that shape. -/
theorem WriterRun.shaped {base : Bytes} {history : List (WalCall × CallOutcome)} {w : WalWriter}
    {d : Disk Bytes UInt8} (h : WriterRun base history w d) : Shaped base history w d := by
  induction h with
  | opened hbase hopen => exact hbase ▸ shaped_of_open hopen
  | @returned history writer writer' d sched w' call _ hrun ih =>
    rcases ih with ⟨hw, hfile, hsize⟩ | ⟨hw, -⟩
    · have hend := spec_walCall (S := sched) call hw hsize writer ⟨d, sched⟩ ⟨rfl, hfile⟩
        (List.suffix_refl _)
      rw [hrun] at hend
      obtain ⟨⟨rfl, hfile'⟩, -⟩ := hend
      rw [← written_concat] at hfile'
      refine Or.inl ⟨hw, hfile', ?_⟩
      rw [written_concat]
    · rw [run_of_failed call hw] at hrun
      cases hrun
  | @threw history writer writer' d sched w' call e before hrun ih =>
    rcases ih with ⟨hw, hfile, hsize⟩ |
      ⟨hw, file, earlier, torn, after, rfl, hearlier, hafter, hfile, htorn⟩
    · have hend := spec_walCall (S := sched) call hw hsize writer ⟨d, sched⟩ ⟨rfl, hfile⟩
        (List.suffix_refl _)
      rw [hrun] at hend
      rcases hend with ⟨rfl, hfile'⟩ | ⟨hfailed, file, hfile', htorn⟩
      · -- the call was refused before it did anything
        have hsame : written base (history ++ [(call, .ofThrow writer')]) =
            written base history := by
          rw [written_concat, CallOutcome.ofThrow, hw]
          cases call <;> rfl
        exact Or.inl ⟨hw, hsame.symm ▸ hfile', hsame.symm ▸ hsize⟩
      · have hlast : CallOutcome.ofThrow writer' = .failed := by
          rw [CallOutcome.ofThrow, hfailed, if_pos rfl]
        rw [hlast]
        exact Or.inr ⟨hfailed, file, history, call, [], rfl, before.not_failed hw, by simp, hfile',
          htorn⟩
    · rw [run_of_failed call hw] at hrun
      cases hrun
      have hlast : CallOutcome.ofThrow writer = .failed := by
        rw [CallOutcome.ofThrow, hw, if_pos rfl]
      rw [hlast]
      refine Or.inr ⟨hw, file, earlier, torn, after ++ [(call, .failed)],
        by simp, hearlier, ?_, hfile,
        htorn⟩
      intro later hlater
      rcases List.mem_append.1 hlater with hlater | hlater
      · exact hafter later hlater
      · rw [List.mem_singleton.1 hlater]

/-- **The shape of the log file over any run of one writer.** While the writer is usable the file is
the content at opening, or nothing after a reset, followed by the encodings of the appends that
returned, in order and once each, and the size is its length. Once the writer has failed, the file
is that string as it was before the call that failed, with what that call can have left behind, and
no later call changes anything. -/
theorem walFile_of_writerRun {base : Bytes} {history : List (WalCall × CallOutcome)} {w : WalWriter}
    {d : Disk Bytes UInt8} (h : WriterRun base history w d) :
    (w.failed = false → d.files.find? walName = some (written base history) ∧
      w.sizeBytes = (written base history).length) ∧
    (w.failed = true →
      (∃ file before call after, history = before ++ (call, .failed) :: after ∧
        (∀ earlier ∈ before, earlier.2 ≠ .failed) ∧ (∀ later ∈ after, later.2 = .failed) ∧
        d.files.find? walName = some file ∧ Torn (written base before) call file) ∧
      ∀ (call : WalCall) (sched : List Event), ∃ e,
        call.run (w, ⟨d, sched⟩) = .error (.exn e) (w, ⟨d, sched⟩)) := by
  rcases h.shaped with ⟨hw, hfile, hsize⟩ | ⟨hw, hshape⟩
  · exact ⟨fun _ ↦ ⟨hfile, hsize⟩, fun hw' ↦ absurd hw' (by simp [hw])⟩
  · exact ⟨fun hw' ↦ absurd hw' (by simp [hw]), fun _ ↦
      ⟨hshape, fun call sched ↦ ⟨_, run_of_failed call hw _⟩⟩⟩

/-- A run on a new log in which a write of the append fails after three bytes. -/
theorem walFile_of_writerRun_torn :
    ∃ w d, WriterRun [] [(.append cpuRecord, .failed)] w d ∧ w.failed = true ∧
      ∃ p, p <+: walFrame cpuRecord ∧ d.files.find? walName = some p := by
  have henc : encodeWalRecord cpuRecord = .ok (walFrame cpuRecord) :=
    encodeWalRecord_of_accepts (by decide +kernel)
  have hopen : WriterRun [] [] ⟨.buffered, 0, false⟩
      ⟨.insert .empty walName [], [.create walName]⟩ :=
    @WriterRun.opened _ Unit () () ⟨⟨.empty, []⟩, []⟩ _ _ _ rfl rfl
  obtain ⟨w, world, e, hrun, hfailed⟩ : ∃ w world e, (WalCall.append cpuRecord).run
      (⟨.buffered, 0, false⟩, ⟨⟨.insert .empty walName [], [.create walName]⟩,
        [.short 3, .fail 0]⟩) =
        .error (.exn e) (w, world) ∧ w.failed = true := by
    refine ⟨⟨.buffered, 0, true⟩, ?world, .systemError "failed to append WAL", ?run, rfl⟩
    case run =>
      rw [WalCall.run, WalWriter.append, bind_apply]
      change ((Act.ofExcept (encodeWalRecord cpuRecord) : Prog WalWriter Bytes) >>= _) _ = _
      rw [henc]
      rfl
  have htorn : WriterRun [] [(.append cpuRecord, .failed)] w world.toDisk := by
    have := WriterRun.threw hopen hrun
    rwa [CallOutcome.ofThrow, hfailed, if_pos rfl] at this
  refine ⟨w, world.toDisk, htorn, hfailed, ?_⟩
  obtain ⟨⟨file, before, call, after, hsplit, -, -, hfile, hshape⟩, -⟩ :=
    (walFile_of_writerRun htorn).2 hfailed
  obtain ⟨rfl, rfl⟩ : before = [] ∧ call = .append cpuRecord := by
    rcases before with - | ⟨first, rest⟩
    · simp only [List.nil_append, List.cons.injEq, Prod.mk.injEq] at hsplit
      exact ⟨rfl, hsplit.1.1.symm⟩
    · simp at hsplit
  obtain ⟨encoded, p, henc', hp, hp'⟩ := hshape
  obtain rfl : walFrame cpuRecord = encoded := Except.ok.inj (henc.symm.trans henc')
  rw [hp'] at hfile
  exact ⟨p, hp, hfile⟩

end ChronoStore
