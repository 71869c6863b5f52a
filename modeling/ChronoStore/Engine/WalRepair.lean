import ChronoStore.Codec.WalReplay
import ChronoStore.Engine.FileIo

/-!
# Repairing the tail of the log

`repair_wal_tail` on a directory with any content. After a replay that came to an end it cuts the
log down to the frames that were replayed, and what is left is a log that can be appended to: it
replays to the same records, and so does every log obtained from it by appending records and, behind
them, part of one more. The cycle of interruption and repair can therefore go on for ever.

A result that does not fit the length of the file makes the repair throw before it has changed
anything.
-/

namespace ChronoStore

open FaultyDisk

variable {σ : Type} {S : List Event} {f : Directory} {s₀ : σ}

/-- A reader finds the files `f`, and the program has not changed its state. -/
def Finds (f : Directory) (s₀ s : σ) (d : Disk Bytes UInt8) : Prop := s = s₀ ∧ d.files = f

/-- A program that only reads, where no call fails. -/
theorem Spec.finds {α : Type} {m : Prog σ α} {r : Except Error α} {F : Directory → Prop}
    (hfail : ¬Failing S) (h : Reads S Error.IsIo F m r) (hf : F f) :
    Spec S (Finds f s₀) m (fun a s d ↦ r = .ok a ∧ Finds f s₀ s d)
      (fun e s d ↦ r = .error e ∧ Finds f s₀ s d) (fun _ ↦ True) :=
  FaultyDisk.Spec.reads h (fun _ _ hd ↦ hd.2.symm ▸ hf) (fun _ _ _ hr hd ↦ ⟨hr, hd⟩)
    (fun _ _ _ hr hd ↦ ⟨hr.resolve_right fun h ↦ hfail h.1, hd⟩) fun _ _ _ ↦ trivial

/-- A program that reads what is there, where no call fails. -/
theorem Spec.finds_ok {α : Type} {m : Prog σ α} {a : α} {F : Directory → Prop}
    {E : Error → σ → Disk Bytes UInt8 → Prop} (hfail : ¬Failing S)
    (h : Reads S Error.IsIo F m (.ok a))
    (hf : F f) :
    Spec S (Finds f s₀) m (fun b s d ↦ b = a ∧ Finds f s₀ s d) E (fun _ ↦ True) := by
  refine (Spec.finds hfail h hf).conseq (fun _ _ ↦ id) ?_ ?_ fun _ ↦ id
  · rintro b s d ⟨hb, hd⟩
    exact ⟨(Except.ok.inj hb).symm, hd⟩
  · rintro e s d ⟨he, -⟩
    cases he

/-- A step, where no call fails. -/
theorem Spec.performs {step : Step Bytes UInt8} {onFail : Error}
    {E : Error → σ → Disk Bytes UInt8 → Prop} (hfail : ¬Failing S) :
    Spec S (Finds f s₀) (Act.step step onFail) (fun _ ↦ Finds (step.apply f) s₀) E
      (fun _ ↦ True) := by
  refine FaultyDisk.Spec.step ?_ (fun _ _ _ hS ↦ absurd hS hfail) fun _ _ _ _ ↦ trivial
  rintro s d ⟨rfl, rfl⟩
  exact ⟨rfl, rfl⟩

/-- Where nothing fails, a sync leaves all files. -/
theorem spec_syncWal_finds {w : WalWriter} (hw : w.failed = false) (hfail : ¬Failing S)
    {E : Error → σ → Disk Bytes UInt8 → Prop} :
    Spec S (Finds f s₀) (w.runHere WalWriter.sync) (fun _ ↦ Finds f s₀) E (fun _ ↦ True) := by
  refine Spec.zoom fun s ↦ ?_
  refine Spec.bind (Q := fun _ t d ↦ t.failed = false ∧ Finds f s₀ s d) ?_ fun _ ↦ ?_
  · refine Spec.bind (Spec.state (R := fun t t' d ↦ t.failed = false ∧ t'.failed = false ∧
      Finds f s₀ s d) ?_) fun t ↦ Spec.assume fun ht ↦ ?_
    · rintro t d ⟨rfl, hd⟩
      exact ⟨hw, hw, hd⟩
    · rw [ht]
      exact Spec.pure fun _ _ h ↦ h
  · refine Spec.onException (FaultyDisk.Spec.step ?_ (fun _ _ _ hS ↦ absurd hS hfail)
      fun _ _ _ _ ↦ trivial)
    rintro t d ⟨-, rfl, rfl⟩
    exact ⟨rfl, rfl⟩

/-- **The repair cuts off the tail**, and changes nothing else. -/
theorem spec_repairWalTail_finds (hfail : ¬Failing S) {front tail : Bytes}
    (hfile : f.find? walName = some (front ++ tail))
    (hsize : tail ≠ [] → (front ++ tail).length < 2 ^ 64)
    (result : WalReplayResult) (hvalid : result.validBytes = front.length)
    (htail : result.incompleteTailBytes = tail.length)
    {E : Error → σ → Disk Bytes UInt8 → Prop} :
    Spec S (Finds f s₀) (repairWalTail result) (fun _ ↦ Finds (f.insert walName front) s₀) E
      (fun _ ↦ True) := by
  rw [repairWalTail, WalReplayResult.hadIncompleteTail, htail, hvalid]
  by_cases hnil : tail = []
  · rw [hnil, if_pos (by simp)]
    refine Spec.pure fun s d hd ↦ ⟨hd.1, hd.2.trans (OrderedMap.ext_find? fun k ↦ ?_)⟩
    rw [OrderedMap.find?_insert]
    split
    · rename_i hk
      rw [hk, hfile, hnil, List.append_nil]
    · rfl
  have hpos := List.length_pos_of_ne_nil hnil
  have hsize := hsize hnil
  rw [List.length_append] at hsize
  rw [if_neg (by simpa using hnil), if_neg (by omega)]
  have hlookup : Reads S Error.IsIo (fun g ↦ g = f)
      (Act.lookup walName (.systemError "failed to inspect WAL before repair") : Prog σ _)
      (.ok (some (front ++ tail))) := Reads.lookup trivial fun g hg ↦ hg ▸ hfile
  refine Spec.bind (Spec.finds_ok hfail hlookup rfl) fun content ↦ Spec.assume fun hc ↦ ?_
  subst hc
  dsimp only
  rw [if_neg (by rw [List.length_append]; simp)]
  -- the truncation, the writer that checks the size, and the synchronization
  have hcut : (Step.truncate walName front.length).apply f = f.insert walName front := by
    rw [Step.apply, hfile]
    dsimp only
    rw [List.take_left]
  refine Spec.bind (Spec.performs hfail) fun _ ↦ ?_
  rw [hcut]
  have hafter : ∀ g, g = f.insert walName front → g.find? walName = some front := by
    rintro g rfl
    rw [OrderedMap.find?_insert, if_pos rfl]
  have hopen : Reads S Error.IsIo (fun g ↦ g = f.insert walName front)
      (WalWriter.open .buffered : Prog σ WalWriter) (.ok ⟨.buffered, front.length, false⟩) := by
    refine (Reads.openAppend trivial hafter).bind (g := fun _ ↦ .ok _) fun _ _ ↦ ?_
    refine (Reads.lookup (c := some front) trivial hafter).bind (g := fun _ ↦ .ok _)
      fun content hc ↦ ?_
    obtain rfl := Except.ok.inj hc
    exact Reads.pure _
  refine Spec.bind (Spec.finds_ok hfail hopen rfl) fun writer ↦ Spec.assume fun hw ↦ ?_
  subst hw
  rw [if_neg (by simp)]
  exact spec_syncWal_finds rfl hfail

/-- A stale result is refused. -/
theorem spec_repairWalTail_stale {content : Bytes} (hfile : f.find? walName = some content)
    {result : WalReplayResult} (htail : result.hadIncompleteTail = true)
    (hstale : content.length ≠ result.validBytes + result.incompleteTailBytes) :
    Spec S (Finds f s₀) (repairWalTail result) (fun _ _ _ ↦ False) (fun _ ↦ Finds f s₀)
      (fun _ ↦ True) := by
  rw [repairWalTail, htail, if_neg (by simp)]
  split
  · exact Spec.throw fun _ _ hd ↦ hd
  have hlookup : Reads S Error.IsIo (fun g ↦ g = f)
      (Act.lookup walName (.systemError "failed to inspect WAL before repair") : Prog σ _)
      (.ok (some content)) := Reads.lookup trivial fun g hg ↦ hg ▸ hfile
  refine Spec.bind (FaultyDisk.Spec.reads (Q := fun c s d ↦ c = some content ∧ Finds f s₀ s d)
    hlookup (fun _ _ hd ↦ hd.2) (fun _ _ _ hc hd ↦ ⟨(Except.ok.inj hc).symm, hd⟩)
    (fun _ _ _ _ hd ↦ hd) fun _ _ _ ↦ trivial) fun c ↦ Spec.assume fun hc ↦ ?_
  subst hc
  dsimp only
  rw [if_pos hstale]
  exact Spec.throw fun _ _ hd ↦ hd

/-! ### A repaired log can be appended to -/

/-- Replay of a log of a known shape. -/
theorem replayNoting_of_walDecodes {front tail : Bytes} {records : List WalPutRecord}
    (hfront : WalDecodes front records) (htail : IncompleteTail tail) :
    replayNoting (front ++ tail) = (.ok ⟨records.length, front.length, tail.length⟩, records) := by
  have hwhole : decodeWhole 0 (front ++ tail) = (records, .ok tail.length) :=
    decodeWhole_eq_ok_iff.2 ⟨front, tail, rfl, hfront, htail, rfl⟩
  rw [replayNoting_eq, replayNotingBy_eq (by decide), hwhole]
  simp [Except.map]

/-- The shape of a log that replays to a result. -/
theorem exists_walDecodes_of_replayNoting {content : Bytes} {result : WalReplayResult}
    {records : List WalPutRecord} (h : replayNoting content = (.ok result, records)) :
    ∃ front tail, content = front ++ tail ∧ WalDecodes front records ∧ IncompleteTail tail ∧
      result = ⟨records.length, front.length, tail.length⟩ := by
  have hrecords : (decodeWhole 0 content).1 = records := by
    have hsnd := congrArg Prod.snd h
    rwa [replayNoting_eq, replayNotingBy_eq (by decide)] at hsnd
  cases hend : (decodeWhole 0 content).2 with
  | error e =>
    rw [replayNoting_eq, replayNotingBy_eq (by decide), hend] at h
    simp [Except.map] at h
  | ok tailBytes =>
    obtain ⟨front, tail, rfl, hfront, htail, -⟩ :=
      exists_walDecodes_of_decodeWhole (Prod.ext hrecords hend)
    rw [replayNoting_of_walDecodes hfront htail, Prod.mk.injEq, Except.ok.injEq] at h
    exact ⟨front, tail, rfl, hfront, htail, h.1.symm⟩

/-- The frames of accepted records. -/
theorem flatten_frames {records : List WalPutRecord} {frames : List Bytes}
    (h : List.Forall₂ (fun r b ↦ encodeWalRecord r = .ok b) records frames) :
    WalDecodes frames.flatten records := by
  obtain ⟨hacc, rfl⟩ := of_encodeWalRecords h
  rw [← List.flatMap_def]
  exact .walBytes hacc

/-- **Tail repair restores an appendable log.** After a replay that came to an end, and where no
call fails, the repair returns and leaves a log that replays to the same records with no tail;
whatever records and whatever part of one more record are appended to it, replay finds the old
records, then the new ones, then the part. A result with a tail that does not fit the length of the
file is refused, and no file changes. -/
theorem repairWalTail_restores (s : σ) {w : World Bytes UInt8} (hfail : ¬Failing w.sched)
    (hcrash : ¬Crashing w.sched) {content : Bytes} (hfile : w.files.find? walName = some content)
    (hsize : content.length < 2 ^ 64) (result : WalReplayResult) :
    (∀ records, replayNoting content = (.ok result, records) →
      ∃ w' repaired, repairWalTail result (s, w) = .ok () (s, w') ∧
        w'.files = w.files.insert walName repaired ∧
        replayNoting repaired = (.ok ⟨result.recordsReplayed, result.validBytes, 0⟩, records) ∧
        ∀ (more : List WalPutRecord) (frames : List Bytes) (last : WalPutRecord) (frame p : Bytes),
          List.Forall₂ (fun r b ↦ encodeWalRecord r = .ok b) more frames →
          encodeWalRecord last = .ok frame → p <+: frame → p ≠ frame →
          ∃ result', replayNoting (repaired ++ frames.flatten ++ p) =
              (.ok result', records ++ more) ∧ result'.incompleteTailBytes = p.length) ∧
    (result.hadIncompleteTail = true →
      content.length ≠ result.validBytes + result.incompleteTailBytes →
      ∃ e w', repairWalTail result (s, w) = .error (.exn e) (s, w') ∧ w'.files = w.files) := by
  constructor
  · intro records hreplay
    obtain ⟨front, tail, rfl, hfront, htail, rfl⟩ := exists_walDecodes_of_replayNoting hreplay
    have hspec : Spec w.sched (Finds w.files s)
        (repairWalTail ⟨records.length, front.length, tail.length⟩)
        (fun _ ↦ Finds (w.files.insert walName front) s) (fun _ _ _ ↦ False) fun _ ↦ True :=
      spec_repairWalTail_finds hfail hfile (fun _ ↦ hsize) _ rfl rfl
    obtain ⟨_, _, w', hrun, rfl, hfiles⟩ := hspec.returns hcrash (w := w) ⟨rfl, rfl⟩
      (List.suffix_refl _)
    refine ⟨w', front, hrun, hfiles, ?_, ?_⟩
    · have h := replayNoting_of_walDecodes hfront incompleteTail_nil
      rwa [List.append_nil] at h
    · intro more frames last frame p hmore hlast hp hne
      obtain ⟨hacc, rfl⟩ := accepts_of_encodeWalRecord hlast
      exact ⟨_, replayNoting_of_walDecodes (hfront.append (flatten_frames hmore))
        (incompleteTail_of_cut hacc hp hne), rfl⟩
  · intro hhad hstale
    obtain ⟨e, _, w', hrun, rfl, hfiles⟩ := (spec_repairWalTail_stale hfile hhad
      hstale).throws hcrash (w := w) ⟨rfl, rfl⟩ (List.suffix_refl _)
    exact ⟨e, w', hrun, hfiles⟩

/-- A directory whose log holds one record and the first byte of another. -/
def tornLog : World Bytes UInt8 :=
  ⟨⟨OrderedMap.empty.insert walName (walFrame cpuRecord ++ [0x43]), []⟩, []⟩

/-- The statement on one record and the first byte of another. -/
theorem repairWalTail_restores_torn :
    replayNoting (walFrame cpuRecord ++ [0x43]) = (.ok ⟨1, 45, 1⟩, [cpuRecord]) ∧
      ∃ w' repaired, repairWalTail ⟨1, 45, 1⟩ ((), tornLog) = .ok () ((), w') ∧
        w'.files = tornLog.files.insert walName repaired ∧
        replayNoting repaired = (.ok ⟨1, 45, 0⟩, [cpuRecord]) := by
  have hdec : decodeWalRecord (walFrame cpuRecord) =
      ⟨some cpuRecord, .none, (walFrame cpuRecord).length⟩ := by decide +kernel
  have hone : WalDecodes (walFrame cpuRecord ++ []) [cpuRecord] := .cons hdec .nil
  rw [List.append_nil] at hone
  have hlen : (walFrame cpuRecord).length = 45 := by decide +kernel
  have hreplay := replayNoting_of_walDecodes hone (show IncompleteTail [0x43] from rfl)
  rw [hlen] at hreplay
  obtain ⟨w', repaired, hrun, hfiles, hagain, -⟩ := (repairWalTail_restores () (w := tornLog)
    not_failing_nil not_crashing_nil (by rw [tornLog, OrderedMap.find?_insert, if_pos rfl])
    (by rw [List.length_append, hlen]; decide) _).1 _ hreplay
  exact ⟨hreplay, w', repaired, hrun, hfiles, hagain⟩

end ChronoStore
