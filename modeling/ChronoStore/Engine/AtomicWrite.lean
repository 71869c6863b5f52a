import ChronoStore.Engine.FileIo
import ChronoStore.Foundation.Replacement

/-!
# Atomic writes

`atomic_write_file` on any directory, for any names and any bytes. Files written by nothing else
behave like registers: under every name stands what was written last, or, while later writes are
only known to have been attempted, what one of those would have written — never part of it, and
never anything else. That is so for a reader at any moment and for a restart after a loss of power
at any moment, and once a write has returned, for good (`atomic_writes`). The one thing asked of the
name is that it is no write's temporary name; files that are there under temporary names do no harm.
-/

namespace ChronoStore

open FaultyDisk

variable {σ : Type} {S : List Event} {M₀ : Medium Bytes UInt8} {d₀ : Disk Bytes UInt8}

theorem ne_temporaryName (name : Bytes) : name ≠ temporaryName name := by
  intro heq
  have hlen := congrArg List.length heq
  rw [temporaryName, List.length_append] at hlen
  have hsuffix : (ascii ".tmp").length = 4 := by decide
  omega

section Stages

variable {temporary target bytes : Bytes}

/-- The temporary file is created, or what was there is replaced. -/
theorem spec_stageFile (onFail : Error) :
    Spec S (fun _ d ↦ d = d₀) (Act.step (.createTrunc temporary) onFail : Prog σ Unit)
      (fun _ _ ↦ Reached M₀ d₀ (Medium.Staging M₀ temporary []))
      (fun _ _ ↦ Reached M₀ d₀ (Medium.Replacing M₀ temporary target bytes))
      (Reached M₀ d₀ (Medium.Replacing M₀ temporary target bytes)) := by
  have hstart : ∀ d, d = d₀ → Reached M₀ d₀ (· = M₀) d := by
    rintro d rfl
    exact .start rfl
  refine (Reached.spec_step (by simp) ?_ ?_ (fun M h ↦
    Medium.replacing_of_frame h.frame) onFail).pre
    fun _ ↦ hstart
  · rintro M rfl
    exact Medium.staging_createTrunc M temporary
  · rintro M rfl
    exact Medium.replacing_of_frame fun _ _ ↦ rfl

/-- All bytes are written to the temporary file; some of them, if a write fails. -/
theorem spec_writeBytes (onFail : Error) :
    Spec S (fun _ ↦ Reached M₀ d₀ (Medium.Staging M₀ temporary []))
      (Act.writeAll temporary bytes onFail onFail : Prog σ Unit)
      (fun _ _ ↦ Reached M₀ d₀ (Medium.Staging M₀ temporary bytes))
      (fun _ _ ↦ Reached M₀ d₀ (Medium.Replacing M₀ temporary target bytes))
      (Reached M₀ d₀ (Medium.Replacing M₀ temporary target bytes)) := by
  have hwrite := Spec.writeAll (σ := σ) (S := S) temporary bytes onFail onFail
    (fun done _ ↦ Reached M₀ d₀ (Medium.Staging M₀ temporary done))
    fun done piece _ d _ h ↦ h.perform fun M hM ↦ hM.append piece
  refine hwrite.conseq (fun _ _ ↦ id) (fun _ _ _ ↦ id) ?_ ?_
  · rintro _ _ d ⟨-, -, done, -, h⟩
    exact h.imp fun M hM ↦ Medium.replacing_of_frame hM.frame
  · rintro d ⟨_, done, -, h⟩
    exact h.imp fun M hM ↦ Medium.replacing_of_frame hM.frame

/-- The temporary file is synced before it is moved. -/
theorem spec_syncWritten :
    Spec S (fun _ ↦ Reached M₀ d₀ (Medium.Staging M₀ temporary bytes))
      (syncFile temporary : Prog σ Unit)
      (fun _ _ ↦ Reached M₀ d₀ (Medium.Synced M₀ temporary bytes))
      (fun _ _ ↦ Reached M₀ d₀ (Medium.Replacing M₀ temporary target bytes))
      (Reached M₀ d₀ (Medium.Replacing M₀ temporary target bytes)) := by
  have hstaging : ∀ M, Medium.Staging M₀ temporary bytes M →
      Medium.Replacing M₀ temporary target bytes M := fun M hM ↦ Medium.replacing_of_frame hM.frame
  have hsynced : ∀ M, Medium.Synced M₀ temporary bytes M →
      Medium.Replacing M₀ temporary target bytes M := fun M hM ↦ Medium.replacing_of_frame hM.frame
  refine Spec.bind (Reached.spec_probe hstaging _) fun _ ↦ ?_
  refine Spec.bind (Reached.spec_step (by simp) (fun M hM ↦ hM.fsync) hstaging hsynced _) fun _ ↦ ?_
  exact Reached.spec_probe hsynced _

/-- The temporary file takes the name, and the directory is synced. -/
theorem spec_moveFile (hne : target ≠ temporary) :
    Spec S (fun _ ↦ Reached M₀ d₀ (Medium.Synced M₀ temporary bytes))
      (replaceFile temporary target : Prog σ Unit)
      (fun _ _ ↦ Reached M₀ d₀ (Medium.Replaced M₀ temporary target bytes))
      (fun _ _ ↦ Reached M₀ d₀ (Medium.Replacing M₀ temporary target bytes))
      (Reached M₀ d₀ (Medium.Replacing M₀ temporary target bytes)) := by
  refine Spec.bind (Reached.spec_step (by simp) (fun M hM ↦ hM.rename hne)
    (fun M hM ↦ Medium.replacing_of_frame hM.frame) (fun M hM ↦ hM.replacing) _) fun _ ↦ ?_
  refine Spec.bind (Reached.spec_probe (fun M hM ↦ hM.replacing) _) fun _ ↦ ?_
  refine Spec.bind (Reached.spec_step (by simp) (fun M hM ↦ hM.fsyncDir)
    (fun M hM ↦ hM.replacing) (fun M hM ↦ hM.replacing) _) fun _ ↦ ?_
  exact Reached.spec_probe (fun M hM ↦ hM.replacing) _

end Stages

variable (M₀ d₀) in
/-- **One atomic write**, from any medium. -/
theorem spec_replaceWhole (name bytes : Bytes) :
    Spec S (fun _ d ↦ d = d₀) (atomicWriteFile name bytes : Prog σ Unit)
      (fun _ _ ↦ Reached M₀ d₀ (Medium.Replaced M₀ (temporaryName name) name bytes))
      (fun _ _ ↦ Reached M₀ d₀ (Medium.Replacing M₀ (temporaryName name) name bytes))
      (Reached M₀ d₀ (Medium.Replacing M₀ (temporaryName name) name bytes)) := by
  refine Spec.bind (spec_stageFile _) fun _ ↦ ?_
  refine Spec.ite (fun _ ↦ Spec.throw fun _ d h ↦ h.imp fun M hM ↦
    Medium.replacing_of_frame hM.frame) fun _ ↦ ?_
  refine Spec.bind (spec_writeBytes _) fun _ ↦ ?_
  refine Spec.bind spec_syncWritten fun _ ↦ ?_
  exact spec_moveFile (ne_temporaryName name)

/-! ### Any number of writes -/

/-- A directory on which nothing but atomic writes happens, and losses of power: `M` is the medium
after the history and `now` is what a reader finds. A write that throws or ends with the process may
be followed by others. -/
inductive AtomicWrites (files : Directory) :
    List (Happening Bytes UInt8) → Medium Bytes UInt8 → Directory → Prop
  | start : AtomicWrites files [] (Medium.ofFiles files) files
  | replaced {history : List (Happening Bytes UInt8)} {M : Medium Bytes UInt8} {name bytes : Bytes}
      {s s' : σ} {w w' : World Bytes UInt8} (before : AtomicWrites files history M w.files)
      (run : atomicWriteFile name bytes (s, w) = .ok () (s', w')) :
      AtomicWrites files (history ++ [.replaced name bytes])
        (M.applyAll (w'.log.drop w.log.length)) w'.files
  | attempted {history : List (Happening Bytes UInt8)} {M : Medium Bytes UInt8} {name bytes : Bytes}
      {s s' : σ} {w w' : World Bytes UInt8} {e : Stop Error}
      (before : AtomicWrites files history M w.files)
      (run : atomicWriteFile name bytes (s, w) = .error e (s', w')) :
      AtomicWrites files (history ++ [.attempted name bytes])
        (M.applyAll (w'.log.drop w.log.length)) w'.files
  | lost {history : List (Happening Bytes UInt8)} {M : Medium Bytes UInt8} {now found : Directory}
      (before : AtomicWrites files history M now) (leaves : M.Leaves found) :
      AtomicWrites files (history ++ [.lost found.find?]) (Medium.ofFiles found) found

/-- The invariant of a history. -/
theorem AtomicWrites.invariant {files now : Directory} {history : List (Happening Bytes UInt8)}
    {M : Medium Bytes UInt8} (h : AtomicWrites (σ := σ) files history M now) {name : Bytes}
    (hname : ∀ target, some target ∈ history.map Happening.target? → name ≠ temporaryName target) :
    M.Matches now ∧ M.Sound ∧ Medium.Within (candidates files.find? history) name M := by
  induction h with
  | start => exact ⟨Medium.matches_ofFiles files, Medium.sound_ofFiles files, .ofFiles rfl⟩
  | @replaced history M target bytes s s' w w' before run ih =>
    rw [List.map_append] at hname
    obtain ⟨hmatch, hsound, hwithin⟩ := ih fun t ht ↦ hname t (List.mem_append_left _ ht)
    have hend := spec_replaceWhole (S := w.sched) M w.toDisk target bytes s w rfl
      (List.suffix_refl _)
    rw [run] at hend
    obtain ⟨hM, hmatch', hsound'⟩ := hend.1.medium hmatch hsound
    rw [candidates_concat]
    exact ⟨hmatch', hsound', hwithin.replaced
      (hname target (List.mem_append_right _ List.mem_cons_self)) hM⟩
  | @attempted history M target bytes s s' w w' e before run ih =>
    rw [List.map_append] at hname
    obtain ⟨hmatch, hsound, hwithin⟩ := ih fun t ht ↦ hname t (List.mem_append_left _ ht)
    have hend := spec_replaceWhole (S := w.sched) M w.toDisk target bytes s w rfl
      (List.suffix_refl _)
    rw [run] at hend
    have hreached : Reached M w.toDisk (Medium.Replacing M (temporaryName target) target bytes)
        w'.toDisk := by
      cases e with
      | exn e => exact hend
      | crash => exact hend.2
    obtain ⟨hM, hmatch', hsound'⟩ := hreached.medium hmatch hsound
    rw [candidates_concat]
    exact ⟨hmatch', hsound', hwithin.attempted
      (hname target (List.mem_append_right _ List.mem_cons_self)) hM⟩
  | lost before leaves ih =>
    rw [candidates_concat]
    exact ⟨Medium.matches_ofFiles _, Medium.sound_ofFiles _, .ofFiles rfl⟩

/-- Once the last write of a name has returned there is one candidate, also after losses of power.
-/
theorem AtomicWrites.candidates_eq {files now : Directory} {history : List (Happening Bytes UInt8)}
    {M : Medium Bytes UInt8} (h : AtomicWrites (σ := σ) files history M now) {name bytes : Bytes}
    (hname : ∀ target, some target ∈ history.map Happening.target? → name ≠ temporaryName target)
    (hlast : LastReplaced history name bytes) :
    candidates files.find? history name = {some bytes} := by
  induction h with
  | start =>
    obtain ⟨before, after, heq, -⟩ := hlast
    simp at heq
  | @replaced history M target bytes' s s' w w' before run ih =>
    rw [List.map_append] at hname
    rw [candidates_concat]
    obtain heq | ⟨hbefore, hne⟩ := hlast.of_concat
    · rw [heq, Happening.update_replaced]
    · rw [Happening.update_of_ne hne (by simp)]
      exact ih (fun t ht ↦ hname t (List.mem_append_left _ ht)) hbefore
  | @attempted history M target bytes' s s' w w' e before run ih =>
    rw [List.map_append] at hname
    obtain heq | ⟨hbefore, hne⟩ := hlast.of_concat
    · cases heq
    · rw [candidates_concat, Happening.update_of_ne hne (by simp)]
      exact ih (fun t ht ↦ hname t (List.mem_append_left _ ht)) hbefore
  | @lost history M now found before leaves ih =>
    rw [List.map_append] at hname
    have hbefore : ∀ target, some target ∈ history.map Happening.target? →
        name ≠ temporaryName target :=
      fun t ht ↦ hname t (List.mem_append_left _ ht)
    obtain heq | ⟨hlast', -⟩ := hlast.of_concat
    · cases heq
    · have hfound := (before.invariant hbefore).2.2 _ (leaves name)
      rw [ih hbefore hlast', Set.mem_singleton_iff] at hfound
      rw [candidates_concat, ← hfound]
      rfl

/-- **Atomic writes make registers.** -/
theorem atomic_writes {files now : Directory} {history : List (Happening Bytes UInt8)}
    {M : Medium Bytes UInt8} (h : AtomicWrites (σ := σ) files history M now) {name : Bytes}
    (hname : ∀ target, some target ∈ history.map Happening.target? → name ≠ temporaryName target) :
    (now.find? name ∈ candidates files.find? history name ∧
      ∀ found, M.Leaves found → found.find? name ∈ candidates files.find? history name) ∧
    ∀ bytes, LastReplaced history name bytes →
      now.find? name = some bytes ∧ ∀ found, M.Leaves found → found.find? name = some bytes := by
  obtain ⟨hmatch, hsound, hwithin⟩ := h.invariant hname
  have hnow := hwithin _ (hsound.leaves hmatch name)
  refine ⟨⟨hnow, fun found hleaves ↦ hwithin _ (hleaves name)⟩, fun bytes hlast ↦ ?_⟩
  have hone := h.candidates_eq hname hlast
  rw [hone] at hnow
  refine ⟨hnow, fun found hleaves ↦ ?_⟩
  have hfound := hwithin _ (hleaves name)
  rwa [hone] at hfound

/-- The manifest, written once in an empty directory, is there. -/
theorem atomic_writes_manifest : ∃ (M : Medium Bytes UInt8) (now : Directory),
    AtomicWrites (σ := Unit) .empty [.replaced manifestName [1]] M now ∧
      now.find? manifestName = some [1] := by
  have hrun : AtomicWrites (σ := Unit) .empty [.replaced manifestName [1]] _ _ :=
    .replaced (s := ()) (w := ⟨⟨.empty, []⟩, []⟩) .start rfl
  refine ⟨_, _, hrun, ((atomic_writes hrun ?_).2 [1] ⟨[], [], rfl, by simp⟩).1⟩
  intro target htarget
  obtain rfl : target = manifestName := by simpa [Happening.target?] using htarget
  exact ne_temporaryName _

end ChronoStore
