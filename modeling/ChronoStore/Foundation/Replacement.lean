import ChronoStore.Foundation.Footprint
import ChronoStore.Foundation.PowerLoss
import Mathlib.Data.Set.Insert

/-!
# Files that are replaced as a whole

The bytes of a file are replaced as a whole by writing them under a temporary name, synchronizing
that file, moving it onto the name, and synchronizing the directory. A medium passes through
`Staging`, `Synced` and `Linked` to `Replaced`, one lemma for each step; at every moment in between
it is `Replacing`: what a loss of power may leave is what it might have left before, but for the new
bytes under the one name. Without the first synchronization a rename could be found before the
bytes.

`candidates` is the abstract side: what may be under each name after replacements that returned,
replacements that were cut short, and losses of power.
-/

namespace FaultyDisk

variable {N B ε σ : Type} [LinearOrder N]

namespace Medium

variable {M₀ M : Medium N B} {temporary target : N} {bytes written : List B}

/-- Beside what might have been found before, the bytes may be found under `target`. Nothing is said
of the temporary name. -/
def Replacing (M₀ : Medium N B) (temporary target : N) (bytes : List B) (M : Medium N B) : Prop :=
  ∀ name ≠ temporary, ∀ x, (M name).Shows x → (M₀ name).Shows x ∨ name = target ∧ x = some bytes

/-- The bytes are found under `target`, whatever happens. -/
def Replaced (M₀ : Medium N B) (temporary target : N) (bytes : List B) (M : Medium N B) : Prop :=
  ∀ name ≠ temporary, ∀ x, (M name).Shows x →
    if name = target then x = some bytes else (M₀ name).Shows x

/-- So far only the temporary file was written. -/
structure Staging (M₀ : Medium N B) (temporary : N) (written : List B) (M : Medium N B) : Prop where
  frame : ∀ name ≠ temporary, M name = M₀ name
  staged : ∃ f, (M temporary).file = some f ∧ f.content = written

/-- The temporary file is durable. -/
structure Synced (M₀ : Medium N B) (temporary : N) (bytes : List B) (M : Medium N B) : Prop where
  frame : ∀ name ≠ temporary, M name = M₀ name
  synced : ∃ f, (M temporary).file = some f ∧ ∀ c, f.found c → c = bytes

/-- The name stands for the new file, but its older forms may still be found. -/
structure Linked (M₀ : Medium N B) (temporary target : N) (bytes : List B) (M : Medium N B) :
    Prop where
  frame : ∀ name ≠ temporary, name ≠ target → M name = M₀ name
  linked : ∃ f, (M target).file = some f ∧ ∀ c, f.found c → c = bytes
  older : ∀ x, (M target).older x → (M₀ target).Shows x

omit [LinearOrder N] in
/-- As long as only the temporary file has changed, the target is what it was. -/
theorem replacing_of_frame (h : ∀ name ≠ temporary, M name = M₀ name) :
    Replacing M₀ temporary target bytes M :=
  fun name hname _ hx ↦ Or.inl (h name hname ▸ hx)

omit [LinearOrder N] in
/-- After the rename a process finds the new bytes under the target. -/
theorem Linked.current (h : Linked M₀ temporary target bytes M) {x : Option (List B)}
    (hx : (M target).Current x) : x = some bytes := by
  obtain ⟨f, hfile, hfound⟩ := h.linked
  obtain ⟨c, hc, rfl⟩ := (Slot.current_of_file hfile).1 hx
  rw [hfound c hc]

/-- Until the directory is synced, a loss of power may find the target before or after the rename.
-/
theorem Linked.replacing (h : Linked M₀ temporary target bytes M) :
    Replacing M₀ temporary target bytes M := by
  intro name hname x hx
  by_cases htarget : name = target
  · subst htarget
    exact hx.imp (h.older x) fun hcurrent ↦ ⟨rfl, h.current hcurrent⟩
  · exact Or.inl (h.frame name hname htarget ▸ hx)

/-- The temporary file is empty at first, also when one was there. -/
theorem staging_createTrunc (M : Medium N B) (temporary : N) :
    Staging M temporary [] (M.apply (.createTrunc temporary)) where
  frame _ hname := apply_of_notMem (by simpa [Step.touches] using hname) (by simp) (by simp)
  staged := by
    rw [apply]
    split
    · rename_i hsome
      obtain ⟨f, hf⟩ := Option.isSome_iff_exists.1 hsome
      refine ⟨f.truncate 0, ?_, List.take_zero (l := f.content)⟩
      rw [Function.update_self, Slot.rewrite, hf, Option.map_some]
    · refine ⟨.new, ?_, rfl⟩
      rw [Function.update_self, Slot.relink]

/-- A further piece goes to the temporary file. -/
theorem Staging.append (h : Staging M₀ temporary written M) (piece : List B) :
    Staging M₀ temporary (written ++ piece) (M.apply (.append temporary piece)) where
  frame name hname := by
    rw [apply_of_notMem (by simpa [Step.touches] using hname) (by simp) (by simp),
      h.frame name hname]
  staged := by
    obtain ⟨f, hfile, hcontent⟩ := h.staged
    refine ⟨f.append piece, ?_, by rw [Stored.append, hcontent]⟩
    rw [apply_append, Slot.rewrite, hfile, Option.map_some]

/-- Once it is synced, the temporary file survives as it is. -/
theorem Staging.fsync (h : Staging M₀ temporary bytes M) :
    Synced M₀ temporary bytes (M.apply (.fsync temporary)) where
  frame name hname := by
    rw [apply_of_notMem (by simp [Step.touches]) (fun heq ↦ hname (Step.fsync.inj heq).symm)
      (by simp),
      h.frame name hname]
  synced := by
    obtain ⟨f, hfile, hcontent⟩ := h.staged
    refine ⟨f.sync, ?_, fun c hc ↦ hc.trans hcontent⟩
    rw [apply_fsync, Slot.rewrite, hfile, Option.map_some]

/-- The move shows the new bytes beside the older forms of the name. -/
theorem Synced.rename (h : Synced M₀ temporary bytes M) (hne : target ≠ temporary) :
    Linked M₀ temporary target bytes (M.apply (.rename temporary target)) := by
  obtain ⟨f, hfile, hfound⟩ := h.synced
  have htarget := apply_rename hfile hne
  refine ⟨fun name hname hother ↦ ?_, ⟨f, by rw [htarget, Slot.relink], hfound⟩, fun x hx ↦ ?_⟩
  · rw [apply_of_notMem (by simp [Step.touches, hname, hother]) (by simp) (by simp),
      h.frame name hname]
  · rw [htarget] at hx
    exact h.frame target hne ▸ hx

/-- The synchronization of the directory leaves the present forms. -/
theorem Linked.fsyncDir (h : Linked M₀ temporary target bytes M) :
    Replaced M₀ temporary target bytes (M.apply .fsyncDir) := by
  intro name hname x hx
  have hcurrent : (M name).Current x := Slot.shows_settle.1 hx
  split
  · rename_i htarget
    exact h.current (htarget ▸ hcurrent)
  · rename_i htarget
    exact h.frame name hname htarget ▸ Or.inr hcurrent

/-- A finished replacement is one that has been attempted. -/
theorem Replaced.replacing (h : Replaced M₀ temporary target bytes M) :
    Replacing M₀ temporary target bytes M := by
  intro name hname x hx
  have hshows := h name hname x hx
  split at hshows
  · exact Or.inr ⟨‹_›, hshows⟩
  · exact Or.inl hshows

end Medium

/-! ### Steps since a moment -/

/-- The files that a process sees are those that its steps have made. -/
theorem Disk.files_performAll (d : Disk N B) (steps : List (Step N B)) :
    (d.performAll steps).files = applyAll d.files steps := by
  induction steps generalizing d with
  | nil => rfl
  | cons t steps ih => rw [performAll_cons, applyAll_cons, ih, perform_files]

/-- The steps since `d₀` brought the medium from `M₀` to one with `P`. -/
def Reached (M₀ : Medium N B) (d₀ : Disk N B) (P : Medium N B → Prop) (d : Disk N B) : Prop :=
  ∃ steps, d = d₀.performAll steps ∧ P (M₀.applyAll steps)

namespace Reached

variable {M₀ : Medium N B} {d₀ d : Disk N B} {P Q R : Medium N B → Prop} {t : Step N B}

theorem start (h : P M₀) : Reached M₀ d₀ P d₀ := ⟨[], rfl, h⟩

/-- A condition on the medium may be weakened. -/
theorem imp (h : Reached M₀ d₀ P d) (himp : ∀ M, P M → Q M) : Reached M₀ d₀ Q d := by
  obtain ⟨steps, hd, hP⟩ := h
  exact ⟨steps, hd, himp _ hP⟩

/-- A step takes the medium from one condition to the next. -/
theorem perform (h : Reached M₀ d₀ P d) (ht : ∀ M, P M → Q (M.apply t)) :
    Reached M₀ d₀ Q (d.perform t) := by
  obtain ⟨steps, rfl, hP⟩ := h
  refine ⟨steps ++ [t], ?_, ?_⟩
  · rw [Disk.performAll_append, Disk.performAll_cons, Disk.performAll_nil]
  · rw [Medium.applyAll_concat]
    exact ht _ hP

/-- A step that is no write is done or not. -/
theorem truncated (h : Reached M₀ d₀ P d) (hwrite : ∀ name bytes, t ≠ .append name bytes)
    (hnot : ∀ M, P M → R M) (hdone : ∀ M, P M → R (M.apply t)) (n : ℕ) :
    Reached M₀ d₀ R (d.performAll (t.truncated n)) := by
  obtain hnil | hone := Step.truncated_eq hwrite n
  · rw [hnil]
    exact h.imp hnot
  · rw [hone]
    exact h.perform hdone

/-- A step that is no write happens as a whole or not at all, so one condition covers the failure
and the crash. -/
theorem spec_step {S : List Event} (hwrite : ∀ name bytes, t ≠ .append name bytes)
    (ht : ∀ M, P M → Q (M.apply t)) (hbefore : ∀ M, P M → R M) (hafter : ∀ M, Q M → R M)
    (onFail : ε) :
    Spec S (fun _ ↦ Reached M₀ d₀ P) (Act.step t onFail : Act N B ε σ Unit)
      (fun _ _ ↦ Reached M₀ d₀ Q) (fun _ _ ↦ Reached M₀ d₀ R) (Reached M₀ d₀ R) :=
  Spec.step (fun _ _ h ↦ h.perform ht)
    (fun _ _ n _ h ↦ h.truncated hwrite hbefore (fun M hM ↦ hafter _ (ht M hM)) n)
    (fun _ _ n h ↦ h.truncated hwrite hbefore (fun M hM ↦ hafter _ (ht M hM)) n)

/-- A call that changes nothing, or fails. -/
theorem spec_probe {S : List Event} (hbefore : ∀ M, P M → R M) (onFail : ε) :
    Spec S (fun _ ↦ Reached M₀ d₀ P) (Act.probe onFail : Act N B ε σ Unit)
      (fun _ _ ↦ Reached M₀ d₀ P) (fun _ _ ↦ Reached M₀ d₀ R) (Reached M₀ d₀ R) :=
  Spec.probe (fun _ _ _ h ↦ h.imp hbefore) (fun _ _ h ↦ h.imp hbefore)

/-- The medium at the end, read off the log. -/
theorem medium (h : Reached M₀ d₀ P d) (hmatch : M₀.Matches d₀.files) (hsound : M₀.Sound) :
    P (M₀.applyAll (d.log.drop d₀.log.length)) ∧
      (M₀.applyAll (d.log.drop d₀.log.length)).Matches d.files ∧
      (M₀.applyAll (d.log.drop d₀.log.length)).Sound := by
  obtain ⟨steps, rfl, hP⟩ := h
  rw [Disk.performAll_log, List.drop_left, Disk.files_performAll]
  exact ⟨hP, hmatch.applyAll steps, hsound.applyAll steps⟩

end Reached

/-! ### What may be under a name -/

/-- What happens to files that are replaced as a whole. -/
inductive Happening (N B : Type)
  /-- A replacement returned. -/
  | replaced (target : N) (bytes : List B)
  /-- A replacement threw, or the process ended in it. -/
  | attempted (target : N) (bytes : List B)
  /-- The power was lost, and this was found. -/
  | lost (found : N → Option (List B))

namespace Happening

/-- The name that is replaced. -/
def target? : Happening N B → Option N
  | replaced target _ => some target
  | attempted target _ => some target
  | lost _ => none

/-- What may be under each name afterwards. -/
def update (C : N → Set (Option (List B))) : Happening N B → N → Set (Option (List B))
  | replaced target bytes => Function.update C target {some bytes}
  | attempted target bytes => Function.update C target (insert (some bytes) (C target))
  | lost found => fun name ↦ {found name}

end Happening

/-- What may be under each name after a history: the bytes of the last replacement that returned, or
of one that was attempted since; and after a loss of power what was found. -/
def candidates (initial : N → Option (List B)) (history : List (Happening N B)) :
    N → Set (Option (List B)) :=
  history.foldl Happening.update fun name ↦ {initial name}

variable {initial : N → Option (List B)}

/-- The candidates after one more happening. -/
theorem candidates_concat (history : List (Happening N B)) (e : Happening N B) :
    candidates initial (history ++ [e]) = e.update (candidates initial history) := by
  rw [candidates, candidates, List.foldl_append]
  rfl

/-- Only the new bytes are left after a replacement that has returned. -/
theorem Happening.update_replaced (C : N → Set (Option (List B))) (name : N) (bytes : List B) :
    (replaced name bytes).update C name = {some bytes} := Function.update_self _ _ _

/-- What is about another name, and no loss of power, does not change the candidates. -/
theorem Happening.update_of_ne {C : N → Set (Option (List B))} {e : Happening N B} {name : N}
    (htarget : e.target? ≠ some name) (hlost : ∀ found, e ≠ .lost found) :
    e.update C name = C name := by
  cases e with
  | replaced target _ =>
    exact Function.update_of_ne (fun heq ↦ htarget (congrArg some heq.symm)) _ _
  | attempted target _ =>
    exact Function.update_of_ne (fun heq ↦ htarget (congrArg some heq.symm)) _ _
  | lost found => exact absurd rfl (hlost found)

/-- The last replacement of the name returned. -/
def LastReplaced (history : List (Happening N B)) (name : N) (bytes : List B) : Prop :=
  ∃ before after, history = before ++ .replaced name bytes :: after ∧
    some name ∉ after.map Happening.target?

omit [LinearOrder N] in
/-- The last replacement of a name is the last happening or has happened before it. -/
theorem LastReplaced.of_concat {history : List (Happening N B)} {e : Happening N B} {name : N}
    {bytes : List B} (h : LastReplaced (history ++ [e]) name bytes) :
    e = .replaced name bytes ∨ LastReplaced history name bytes ∧ e.target? ≠ some name := by
  obtain ⟨before, after, heq, hafter⟩ := h
  induction after using List.reverseRecOn with
  | nil =>
    obtain ⟨-, hlast⟩ := List.append_inj' heq rfl
    exact Or.inl (List.singleton_injective hlast)
  | append_singleton after e' _ =>
    rw [← List.cons_append, ← List.append_assoc] at heq
    obtain ⟨rfl, hlast⟩ := List.append_inj' heq rfl
    obtain rfl := List.singleton_injective hlast
    rw [List.map_append, List.mem_append, not_or] at hafter
    exact Or.inr ⟨⟨before, after, rfl, hafter.1⟩, fun htarget ↦ hafter.2 (by simp [htarget])⟩

namespace Medium

variable {C : N → Set (Option (List B))} {name temporary target : N} {bytes : List B}
  {M M' : Medium N B}

/-- What may be found under a name is among the candidates. -/
def Within (C : N → Set (Option (List B))) (name : N) (M : Medium N B) : Prop :=
  ∀ x, (M name).Shows x → x ∈ C name

/-- On a medium that has settled, a process and a loss of power find the same file. -/
theorem Within.ofFiles {files : Files N B} (h : files.find? name ∈ C name) :
    Within C name (Medium.ofFiles files) := by
  rintro x (hfalse | hcurrent)
  · exact hfalse.elim
  · have hx : x = files.find? name := by
      obtain ⟨hnone, rfl⟩ | ⟨f, c, hfile, hfound, rfl⟩ := hcurrent
      · exact (Option.map_eq_none_iff.1 hnone).symm
      · obtain ⟨content, hcontent, rfl⟩ := Option.map_eq_some_iff.1 hfile
        rw [hcontent, hfound]
    rwa [hx]

/-- A replacement that has returned leaves its bytes. -/
theorem Within.replaced (h : Within C name M) (hname : name ≠ temporary)
    (hM : Replaced M temporary target bytes M') :
    Within ((Happening.replaced target bytes).update C) name M' := by
  intro x hx
  have hshows := hM name hname x hx
  rw [Happening.update]
  split at hshows
  · rename_i htarget
    rw [htarget, Function.update_self]
    exact hshows
  · rw [Function.update_of_ne ‹_›]
    exact h x hshows

/-- One that has not leaves its bytes or what could be found before. -/
theorem Within.attempted (h : Within C name M) (hname : name ≠ temporary)
    (hM : Replacing M temporary target bytes M') :
    Within ((Happening.attempted target bytes).update C) name M' := by
  intro x hx
  rw [Happening.update]
  obtain hold | ⟨rfl, rfl⟩ := hM name hname x hx
  · by_cases htarget : name = target
    · subst htarget
      rw [Function.update_self]
      exact Set.mem_insert_of_mem _ (h x hold)
    · rw [Function.update_of_ne htarget]
      exact h x hold
  · rw [Function.update_self]
    exact Set.mem_insert _ _

end Medium

end FaultyDisk
