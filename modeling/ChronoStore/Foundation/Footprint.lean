import ChronoStore.Foundation.DiskLogic

/-!
# What a program has changed so far

`Since d₀ A s d`: the disk `d` has come from `d₀` by some steps, and as long as none of them changes
a file, the state `s` satisfies `A`. The second part is lost for good with the first step that
changes a file, so an operation that works in order — look, write, then bring its own state up to
date — keeps it up to the write, and owes nothing afterwards.

* `Grows m` — once a file has been changed, `m` keeps that so. Every program is such a one; the
  rules are there to say so of programs put together from others.
* `Careful A m B E` — the judgement: from `A` to `B` on a return and to `E` on an exception.
-/

namespace FaultyDisk

variable {N B ε σ τ α β : Type} [LinearOrder N]

namespace Disk

/-- Steps are performed one after the other. -/
theorem performAll_append (d : Disk N B) (a b : List (Step N B)) :
    d.performAll (a ++ b) = (d.performAll a).performAll b := List.foldl_append

/-- Every step is in the log. -/
theorem performAll_log (d : Disk N B) (steps : List (Step N B)) :
    (d.performAll steps).log = d.log ++ steps := by
  induction steps generalizing d with
  | nil => simp
  | cons t steps ih =>
    rw [performAll_cons, ih, perform_log, List.append_assoc, List.singleton_append]

end Disk

/-- A step that does not mutate leaves the files as they are. -/
theorem Step.apply_of_not_mutates {files : Files N B} {t : Step N B} (h : t.mutates = false) :
    t.apply files = files := by
  cases t with
  | fsync | fsyncDir => rfl
  | _ => cases h

/-- Steps that change no file leave the files alone. -/
theorem Disk.performAll_files (d : Disk N B) {steps : List (Step N B)}
    (h : ∀ t ∈ steps, t.mutates = false) : (d.performAll steps).files = d.files := by
  induction steps generalizing d with
  | nil => rfl
  | cons t steps ih =>
    rw [performAll_cons, ih _ fun t' ht' ↦ h t' (List.mem_cons_of_mem _ ht'), perform_files,
      Step.apply_of_not_mutates (h t List.mem_cons_self)]

/-- The disk has come from `d₀`, and as long as no file was changed the state satisfies `A`. -/
def Since (d₀ : Disk N B) (A : σ → Prop) (s : σ) (d : Disk N B) : Prop :=
  ∃ steps, d = d₀.performAll steps ∧ ((∀ t ∈ steps, t.mutates = false) → A s)

namespace Since

variable {d₀ d : Disk N B} {A : σ → Prop} {A' : τ → Prop} {s : σ} {s' : τ}

theorem start (h : A s) : Since d₀ A s d₀ := ⟨[], rfl, fun _ ↦ h⟩

theorem imp (h : Since d₀ A s d) (hA : A s → A' s') : Since d₀ A' s' d := by
  obtain ⟨steps, hd, ha⟩ := h
  exact ⟨steps, hd, fun hstill ↦ hA (ha hstill)⟩

/-- What was owed is not owed any more. -/
theorem changed (h : Since d₀ (fun _ : σ ↦ False) s d) : Since d₀ A' s' d := h.imp False.elim

/-- A further step does not make anything owed that was not. -/
theorem perform (h : Since d₀ A s d) (t : Step N B) : Since d₀ A s (d.perform t) := by
  obtain ⟨steps, rfl, ha⟩ := h
  refine ⟨steps ++ [t], (Disk.performAll_append _ _ [t]).symm, fun hstill ↦ ha fun t' ht' ↦ ?_⟩
  exact hstill t' (List.mem_append_left _ ht')

theorem performAll (h : Since d₀ A s d) (steps : List (Step N B)) :
    Since d₀ A s (d.performAll steps) := by
  induction steps generalizing d with
  | nil => exact h
  | cons t steps ih => exact ih (h.perform t)

/-- **A step that changes a file** settles everything. -/
theorem perform_mutates (h : Since d₀ A s d) {t : Step N B} (ht : t.mutates = true) :
    Since d₀ (fun _ ↦ False) s' (d.perform t) := by
  obtain ⟨steps, rfl, -⟩ := h
  refine ⟨steps ++ [t], (Disk.performAll_append _ _ [t]).symm, fun hstill ↦ ?_⟩
  have hnot := hstill t (List.mem_append_right _ List.mem_cons_self)
  rw [ht] at hnot
  cases hnot

end Since

/-! ### The judgement -/

/-- From `A` to `B` on a return and to `E` on an exception, as long as no file was changed. -/
def Careful (A : σ → Prop) (m : Act N B ε σ α) (Q : α → σ → Prop) (E : σ → Prop) : Prop :=
  ∀ (S : List Event) (d₀ : Disk N B),
    Spec S (Since d₀ A) m (fun a ↦ Since d₀ (Q a)) (fun _ ↦ Since d₀ E) fun _ ↦ True

/-- Once a file has been changed, that stays so. -/
def Grows (m : Act N B ε σ α) : Prop :=
  Careful (fun _ ↦ False) m (fun _ _ ↦ False) fun _ ↦ False

namespace Careful

variable {m : Act N B ε σ α} {A : σ → Prop} {Q : α → σ → Prop} {E : σ → Prop}

/-- What is assumed may be strengthened, and what is concluded weakened. -/
theorem conseq {A' : σ → Prop} {Q' : α → σ → Prop} {E' : σ → Prop} (h : Careful A m Q E)
    (hA : ∀ s, A' s → A s) (hQ : ∀ a s, Q a s → Q' a s) (hE : ∀ s, E s → E' s) :
    Careful A' m Q' E' := fun S d₀ ↦
  (h S d₀).conseq (fun _ _ hs ↦ hs.imp (hA _)) (fun _ _ _ hs ↦ hs.imp (hQ _ _))
    (fun _ _ _ hs ↦ hs.imp (hE _)) fun _ ↦ id

/-- A program that only looks keeps what is owed. -/
theorem of_quiet (h : Quiet m) (A : σ → Prop) : Careful A m (fun _ ↦ A) A := fun _ d₀ ↦
  (h.spec (Since d₀ A)).conseq (fun _ _ ↦ id) (fun _ _ _ ↦ id) (fun _ _ _ ↦ id) fun _ _ ↦ trivial

/-- A sequence is careful if its second part is careful from wherever the first one returns. -/
theorem bind {k : α → Act N B ε σ β} {R : β → σ → Prop} (hm : Careful A m Q E)
    (hk : ∀ a, Careful (Q a) (k a) R E) : Careful A (m >>= k) R E :=
  fun S d₀ ↦ Spec.bind (hm S d₀) fun a ↦ hk a S d₀

theorem ite {c : Prop} [Decidable c] {m₁ m₂ : Act N B ε σ α} (h₁ : Careful A m₁ Q E)
    (h₂ : Careful A m₂ Q E) : Careful A (if c then m₁ else m₂) Q E := by
  split
  · exact h₁
  · exact h₂

/-- A handler sees the object after an exception. -/
theorem onException {handler : σ → σ} {E' : σ → Prop} (h : Careful A m Q E)
    (hE : ∀ s, E s → E' (handler s)) : Careful A (Act.onException m handler) Q E' := fun S d₀ ↦
  Spec.onException ((h S d₀).conseq (fun _ _ ↦ id) (fun _ _ _ ↦ id) (fun _ _ _ hs ↦ hs.imp (hE _))
    fun _ ↦ id)

/-- A step that may be done in part only. -/
theorem step (t : Step N B) (onFail : ε) (A : σ → Prop) :
    Careful A (Act.step t onFail) (fun _ ↦ A) A := fun _ _ ↦
  Spec.step (fun _ _ h ↦ h.perform t) (fun _ _ _ _ h ↦ h.performAll _) fun _ _ _ _ ↦ trivial

/-- After a step that changes a file nothing is owed. -/
theorem step_mutates {t : Step N B} (ht : t.mutates = true) (onFail : ε) (A : σ → Prop) :
    Careful A (Act.step t onFail) (fun _ _ ↦ False) A := fun _ _ ↦
  Spec.step (fun _ _ h ↦ h.perform_mutates ht)
    (fun _ _ _ _ h ↦ h.performAll _) fun _ _ _ _ ↦ trivial

/-- After a write of some bytes nothing is owed. -/
theorem writeAll (name : N) {bytes : List B} (hne : bytes ≠ []) (onFail onZero : ε) (A : σ → Prop) :
    Careful A (Act.writeAll name bytes onFail onZero) (fun _ _ ↦ False) A := by
  intro S d₀
  refine (Spec.writeAll name bytes onFail onZero
    (fun done s d ↦ Since d₀ A s d ∧ (done ≠ [] → Since d₀ (fun _ : σ ↦ False) s d)) ?_).conseq
      ?_ ?_ ?_
      fun _ _ ↦ trivial
  · rintro done piece s d - ⟨h, -⟩
    exact ⟨h.perform _, fun _ ↦ h.perform_mutates rfl⟩
  · exact fun s d h ↦ ⟨h, fun hnil ↦ absurd rfl hnil⟩
  · exact fun _ s d h ↦ h.2 hne
  · rintro _ s d ⟨-, -, p, -, h, -⟩
    exact h

/-- **One run that throws** without having changed a file. -/
theorem of_throw (h : Careful A m Q E) {s s' : σ} {w w' : World N B} {e : ε} (ha : A s)
    (hrun : m (s, w) = .error (.exn e) (s', w'))
    (hnone : ∀ t ∈ w'.log.drop w.log.length, t.mutates = false) : w'.files = w.files ∧ E s' := by
  have hspec := h w.sched w.toDisk s w (Since.start ha) (List.suffix_refl _)
  rw [hrun] at hspec
  obtain ⟨steps, hd, hE⟩ := hspec
  have hlog : w'.log = w.log ++ steps := by rw [hd, Disk.performAll_log]
  rw [hlog, List.drop_left] at hnone
  exact ⟨by rw [hd, Disk.performAll_files _ hnone], hE hnone⟩

/-- **Look, write, then anything.** -/
theorem bind_grows {k : α → Act N B ε σ β} (hm : Careful A m (fun _ _ ↦ False) E)
    (hk : ∀ a, Grows (k a)) : Careful A (m >>= k) (fun _ _ ↦ False) E :=
  hm.bind fun a ↦ (hk a).conseq (fun _ ↦ id) (fun _ _ ↦ id) fun _ ↦ False.elim

end Careful

namespace Grows

variable {m : Act N B ε σ α}

theorem of_quiet (h : Quiet m) : Grows m := Careful.of_quiet h _

/-- If neither part of a sequence takes a change back, the sequence does not. -/
theorem bind {k : α → Act N B ε σ β} (hm : Grows m) (hk : ∀ a, Grows (k a)) : Grows (m >>= k) :=
  Careful.bind hm hk

/-- A step takes no change back, nor does a part of it. -/
theorem step (t : Step N B) (onFail : ε) : Grows (Act.step t onFail : Act N B ε σ Unit) :=
  Careful.step t onFail _

theorem tryStep (t : Step N B) : Grows (Act.tryStep t : Act N B ε σ Unit) := fun _ _ ↦
  Spec.tryStep (fun _ _ h ↦ h.perform t) (fun _ _ _ _ h ↦ h.performAll _) fun _ _ _ _ ↦ trivial

theorem update (f : σ → σ) : Grows (Act.update f : Act N B ε σ Unit) := fun _ _ ↦
  Spec.update fun _ _ h ↦ h.changed

/-- However many pieces the bytes are written in, no change is taken back. -/
theorem writeAll (name : N) (bytes : List B) (onFail onZero : ε) :
    Grows (Act.writeAll name bytes onFail onZero : Act N B ε σ Unit) := fun _ d₀ ↦
  (Spec.writeAll name bytes onFail onZero (fun _ s d ↦ Since d₀ (fun _ : σ ↦ False) s d)
    (fun _ _ _ _ _ h ↦ h.perform _)).conseq (fun _ _ ↦ id) (fun _ _ _ ↦ id)
      (fun _ _ _ h ↦ h.2.2.choose_spec.2) fun _ _ ↦ trivial

theorem onException {handler : σ → σ} (h : Grows m) : Grows (Act.onException m handler) :=
  Careful.onException h fun _ ↦ id

theorem zoom {part : σ → τ} {put : τ → σ → σ} {m : Act N B ε τ α} (h : Grows m) :
    Grows (Act.zoom part put m) := fun S d₀ ↦ Spec.zoom fun _ ↦
  (h S d₀).conseq (fun _ _ ht ↦ ht.2.changed) (fun _ _ _ ht ↦ ht.changed)
    (fun _ _ _ ht ↦ ht.changed)
    fun _ ↦ id

/-- A program that is careful from every state keeps what was changed before it. -/
theorem of_careful {Q : σ → α → σ → Prop} {E : σ → σ → Prop}
    (h : ∀ s₀, Careful (fun s ↦ s = s₀) m (Q s₀) (E s₀)) : Grows m := by
  rintro S d₀ s w ⟨steps, hd, hchanged⟩ hs
  have hextend : ∀ {A : σ → Prop} {s' : σ} {d' : Disk N B}, Since w.toDisk A s' d' →
      Since d₀ (fun _ : σ ↦ False) s' d' := by
    rintro A s' d' ⟨steps', hd', -⟩
    refine ⟨steps ++ steps', by rw [hd', hd, Disk.performAll_append], fun hnone ↦ hchanged ?_⟩
    exact fun t ht ↦ hnone t (List.mem_append_left _ ht)
  have hspec := h s S w.toDisk s w (Since.start rfl) hs
  revert hspec
  rcases m (s, w) with ⟨a, s', w'⟩ | ⟨e | -, s', w'⟩
  · exact fun hspec ↦ ⟨hextend hspec.1, hspec.2⟩
  · exact fun hspec ↦ hextend hspec
  · exact id

theorem forM {ι : Type} {f : ι → Act N B ε σ PUnit} (h : ∀ a, Grows (f a)) (l : List ι) :
    Grows (l.forM f) := by
  induction l with
  | nil => exact of_quiet (Quiet.pure _)
  | cons a l ih => exact (h a).bind fun _ ↦ ih

end Grows

/-- **A careful program on a part of the state.** -/
theorem Careful.zoom {part : σ → τ} {put : τ → σ → σ} {m : Act N B ε τ α} {Q : τ → α → τ → Prop}
    {E : τ → τ → Prop} (h : ∀ t₀, Careful (fun t ↦ t = t₀) m (Q t₀) (E t₀)) (s₀ : σ) :
    Careful (fun s ↦ s = s₀) (Act.zoom part put m) (fun a s ↦ ∃ t, Q (part s₀) a t ∧ s = put t s₀)
      fun s ↦ ∃ t, E (part s₀) t ∧ s = put t s₀ := by
  intro S d₀
  refine Spec.zoom fun s ↦ ?_
  by_cases hs : s = s₀
  · subst hs
    refine (h (part s) S d₀).conseq ?_ (fun _ t _ ht ↦ ht.imp fun hq ↦ ⟨t, hq, rfl⟩)
      (fun _ t _ ht ↦ ht.imp fun he ↦ ⟨t, he, rfl⟩) fun _ ↦ id
    rintro t d ⟨rfl, hd⟩
    exact hd.imp fun _ ↦ rfl
  · -- the state is another one, so a file has been changed already
    refine (Grows.of_careful h S d₀).conseq (fun t d ht ↦ ht.2.imp fun heq ↦ hs heq)
      (fun _ _ _ ht ↦ ht.changed) (fun _ _ _ ht ↦ ht.changed) fun _ ↦ id

end FaultyDisk
