import ChronoStore.Foundation.DiskLogic

/-!
# The files that a program leaves alone

`Avoids T A m Q E` is a frame condition together with two invariants, one of the state and one of
the directory. The territory `T` names the files that are none of the program's, and a property of
the directory that is decided by a few files more. Started from a state in `A`, the program leaves
the former as they are and keeps the latter, however it ends, a crash included; on a return its
state is in `Q`, on an exception in `E`. Whether a step touches a name can be read off the step,
also of a step that is cut short, so the rule of a step asks for nothing but that its names lie
outside of both.
-/

namespace FaultyDisk

variable {N B ε σ τ α β : Type} [LinearOrder N]

/-- Both directories have the same files under the names in `P`. -/
def AgreeOn (P : N → Prop) (f g : Files N B) : Prop := ∀ name, P name → g.find? name = f.find? name

omit [LinearOrder N] in
/-- A part of a step touches what the step touches. -/
theorem Step.touches_of_mem_truncated {t t' : Step N B} {n : ℕ} (h : t' ∈ t.truncated n) :
    t'.touches = t.touches := by
  by_cases happend : ∃ name bytes, t = .append name bytes
  · obtain ⟨name, bytes, rfl⟩ := happend
    obtain rfl := List.mem_singleton.1 h
    rfl
  · rcases truncated_eq (fun name bytes heq ↦ happend ⟨name, bytes, heq⟩) n with heq | heq
    · rw [heq] at h
      cases h
    · rw [heq] at h
      rw [List.mem_singleton.1 h]

namespace AgreeOn

variable {P : N → Prop} {f g h : Files N B}

theorem refl (f : Files N B) : AgreeOn P f f := fun _ _ ↦ rfl

theorem trans (hfg : AgreeOn P f g) (hgh : AgreeOn P g h) : AgreeOn P f h := fun name hname ↦
  (hgh name hname).trans (hfg name hname)

/-- A step on other names keeps the agreement. -/
theorem perform {d : Disk N B} (hf : AgreeOn P f d.files) {t : Step N B}
    (ht : ∀ n ∈ t.touches, ¬P n) :
    AgreeOn P f (d.perform t).files := fun name hname ↦ by
  rw [Disk.perform_files, Step.find?_apply_of_notMem fun hmem ↦ ht name hmem hname]
  exact hf name hname

/-- Steps on other names keep the agreement. -/
theorem performAll {d : Disk N B} (hf : AgreeOn P f d.files) {steps : List (Step N B)}
    (ht : ∀ t ∈ steps, ∀ n ∈ t.touches, ¬P n) : AgreeOn P f (d.performAll steps).files := by
  induction steps generalizing d with
  | nil => exact hf
  | cons t steps ih =>
    exact ih (hf.perform (ht t List.mem_cons_self)) fun t' ht' ↦ ht t' (List.mem_cons_of_mem _ ht')

end AgreeOn

/-- What a program must leave as it is: the files with the names in `alone`, and the property `kept`
of the directory, which the files with the names in `watched` decide. -/
structure Territory (N B : Type) [LinearOrder N] where
  alone : N → Prop
  watched : N → Prop
  kept : Files N B → Prop
  kept_congr : ∀ {f g : Files N B}, AgreeOn watched f g → kept f → kept g

namespace Territory

/-- Names alone, and no property. -/
def ofNames (P : N → Prop) : Territory N B := ⟨P, fun _ ↦ False, fun _ ↦ True, fun _ _ ↦ trivial⟩

variable (T : Territory N B)

/-- A name that a step may touch. -/
def Open (name : N) : Prop := ¬T.alone name ∧ ¬T.watched name

/-- The second directory was left by a program that started with the first. -/
def Left (f g : Files N B) : Prop := AgreeOn T.alone f g ∧ T.kept g

variable {T} {f g : Files N B} {d : Disk N B} {t : Step N B}

/-- Where certain names are kept, the others are open. -/
theorem open_ofNames {P : N → Prop} {name : N} : (ofNames P : Territory N B).Open name ↔ ¬P name :=
  ⟨And.left, fun h ↦ ⟨h, not_false⟩⟩

/-- Where certain names are kept, files are left as they were if they agree on these. -/
theorem left_ofNames {P : N → Prop} : (ofNames P : Territory N B).Left f g ↔ AgreeOn P f g :=
  ⟨And.left, fun h ↦ ⟨h, trivial⟩⟩

theorem Left.refl (h : T.kept f) : T.Left f f := ⟨.refl f, h⟩

theorem Left.trans {g' : Files N B} (hfg : T.Left f g) (hgg : T.Left g g') : T.Left f g' :=
  ⟨hfg.1.trans hgg.1, hgg.2⟩

/-- Steps on open names leave everything else. -/
theorem Left.performAll {steps : List (Step N B)} (h : T.Left f d.files)
    (ht : ∀ t ∈ steps, ∀ n ∈ t.touches, T.Open n) : T.Left f (d.performAll steps).files :=
  ⟨h.1.performAll fun t hmem n hn ↦ (ht t hmem n hn).1,
    T.kept_congr (AgreeOn.performAll (.refl _) fun t hmem n hn ↦ (ht t hmem n hn).2) h.2⟩

theorem Left.perform (h : T.Left f d.files) (ht : ∀ n ∈ t.touches, T.Open n) :
    T.Left f (d.perform t).files :=
  Left.performAll (d := d) h (List.forall_mem_singleton.2 ht)

/-- A part of a step on open names leaves everything else. -/
theorem Left.performAll_truncated (h : T.Left f d.files) (ht : ∀ n ∈ t.touches, T.Open n) (n : ℕ) :
    T.Left f (d.performAll (t.truncated n)).files :=
  h.performAll fun _ hmem ↦ by rwa [Step.touches_of_mem_truncated hmem]

end Territory

/-- From `A` to `Q` on a return and to `E` on an exception, with the territory left as it is. -/
def Avoids (T : Territory N B) (A : σ → Prop) (m : Act N B ε σ α) (Q : α → σ → Prop)
    (E : σ → Prop) : Prop :=
  ∀ (S : List Event) (f : Files N B), Spec S (fun s d ↦ A s ∧ T.Left f d.files) m
    (fun a s d ↦ Q a s ∧ T.Left f d.files) (fun _ s d ↦ E s ∧ T.Left f d.files)
    fun d ↦ T.Left f d.files

namespace Avoids

variable {T : Territory N B} {A : σ → Prop} {m : Act N B ε σ α} {Q : α → σ → Prop} {E : σ → Prop}

/-- What is assumed may be strengthened, and what is concluded weakened. -/
theorem conseq {A' : σ → Prop} {Q' : α → σ → Prop} {E' : σ → Prop} (h : Avoids T A m Q E)
    (hA : ∀ s, A' s → A s) (hQ : ∀ a s, Q a s → Q' a s) (hE : ∀ s, E s → E' s) :
    Avoids T A' m Q' E' := fun S f ↦
  (h S f).conseq (fun s _ hs ↦ ⟨hA s hs.1, hs.2⟩) (fun a s _ hs ↦ ⟨hQ a s hs.1, hs.2⟩)
    (fun _ s _ hs ↦ ⟨hE s hs.1, hs.2⟩) fun _ ↦ id

/-- A program that only looks. -/
theorem of_quiet (h : Quiet m) (A : σ → Prop) : Avoids T A m (fun _ ↦ A) A := fun _ _ ↦
  (h.spec _).conseq (fun _ _ ↦ id) (fun _ _ _ ↦ id) (fun _ _ _ ↦ id) fun _ ⟨_, hs⟩ ↦ hs.2

/-- A program that only looks, with something known of what it finds. -/
theorem of_reads {J : ε → Prop} {R : α → Prop} (h : ∀ f : Files N B, T.kept f → ∃ r : Except ε α,
    (∀ S, Reads S J (fun g ↦ g = f) m r) ∧ ∀ a, r = .ok a → R a) (A : σ → Prop) :
    Avoids T A m (fun a s ↦ R a ∧ A s) A := by
  intro S f s w hs hsuf
  obtain ⟨r, hr, hR⟩ := h w.files hs.2.2
  refine Spec.reads (A := fun s d ↦ (A s ∧ T.Left f d.files) ∧ d.files = w.files) (hr S)
    (fun _ _ hd ↦ hd.2) ?_ (fun _ _ _ _ hd ↦ hd.1) (fun _ _ hd ↦ hd.1.2) s w ⟨hs, rfl⟩ hsuf
  exact fun a _ _ hok hd ↦ ⟨⟨hR a hok, hd.1.1⟩, hd.1.2⟩

theorem pure {a : α} (h : ∀ s, A s → Q a s) : Avoids T A (Pure.pure a : Act N B ε σ α) Q E :=
  fun _ _ ↦
  Spec.pure fun s _ hs ↦ ⟨h s hs.1, hs.2⟩

/-- A sequence keeps out if its second part does from wherever the first one returns. -/
theorem bind {k : α → Act N B ε σ β} {R : β → σ → Prop} (hm : Avoids T A m Q E)
    (hk : ∀ a, Avoids T (Q a) (k a) R E) : Avoids T A (m >>= k) R E := fun S f ↦
  Spec.bind (hm S f) fun a ↦ hk a S f

/-- A fact that holds before may be used as a hypothesis. -/
theorem assume {p : Prop} (h : p → Avoids T A m Q E) : Avoids T (fun s ↦ p ∧ A s) m Q E := fun S f ↦
  (Spec.assume fun hp ↦ h hp S f).pre fun _ _ hs ↦ ⟨hs.1.1, hs.1.2, hs.2⟩

theorem throw (e : ε) (h : ∀ s, A s → E s) : Avoids T A (Act.throw e : Act N B ε σ α) Q E :=
  fun _ _ ↦
  Spec.throw fun s _ hs ↦ ⟨h s hs.1, hs.2⟩

/-- A value computed aside. -/
theorem ofExcept (r : Except ε α) (A : σ → Prop) :
    Avoids T A (Act.ofExcept r : Act N B ε σ α) (fun a s ↦ r = .ok a ∧ A s) A := fun _ _ ↦
  Spec.ofExcept (fun _ _ _ hr hs ↦ ⟨⟨hr, hs.1⟩, hs.2⟩) fun _ _ _ _ hs ↦ hs

theorem state : Avoids T A (Act.state : Act N B ε σ σ) (fun a s ↦ A a ∧ A s) E := fun _ _ ↦
  Spec.state fun _ _ hs ↦ ⟨⟨hs.1, hs.1⟩, hs.2⟩

theorem update {g : σ → σ} {R : Unit → σ → Prop} (h : ∀ s, A s → R () (g s)) :
    Avoids T A (Act.update g : Act N B ε σ Unit) R E := fun _ _ ↦
  Spec.update fun s _ hs ↦ ⟨h s hs.1, hs.2⟩

/-- A step on open names, done or in part. -/
theorem step {t : Step N B} (ht : ∀ n ∈ t.touches, T.Open n) (onFail : ε) (A : σ → Prop) :
    Avoids T A (Act.step t onFail) (fun _ ↦ A) A := fun _ _ ↦
  Spec.step (fun _ _ hs ↦ ⟨hs.1, hs.2.perform ht⟩)
    (fun _ _ n _ hs ↦ ⟨hs.1, hs.2.performAll_truncated ht n⟩) fun _ _ n hs ↦
      hs.2.performAll_truncated ht n

/-- A removal, of a name that may be watched where its absence does no harm. -/
theorem tryRemove {name : N} (hname : ¬T.alone name) (hkept : ∀ f, T.kept f → T.kept (f.erase name))
    (A : σ → Prop) : Avoids T A (Act.tryStep (.remove name) : Act N B ε σ Unit) (fun _ ↦ A) E := by
  intro S f
  have htouches : ∀ n ∈ (Step.remove name : Step N B).touches, ¬T.alone n := by
    simpa [Step.touches] using hname
  have hdone : ∀ d : Disk N B, T.Left f d.files → T.Left f (d.perform (.remove name)).files :=
    fun d hd ↦
    ⟨hd.1.perform htouches, by
      rw [Disk.perform_files, Step.apply]
      exact hkept _ hd.2⟩
  have hpart : ∀ (d : Disk N B) (n : ℕ), T.Left f d.files →
      T.Left f (d.performAll ((Step.remove name).truncated n)).files := fun d n hd ↦ by
    rcases Step.truncated_eq (s := (.remove name : Step N B)) (by simp) n with heq | heq
    · rwa [heq]
    · rw [heq]
      exact hdone d hd
  exact Spec.tryStep (fun _ d hs ↦ ⟨hs.1, hdone d hs.2⟩) (fun _ d n _ hs ↦ ⟨hs.1, hpart d n hs.2⟩)
    fun _ d n hs ↦ hpart d n hs.2

/-- Bytes written to an open name, in however many pieces. -/
theorem writeAll {name : N} (hname : T.Open name) (bytes : List B) (onFail onZero : ε)
    (A : σ → Prop) :
    Avoids T A (Act.writeAll name bytes onFail onZero) (fun _ ↦ A) A := fun _ f ↦
  (Spec.writeAll name bytes onFail onZero (fun _ s d ↦ A s ∧ T.Left f d.files)
    fun _ _ _ _ _ hs ↦ ⟨hs.1, hs.2.perform (by simpa [Step.touches] using hname)⟩).conseq
      (fun _ _ ↦ id) (fun _ _ _ ↦ id) (fun _ _ _ hs ↦ hs.2.2.choose_spec.2) fun _ hs ↦
        hs.choose_spec.choose_spec.2.2

/-- A file with an open name is created if it is missing. -/
theorem openAppend {name : N} (hname : T.Open name) (onFail : ε) (A : σ → Prop) :
    Avoids T A (Act.openAppend name onFail : Act N B ε σ Unit) (fun _ ↦ A) A := by
  refine bind (Q := fun _ ↦ A) (fun _ _ ↦ Spec.files fun _ _ hs ↦ hs) fun files ↦ ?_
  split
  · exact of_quiet (Quiet.probe onFail) A
  · exact step (by simpa [Step.touches] using hname) onFail A

/-- A handler sees the object after an exception; the files are left either way. -/
theorem onException {handler : σ → σ} {E' : σ → Prop} (h : Avoids T A m Q E)
    (hE : ∀ s, E s → E' (handler s)) : Avoids T A (Act.onException m handler) Q E' := fun S f ↦
  Spec.onException ((h S f).conseq (fun _ _ ↦ id) (fun _ _ _ ↦ id)
    (fun _ s _ hs ↦ ⟨hE s hs.1, hs.2⟩)
    fun _ ↦ id)

/-- A translated exception leaves the files alone. -/
theorem rethrow {ε' : Type} {f : ε → ε'} (h : Avoids T A m Q E) :
    Avoids T A (Act.rethrow f m : Act N B ε' σ α) Q E := fun S g ↦ Spec.rethrow (h S g)

/-- A program on a part of the state, of which nothing has to be known. -/
theorem zoom {part : σ → τ} {put : τ → σ → σ} {m : Act N B ε τ α}
    (h : Avoids T (fun _ ↦ True) m (fun _ _ ↦ True) fun _ ↦ True) (hA : ∀ s t, A s → A (put t s)) :
    Avoids T A (Act.zoom part put m) (fun _ ↦ A) A := fun S f ↦ Spec.zoom fun s ↦ by
  refine (Spec.assume (A := fun _ d ↦ True ∧ T.Left f d.files) fun hs : A s ↦
    (h S f).conseq (fun _ _ ↦ id) (fun _ t _ ht ↦ ⟨hA s t hs, ht.2⟩)
      (fun _ t _ ht ↦ ⟨hA s t hs, ht.2⟩) fun _ ↦ id).pre ?_
  exact fun _ _ ht ↦ ⟨ht.2.1, trivial, ht.2.2⟩

theorem ite {c : Prop} [Decidable c] {m₁ m₂ : Act N B ε σ α} (h₁ : c → Avoids T A m₁ Q E)
    (h₂ : ¬c → Avoids T A m₂ Q E) : Avoids T A (if c then m₁ else m₂) Q E := by
  split
  · exact h₁ ‹_›
  · exact h₂ ‹_›

/-- A loop keeps out if each of its rounds does. -/
theorem forM {ι : Type} {l : List ι} {g : ι → Act N B ε σ PUnit}
    (h : ∀ a ∈ l, Avoids T A (g a) (fun _ ↦ A) E) :
    Avoids T A (l.forM g) (fun _ ↦ A) E := by
  induction l with
  | nil => exact pure fun _ hs ↦ hs
  | cons a l ih =>
    exact (h a List.mem_cons_self).bind fun _ ↦ ih fun a ha ↦ h a (List.mem_cons_of_mem _ ha)

/-- A loop with an accumulator keeps out, with an invariant of accumulator and object. -/
theorem foldlM {ι : Type} {l : List ι} {g : β → ι → Act N B ε σ β} {I : β → σ → Prop}
    (h : ∀ b, ∀ a ∈ l, Avoids T (I b) (g b a) I E) (b : β) : Avoids T (I b) (l.foldlM g b) I E := by
  induction l generalizing b with
  | nil => exact pure fun _ hs ↦ hs
  | cons a l ih =>
    exact (h b a List.mem_cons_self).bind fun b' ↦
      ih (fun b a ha ↦ h b a (List.mem_cons_of_mem _ ha)) b'

/-- What is said of a program whose value is forgotten. -/
theorem of_forget {Q : σ → Prop} (h : Avoids T A (do let _ ← m : Act N B ε σ Unit) (fun _ ↦ Q) E) :
    Avoids T A m (fun _ ↦ Q) E := fun S f ↦ Spec.of_map (f := fun _ ↦ ()) (h S f)

/-! ### What it says of one run -/

/-- What is left by a run that returns. -/
theorem of_ok (h : Avoids T A m Q E) {s s' : σ} {w w' : World N B} {a : α} (hs : A s)
    (hkept : T.kept w.files) (hrun : m (s, w) = .ok a (s', w')) :
    Q a s' ∧ T.Left w.files w'.files :=
  Spec.of_ok (h w.sched w.files) ⟨hs, .refl hkept⟩ hrun

/-- What is left by a run that throws or is killed; after an exception the object is known too. -/
theorem of_error (h : Avoids T A m Q E) {s s' : σ} {w w' : World N B} {stop : Stop ε} (hs : A s)
    (hkept : T.kept w.files) (hrun : m (s, w) = .error stop (s', w')) :
    T.Left w.files w'.files ∧ ((∃ e, stop = .exn e) → E s') := by
  have hspec := h w.sched w.files s w ⟨hs, .refl hkept⟩ (List.suffix_refl _)
  rw [hrun] at hspec
  cases stop with
  | exn e => exact ⟨hspec.2, fun _ ↦ hspec.1⟩
  | crash => exact ⟨hspec.2, fun ⟨_, h⟩ ↦ nomatch h⟩

end Avoids

end FaultyDisk
