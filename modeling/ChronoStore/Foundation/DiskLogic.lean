import ChronoStore.Foundation.FaultyDisk

/-!
# Reasoning about programs over a faulty disk

Two judgements, both over every schedule that is a suffix of a fixed one `S`.

* `Spec S A m Q E C` — started where `A` holds, `m` ends where `Q` holds if it returns, where `E`
  holds if it throws, and where `C` holds if the process crashes. `C` speaks of the disk alone: the
  state a program keeps dies with the process, the disk is what a restart finds.
* `Reads S J F m r` — `m` changes nothing, and on every directory satisfying `F` it computes `r`: it
  returns the value of `r`, or throws the exception of `r`, or is cut short by a failure or a crash
  that the schedule contains. The exceptions of failing calls satisfy `J`.

`Reads` is a relation between an effectful program and a pure one, closed under the ways programs
are put together. A program written once for every monad is thereby related to its own pure
instance, and what is proved about the pure instance — codecs, searches, merges — is available of
the effectful one through `Spec.reads`.
-/

namespace FaultyDisk

variable {N B ε σ τ α β : Type} [LinearOrder N] {S : List Event}

/-- The condition on an ending, one for each way to end. -/
def Ends (S : List Event) (Q : α → σ → Disk N B → Prop) (E : ε → σ → Disk N B → Prop)
    (C : Disk N B → Prop) : EStateM.Result (Stop ε) (σ × World N B) α → Prop
  | .ok a (s, w) => Q a s w.toDisk ∧ w.sched <:+ S
  | .error (.exn e) (s, w) => E e s w.toDisk
  | .error .crash (_, w) => Crashing S ∧ C w.toDisk

/-- Pre- and postcondition with one exit for each way to end. -/
def Spec (S : List Event) (A : σ → Disk N B → Prop) (m : Act N B ε σ α)
    (Q : α → σ → Disk N B → Prop) (E : ε → σ → Disk N B → Prop) (C : Disk N B → Prop) : Prop :=
  ∀ (s : σ) (w : World N B), A s w.toDisk → w.sched <:+ S → Ends S Q E C (m (s, w))

/-- A program that changes nothing and computes `r` on every directory satisfying `F`. -/
def Reads (S : List Event) (J : ε → Prop) (F : Files N B → Prop) (m : Act N B ε σ α)
    (r : Except ε α) : Prop :=
  ∀ (s : σ) (w : World N B), F w.files → w.sched <:+ S →
    Ends S (fun a s' d ↦ r = .ok a ∧ s' = s ∧ d = w.toDisk)
      (fun e s' d ↦ (r = .error e ∨ Failing S ∧ J e) ∧ s' = s ∧ d = w.toDisk)
      (fun d ↦ d = w.toDisk) (m (s, w))

/-- The second part of a sequence runs where the first one has returned. -/
theorem bind_apply (m : Act N B ε σ α) (k : α → Act N B ε σ β) (x : σ × World N B) :
    (m >>= k) x = match m x with
      | .ok a y => k a y
      | .error e y => .error e y := by
  change EStateM.bind m k x = _
  unfold EStateM.bind
  rcases m x with ⟨a, y⟩ | ⟨e, y⟩ <;> rfl

/-- A sequence returns if and only if both of its parts do. -/
theorem bind_eq_ok_iff {m : Act N B ε σ α} {k : α → Act N B ε σ β} {x z : σ × World N B} {b : β} :
    (m >>= k) x = .ok b z ↔ ∃ a y, m x = .ok a y ∧ k a y = .ok b z := by
  rw [bind_apply]
  rcases m x with ⟨a, y⟩ | ⟨err, y⟩
  · constructor
    · exact fun h ↦ ⟨a, y, rfl, h⟩
    · rintro ⟨_, _, h, hk⟩
      cases h
      exact hk
  · exact ⟨fun h ↦ (nomatch h), fun ⟨_, _, h, _⟩ ↦ (nomatch h)⟩

/-- A program that throws when its value is forgotten throws. -/
theorem eq_error_of_forget {m : Act N B ε σ α} {x y : σ × World N B} {e : Stop ε}
    (h : (do let _ ← m : Act N B ε σ Unit) x = .error e y) : m x = .error e y := by
  rw [bind_apply] at h
  revert h
  rcases m x with ⟨a, z⟩ | ⟨e', z⟩
  · intro h
    cases h
  · intro h
    obtain ⟨rfl, rfl⟩ := EStateM.Result.error.inj h
    rfl

/-! ### Rules for specifications -/

namespace Spec

variable {A A' : σ → Disk N B → Prop} {m : Act N B ε σ α} {Q Q' : α → σ → Disk N B → Prop}
  {E E' : ε → σ → Disk N B → Prop} {C C' : Disk N B → Prop}

/-- What is assumed may be strengthened, and what is concluded weakened, in all three ways out. -/
theorem conseq (h : Spec S A m Q E C) (hA : ∀ s d, A' s d → A s d)
    (hQ : ∀ a s d, Q a s d → Q' a s d) (hE : ∀ e s d, E e s d → E' e s d)
    (hC : ∀ d, C d → C' d) : Spec S A' m Q' E' C' := by
  intro s w ha hs
  have := h s w (hA s _ ha) hs
  revert this
  rcases m (s, w) with ⟨a, s', w'⟩ | ⟨e | -, s', w'⟩
  · exact fun hq ↦ ⟨hQ a s' _ hq.1, hq.2⟩
  · exact hE e s' _
  · exact fun hc ↦ ⟨hc.1, hC _ hc.2⟩

/-- Strengthen the precondition. -/
theorem pre (h : Spec S A m Q E C) (hA : ∀ s d, A' s d → A s d) : Spec S A' m Q E C :=
  h.conseq hA (fun _ _ _ ↦ id) (fun _ _ _ ↦ id) (fun _ ↦ id)

/-- Weaken the postcondition of a return. -/
theorem post (h : Spec S A m Q E C) (hQ : ∀ a s d, Q a s d → Q' a s d) : Spec S A m Q' E C :=
  h.conseq (fun _ _ ↦ id) hQ (fun _ _ _ ↦ id) (fun _ ↦ id)

theorem pure {a : α} (h : ∀ s d, A s d → Q a s d) : Spec S A (Pure.pure a) Q E C :=
  fun s _ ha hs ↦ ⟨h s _ ha, hs⟩

/-- What holds after the first part is assumed by the second. An exception or a crash may come from
either. -/
theorem bind {k : α → Act N B ε σ β} {R : β → σ → Disk N B → Prop}
    (hm : Spec S A m Q E C) (hk : ∀ a, Spec S (Q a) (k a) R E C) :
    Spec S A (m >>= k) R E C := by
  intro s w ha hs
  have := hm s w ha hs
  rw [bind_apply]
  revert this
  rcases m (s, w) with ⟨a, s', w'⟩ | ⟨e | -, s', w'⟩
  · exact fun hq ↦ hk a s' w' hq.1 hq.2
  · exact id
  · exact id

/-- Two specifications of one program hold together. -/
theorem and {B : σ → Disk N B → Prop} (h : Spec S A m Q E C) (h' : Spec S B m Q' E' C') :
    Spec S (fun s d ↦ A s d ∧ B s d) m (fun a s d ↦ Q a s d ∧ Q' a s d)
      (fun e s d ↦ E e s d ∧ E' e s d) (fun d ↦ C d ∧ C' d) := by
  intro s w ha hs
  have hfst := h s w ha.1 hs
  have hsnd := h' s w ha.2 hs
  revert hfst hsnd
  rcases m (s, w) with ⟨a, s', w'⟩ | ⟨e | -, s', w'⟩
  · exact fun hq hq' ↦ ⟨⟨hq.1, hq'.1⟩, hq.2⟩
  · exact And.intro
  · exact fun hc hc' ↦ ⟨hc.1, hc.2, hc'.2⟩

/-- What is made of the result of a program changes nothing else. -/
theorem of_map {f : α → β} {Q : β → σ → Disk N B → Prop} (h : Spec S A (do return f (← m)) Q E C) :
    Spec S A m (fun a ↦ Q (f a)) E C := by
  intro s w ha hs
  have := h s w ha hs
  rw [bind_apply] at this
  revert this
  rcases m (s, w) with ⟨a, s', w'⟩ | ⟨e | -, s', w'⟩ <;> exact id

/-- A precondition may be assumed as a hypothesis. -/
theorem assume {P : Prop} (h : P → Spec S A m Q E C) :
    Spec S (fun s d ↦ P ∧ A s d) m Q E C :=
  fun s w ha hs ↦ h ha.1 s w ha.2 hs

/-- An existential in the precondition may be opened. -/
theorem exists_pre {ι : Sort*} {A : ι → σ → Disk N B → Prop} (h : ∀ i, Spec S (A i) m Q E C) :
    Spec S (fun s d ↦ ∃ i, A i s d) m Q E C :=
  fun s w ⟨i, ha⟩ hs ↦ h i s w ha hs

theorem throw {e : ε} (h : ∀ s d, A s d → E e s d) :
    Spec S A (Act.throw e : Act N B ε σ α) Q E C :=
  fun s _ ha _ ↦ h s _ ha

/-- A computation that does not use the disk returns or throws. -/
theorem ofExcept {r : Except ε α} (hok : ∀ a s d, r = .ok a → A s d → Q a s d)
    (herr : ∀ e s d, r = .error e → A s d → E e s d) : Spec S A (Act.ofExcept r) Q E C := by
  intro s w ha hs
  cases r with
  | ok a => exact ⟨hok a s _ rfl ha, hs⟩
  | error e => exact herr e s _ rfl ha

theorem state {R : σ → σ → Disk N B → Prop} (h : ∀ s d, A s d → R s s d) :
    Spec S A (Act.state : Act N B ε σ σ) R E C :=
  fun s _ ha hs ↦ ⟨h s _ ha, hs⟩

theorem update {f : σ → σ} {R : Unit → σ → Disk N B → Prop} (h : ∀ s d, A s d → R () (f s) d) :
    Spec S A (Act.update f : Act N B ε σ Unit) R E C :=
  fun s _ ha hs ↦ ⟨h s _ ha, hs⟩

/-- Looking at the files changes nothing. -/
theorem files {R : Files N B → σ → Disk N B → Prop} (h : ∀ s d, A s d → R d.files s d) :
    Spec S A (Act.files : Act N B ε σ (Files N B)) R E C :=
  fun s _ ha hs ↦ ⟨h s _ ha, hs⟩

/-- A program on a part of the object. The part is put back after an exception too. -/
theorem zoom {part : σ → τ} {put : τ → σ → σ} {m : Act N B ε τ α}
    (h : ∀ s, Spec S (fun t d ↦ t = part s ∧ A s d) m (fun a t d ↦ Q a (put t s) d)
      (fun e t d ↦ E e (put t s) d) C) : Spec S A (Act.zoom part put m) Q E C := by
  intro s w ha hs
  have := h s (part s) w ⟨rfl, ha⟩ hs
  simp only [Act.zoom]
  revert this
  rcases m (part s, w) with ⟨a, t, w'⟩ | ⟨e | -, t, w'⟩ <;> exact id

/-- A handler sees the object after an exception; a crash is not handled. -/
theorem onException {handler : σ → σ} (h : Spec S A m Q (fun e s d ↦ E e (handler s) d) C) :
    Spec S A (Act.onException m handler) Q E C := by
  intro s w ha hs
  have := h s w ha hs
  simp only [Act.onException]
  revert this
  rcases m (s, w) with ⟨a, s', w'⟩ | ⟨e | -, s', w'⟩ <;> exact id

/-- An exception that is translated on its way. -/
theorem rethrow {ε' : Type} {f : ε → ε'} {E : ε' → σ → Disk N B → Prop}
    (h : Spec S A m Q (fun e s d ↦ E (f e) s d) C) : Spec S A (Act.rethrow f m) Q E C := by
  intro s w ha hs
  have := h s w ha hs
  simp only [Act.rethrow]
  revert this
  rcases m (s, w) with ⟨a, s', w'⟩ | ⟨e | -, s', w'⟩ <;> exact id

theorem ite {c : Prop} [Decidable c] {m₁ m₂ : Act N B ε σ α} (h₁ : c → Spec S A m₁ Q E C)
    (h₂ : ¬c → Spec S A m₂ Q E C) : Spec S A (if c then m₁ else m₂) Q E C := by
  split
  · exact h₁ ‹_›
  · exact h₂ ‹_›

/-- A loop over a list, with an invariant that may speak of the part already visited. -/
theorem forM {ι : Type} {l : List ι} {f : ι → Act N B ε σ PUnit} (I : List ι → σ → Disk N B → Prop)
    (h : ∀ done a rest, l = done ++ a :: rest →
      Spec S (I done) (f a) (fun _ ↦ I (done ++ [a])) E C) :
    Spec S (I []) (l.forM f) (fun _ ↦ I l) E C := by
  have main : ∀ (rest done : List ι), l = done ++ rest →
      Spec S (I done) (rest.forM f) (fun _ ↦ I l) E C := by
    intro rest
    induction rest with
    | nil =>
      intro done hl
      rw [List.append_nil] at hl
      exact Spec.pure fun s d hi ↦ hl ▸ hi
    | cons a rest ih =>
      intro done hl
      exact (h done a rest hl).bind fun _ ↦ ih (done ++ [a]) (by simpa using hl)
  exact main l [] rfl

/-! ### The calls -/

/-- A call that can fail and changes nothing. -/
theorem probe {onFail : ε} (hfail : ∀ s d, Failing S → A s d → E onFail s d)
    (hcrash : ∀ s d, A s d → C d) :
    Spec S A (Act.probe onFail : Act N B ε σ Unit) (fun _ ↦ A) E C := by
  intro s w ha hs
  have hsuf := (settle_suffix w.sched).trans hs
  simp only [Act.probe]
  rcases hev : settle w.sched with ⟨ev, rest⟩
  rw [hev] at hsuf
  have hfst : (settle w.sched).1 = ev := by rw [hev]
  cases ev with
  | fail n => exact hfail s _ (failing_of_settle hs hfst) ha
  | crash n => exact ⟨crashing_of_settle hs hfst, hcrash s _ ha⟩
  | ok => exact ⟨ha, hsuf⟩
  | short n => exact ⟨ha, hsuf⟩
  | interrupted => exact ⟨ha, hsuf⟩

/-- A step that takes place, or of which only a part has taken place when it fails or the process is
killed. -/
theorem step {t : Step N B} {onFail : ε} {R : Unit → σ → Disk N B → Prop}
    (hdone : ∀ s d, A s d → R () s (d.perform t))
    (hfail : ∀ s d n, Failing S → A s d → E onFail s (d.performAll (t.truncated n)))
    (hcrash : ∀ s d n, A s d → C (d.performAll (t.truncated n))) :
    Spec S A (Act.step t onFail) R E C := by
  intro s w ha hs
  have hsuf := (settle_suffix w.sched).trans hs
  simp only [Act.step]
  rcases hev : settle w.sched with ⟨ev, rest⟩
  rw [hev] at hsuf
  have hfst : (settle w.sched).1 = ev := by rw [hev]
  cases ev with
  | fail n => exact hfail s _ n (failing_of_settle hs hfst) ha
  | crash n => exact ⟨crashing_of_settle hs hfst, hcrash s _ n ha⟩
  | ok => exact ⟨hdone s _ ha, hsuf⟩
  | short n => exact ⟨hdone s _ ha, hsuf⟩
  | interrupted => exact ⟨hdone s _ ha, hsuf⟩

/-- A step that is no write is done as a whole or not at all. -/
theorem whole {t : Step N B} {onFail : ε} {R : Unit → σ → Disk N B → Prop} {G : σ → Disk N B → Prop}
    (hwrite : ∀ name bytes, t ≠ .append name bytes) (hdone : ∀ s d, A s d → R () s (d.perform t))
    (hbefore : ∀ s d, A s d → G s d) (hafter : ∀ s d, R () s d → G s d) :
    Spec S A (Act.step t onFail) R (fun _ ↦ G) fun d ↦ ∃ s, G s d := by
  have hpart : ∀ s d n, A s d → G s (d.performAll (t.truncated n)) := by
    intro s d n ha
    obtain hnil | hone := Step.truncated_eq hwrite n
    · rw [hnil]
      exact hbefore s d ha
    · rw [hone]
      exact hafter s _ (hdone s d ha)
  exact step hdone (fun s d n _ ha ↦ hpart s d n ha) fun s d n ha ↦ ⟨s, hpart s d n ha⟩

/-- A step whose failure nobody notices: a part of it counts as done. -/
theorem tryStep {t : Step N B} {R : Unit → σ → Disk N B → Prop}
    (hdone : ∀ s d, A s d → R () s (d.perform t))
    (hpart : ∀ s d n, Failing S → A s d → R () s (d.performAll (t.truncated n)))
    (hcrash : ∀ s d n, A s d → C (d.performAll (t.truncated n))) :
    Spec S A (Act.tryStep t) R E C := by
  intro s w ha hs
  have hsuf := (settle_suffix w.sched).trans hs
  simp only [Act.tryStep]
  rcases hev : settle w.sched with ⟨ev, rest⟩
  rw [hev] at hsuf
  have hfst : (settle w.sched).1 = ev := by rw [hev]
  cases ev with
  | fail n => exact ⟨hpart s _ n (failing_of_settle hs hfst) ha, hsuf⟩
  | crash n => exact ⟨crashing_of_settle hs hfst, hcrash s _ n ha⟩
  | ok => exact ⟨hdone s _ ha, hsuf⟩
  | short n => exact ⟨hdone s _ ha, hsuf⟩
  | interrupted => exact ⟨hdone s _ ha, hsuf⟩

/-- **The write loop.** The invariant is told what has been written so far; whatever the operating
system does, that is a prefix of the bytes, and all of them on a return. -/
theorem writeAll (name : N) (bytes : List B) (onFail onZero : ε)
    (I : List B → σ → Disk N B → Prop)
    (hstep : ∀ done piece s d, done ++ piece <+: bytes → I done s d →
      I (done ++ piece) s (d.perform (.append name piece))) :
    Spec S (I []) (Act.writeAll name bytes onFail onZero) (fun _ ↦ I bytes)
      (fun e s d ↦ (e = onFail ∨ e = onZero) ∧ Failing S ∧ ∃ p, p <+: bytes ∧ I p s d)
      (fun d ↦ ∃ s p, p <+: bytes ∧ I p s d) := by
  -- the loop has written `done` and is left with `rest`
  have main : ∀ (sched : List Event), sched <:+ S → ∀ (done rest : List B), done ++ rest = bytes →
      ∀ (s : σ) (d : Disk N B), I done s d →
      Ends S (fun _ ↦ I bytes)
        (fun e s d ↦ (e = onFail ∨ e = onZero) ∧ Failing S ∧ ∃ p, p <+: bytes ∧ I p s d)
        (fun d ↦ ∃ s p, p <+: bytes ∧ I p s d)
        (Act.writeLoop name onFail onZero sched rest (s, d)) := by
    intro sched
    induction sched with
    | nil =>
      intro hs done rest hrest s d hi
      cases rest with
      | nil =>
        rw [List.append_nil] at hrest
        exact ⟨hrest ▸ hi, hs⟩
      | cons b rest => exact ⟨hrest ▸ hstep done _ s d (hrest ▸ List.prefix_refl _) hi, hs⟩
    | cons ev sched ih =>
      intro hs done rest hrest s d hi
      have hs' : sched <:+ S := (List.suffix_cons ev sched).trans hs
      have hmem : ev ∈ S := hs.subset List.mem_cons_self
      have hpre : done <+: bytes := hrest ▸ List.prefix_append _ _
      cases rest with
      | nil =>
        rw [List.append_nil] at hrest
        rw [Act.writeLoop]
        exact ⟨hrest ▸ hi, hs⟩
      | cons b rest =>
        cases ev with
        | ok => exact ⟨hrest ▸ hstep done _ s d (hrest ▸ List.prefix_refl _) hi, hs'⟩
        | interrupted => exact ih hs' done (b :: rest) hrest s d hi
        | fail n => exact ⟨Or.inl rfl, ⟨_, hmem, rfl⟩, done, hpre, hi⟩
        | crash n =>
          have hp : done ++ (b :: rest).take n <+: bytes := by
            rw [← hrest]
            exact (List.prefix_append_right_inj _).2 (List.take_prefix _ _)
          exact ⟨⟨_, hmem, rfl⟩, s, _, hp, hstep done _ s d hp hi⟩
        | short n =>
          cases n with
          | zero => exact ⟨Or.inr rfl, ⟨_, hmem, rfl⟩, done, hpre, hi⟩
          | succ n =>
            have hsplit : done ++ (b :: rest.take n) ++ rest.drop n = bytes := by
              rw [← hrest]
              simp
            exact ih hs' _ _ hsplit s _ (hstep done _ s d (hsplit ▸ List.prefix_append _ _) hi)
  intro s w hi hs
  exact main w.sched hs [] bytes rfl s w.toDisk hi

/-- A reading program keeps every assertion that implies what it reads. -/
theorem reads {J : ε → Prop} {F : Files N B → Prop} {r : Except ε α} (h : Reads S J F m r)
    (hF : ∀ s d, A s d → F d.files)
    (hok : ∀ a s d, r = .ok a → A s d → Q a s d)
    (herr : ∀ e s d, r = .error e ∨ Failing S ∧ J e → A s d → E e s d)
    (hcrash : ∀ s d, A s d → C d) : Spec S A m Q E C := by
  intro s w ha hs
  have := h s w (hF s _ ha) hs
  revert this
  rcases m (s, w) with ⟨a, s', w'⟩ | ⟨e | -, s', w'⟩
  · rintro ⟨⟨hr, rfl, hd⟩, hsuf⟩
    exact ⟨hok a s' _ hr (hd ▸ ha), hsuf⟩
  · rintro ⟨hr, rfl, hd⟩
    exact herr e s' _ hr (hd ▸ ha)
  · rintro ⟨hc, hd⟩
    exact ⟨hc, hcrash s _ (hd ▸ ha)⟩

/-! ### What a specification says of one run -/

/-- What a specification says about a run that returns. -/
theorem of_ok {s s' : σ} {w w' : World N B} {a : α} (h : Spec w.sched A m Q E C) (ha : A s w.toDisk)
    (hrun : m (s, w) = .ok a (s', w')) : Q a s' w'.toDisk := by
  have := h s w ha (List.suffix_refl _)
  rw [hrun] at this
  exact this.1

/-- A program that cannot throw returns, unless the process crashes. -/
theorem returns {s : σ} {w : World N B} (h : Spec S A m Q (fun _ _ _ ↦ False) C) (hc : ¬Crashing S)
    (ha : A s w.toDisk) (hs : w.sched <:+ S) :
    ∃ a s' w', m (s, w) = .ok a (s', w') ∧ Q a s' w'.toDisk := by
  have := h s w ha hs
  revert this
  rcases hm : m (s, w) with ⟨a, s', w'⟩ | ⟨e | -, s', w'⟩
  · exact fun hq ↦ ⟨a, s', w', rfl, hq.1⟩
  · exact False.elim
  · exact fun hq ↦ absurd hq.1 hc

/-- A program that cannot return throws, unless the process crashes. -/
theorem throws {s : σ} {w : World N B} (h : Spec S A m (fun _ _ _ ↦ False) E C) (hc : ¬Crashing S)
    (ha : A s w.toDisk) (hs : w.sched <:+ S) :
    ∃ e s' w', m (s, w) = .error (.exn e) (s', w') ∧ E e s' w'.toDisk := by
  have := h s w ha hs
  revert this
  rcases hm : m (s, w) with ⟨a, s', w'⟩ | ⟨e | -, s', w'⟩
  · exact fun hq ↦ hq.1.elim
  · exact fun he ↦ ⟨e, s', w', rfl, he⟩
  · exact fun hq ↦ absurd hq.1 hc

end Spec

/-! ### Rules for reading programs -/

namespace Reads

variable {J : ε → Prop} {F F' : Files N B → Prop} {m : Act N B ε σ α} {r : Except ε α}

/-- A program may be related for one directory at a time. -/
theorem of_forall (h : ∀ f, F f → Reads S J (fun g ↦ g = f) m r) : Reads S J F m r :=
  fun s w hf hs ↦ h w.files hf s w rfl hs

theorem pure (a : α) : Reads S J F (Pure.pure a : Act N B ε σ α) (.ok a) :=
  fun _ _ _ hs ↦ ⟨⟨rfl, rfl, rfl⟩, hs⟩

/-- A computation that does not use the disk reads nothing. -/
theorem ofExcept (r : Except ε α) : Reads S J F (Act.ofExcept r : Act N B ε σ α) r := by
  intro s w _ hs
  cases r with
  | ok a => exact ⟨⟨rfl, rfl, rfl⟩, hs⟩
  | error e => exact ⟨Or.inl rfl, rfl, rfl⟩

theorem throw (e : ε) : Reads S J F (Act.throw e : Act N B ε σ α) (.error e) := ofExcept (.error e)

/-- Two programs that read, one after the other. -/
theorem bind {k : α → Act N B ε σ β} {g : α → Except ε β} (hm : Reads S J F m r)
    (hk : ∀ a, r = .ok a → Reads S J F (k a) (g a)) : Reads S J F (m >>= k) (r >>= g) := by
  intro s w hf hs
  have := hm s w hf hs
  rw [bind_apply]
  revert this
  rcases m (s, w) with ⟨a, s', w'⟩ | ⟨e | -, s', w'⟩
  · rintro ⟨⟨rfl, rfl, hd⟩, hsuf⟩
    have hf' : F w'.files := by rw [hd]; exact hf
    have := hk a rfl s' w' hf' hsuf
    rw [hd] at this
    exact this
  · rintro ⟨hr | hr, h⟩
    · subst hr
      exact ⟨Or.inl rfl, h⟩
    · exact ⟨Or.inr hr, h⟩
  · exact id

theorem map {f : α → β} (hm : Reads S J F m r) : Reads S J F (f <$> m) (f <$> r) := by
  have := hm.bind (k := fun a ↦ Pure.pure (f a)) (g := fun a ↦ .ok (f a)) fun a _ ↦ pure (f a)
  rw [map_eq_pure_bind]
  cases r with
  | ok a => exact this
  | error e => exact this

/-- A call that fails throws one of the errors that are allowed for. -/
theorem probe {e : ε} (hJ : J e) : Reads S J F (Act.probe e : Act N B ε σ Unit) (.ok ()) := by
  intro s w _ hs
  have hsuf := (settle_suffix w.sched).trans hs
  simp only [Act.probe]
  rcases hev : settle w.sched with ⟨ev, rest⟩
  rw [hev] at hsuf
  have hfst : (settle w.sched).1 = ev := by rw [hev]
  cases ev with
  | fail n => exact ⟨Or.inr ⟨failing_of_settle hs hfst, hJ⟩, rfl, rfl⟩
  | crash n => exact ⟨crashing_of_settle hs hfst, rfl⟩
  | ok => exact ⟨⟨trivial, rfl, rfl⟩, hsuf⟩
  | short n => exact ⟨⟨trivial, rfl, rfl⟩, hsuf⟩
  | interrupted => exact ⟨⟨trivial, rfl, rfl⟩, hsuf⟩

/-- The content of a file that is the same in all these directories. -/
theorem lookup {name : N} {c : Option (List B)} {onFail : ε} (hJ : J onFail)
    (h : ∀ f, F f → f.find? name = c) :
    Reads S J F (Act.lookup name onFail : Act N B ε σ (Option (List B))) (.ok c) := by
  refine (probe hJ).bind (g := fun _ ↦ .ok c) fun _ _ ↦ ?_
  intro s w hf hs
  exact ⟨⟨congrArg _ (h _ hf).symm, rfl, rfl⟩, hs⟩

/-- Opening a file that is there changes nothing. -/
theorem openAppend {name : N} {content : List B} {onFail : ε} (hJ : J onFail)
    (h : ∀ f, F f → f.find? name = some content) :
    Reads S J F (Act.openAppend name onFail : Act N B ε σ Unit) (.ok ()) := by
  intro s w hf hs
  have heq : (Act.openAppend name onFail : Act N B ε σ Unit) (s, w) =
      (Act.probe onFail : Act N B ε σ Unit) (s, w) := by
    rw [Act.openAppend, bind_apply, Act.files]
    dsimp only
    rw [h _ hf, Option.isSome_some, if_pos rfl]
  rw [heq]
  exact probe hJ s w hf hs

theorem ite {c : Prop} [Decidable c] {m₁ m₂ : Act N B ε σ α} {r₁ r₂ : Except ε α}
    (h₁ : c → Reads S J F m₁ r₁) (h₂ : ¬c → Reads S J F m₂ r₂) :
    Reads S J F (if c then m₁ else m₂) (if c then r₁ else r₂) := by
  split
  · exact h₁ ‹_›
  · exact h₂ ‹_›

/-- A loop with an accumulator reads if each of its rounds does. -/
theorem foldlM {ι : Type} {l : List ι} {f : β → ι → Act N B ε σ β} {g : β → ι → Except ε β}
    (h : ∀ b, ∀ a ∈ l, Reads S J F (f b a) (g b a)) (b : β) :
    Reads S J F (l.foldlM f b) (l.foldlM g b) := by
  induction l generalizing b with
  | nil => exact pure b
  | cons a l ih =>
    exact (h b a List.mem_cons_self).bind fun b' _ ↦
      ih (fun b a ha ↦ h b a (List.mem_cons_of_mem _ ha)) b'

/-- One program for each element of a list. -/
theorem mapM {ι : Type} {l : List ι} {f : ι → Act N B ε σ β} {g : ι → Except ε β}
    (h : ∀ a ∈ l, Reads S J F (f a) (g a)) : Reads S J F (l.mapM' f) (l.mapM' g) := by
  induction l with
  | nil => exact pure []
  | cons a l ih =>
    exact (h a List.mem_cons_self).bind fun b _ ↦
      (ih fun a ha ↦ h a (List.mem_cons_of_mem _ ha)).bind fun bs _ ↦ pure (b :: bs)

theorem forM {ι : Type} {l : List ι} {f : ι → Act N B ε σ PUnit}
    (h : ∀ a ∈ l, Reads S J F (f a) (.ok ⟨⟩)) : Reads S J F (l.forM f) (.ok ⟨⟩) := by
  induction l with
  | nil => exact pure PUnit.unit
  | cons a l ih =>
    exact (h a List.mem_cons_self).bind (g := fun _ ↦ .ok PUnit.unit) fun _ _ ↦
      ih fun a ha ↦ h a (List.mem_cons_of_mem _ ha)

/-- The names of a directory, which are the same in all of these. -/
theorem list {l : List N} {onFail : ε} (hJ : J onFail) (h : ∀ f, F f → f.keys = l) :
    Reads S J F (Act.list onFail : Act N B ε σ (List N)) (.ok l) := by
  refine (probe hJ).bind (g := fun _ ↦ .ok l) fun _ _ ↦ ?_
  intro s w hf hs
  exact ⟨⟨congrArg _ (h _ hf).symm, rfl, rfl⟩, hs⟩

end Reads

/-! ### Programs that only look -/

/-- The program changes neither its state nor the disk, however it ends. -/
def Quiet (m : Act N B ε σ α) : Prop :=
  ∀ (S : List Event) (s₀ : σ) (d₀ : Disk N B),
    Spec S (fun s d ↦ s = s₀ ∧ d = d₀) m (fun _ s d ↦ s = s₀ ∧ d = d₀)
      (fun _ s d ↦ s = s₀ ∧ d = d₀) (fun d ↦ d = d₀)

namespace Quiet

variable {m : Act N B ε σ α} {J : ε → Prop}

/-- A quiet program keeps every assertion. -/
theorem spec (h : Quiet m) (A : σ → Disk N B → Prop) :
    Spec S A m (fun _ ↦ A) (fun _ ↦ A) (fun d ↦ ∃ s, A s d) := by
  intro s w ha hs
  have := h S s w.toDisk s w ⟨rfl, rfl⟩ hs
  revert this
  rcases m (s, w) with ⟨a, s', w'⟩ | ⟨e | -, s', w'⟩
  · rintro ⟨⟨rfl, hd⟩, hsuf⟩
    exact ⟨hd ▸ ha, hsuf⟩
  · rintro ⟨rfl, hd⟩
    exact show A s' w'.toDisk from hd ▸ ha
  · rintro ⟨hc, hd⟩
    exact ⟨hc, s, hd ▸ ha⟩

/-- A program that computes something on every directory is quiet. -/
theorem of_reads (h : ∀ f, ∃ r, ∀ S, Reads S J (fun g ↦ g = f) m r) : Quiet m := by
  intro S s₀ d₀
  obtain ⟨r, hr⟩ := h d₀.files
  refine Spec.reads (hr S) ?_ (fun _ _ _ _ h ↦ h) (fun _ _ _ _ h ↦ h) fun _ _ h ↦ h.2
  rintro s d ⟨-, rfl⟩
  rfl

theorem pure (a : α) : Quiet (Pure.pure a : Act N B ε σ α) :=
  fun _ _ _ ↦ Spec.pure fun _ _ h ↦ h

/-- Quiet programs in sequence are quiet. -/
theorem bind {k : α → Act N B ε σ β} (hm : Quiet m) (hk : ∀ a, Quiet (k a)) : Quiet (m >>= k) :=
  fun S s₀ d₀ ↦ Spec.bind (hm S s₀ d₀) fun a ↦ hk a S s₀ d₀

theorem throw (e : ε) : Quiet (Act.throw e : Act N B ε σ α) := fun _ _ _ ↦ Spec.throw fun _ _ h ↦ h

theorem ofExcept (r : Except ε α) : Quiet (Act.ofExcept r : Act N B ε σ α) :=
  fun _ _ _ ↦ Spec.ofExcept (fun _ _ _ _ h ↦ h) fun _ _ _ _ h ↦ h

theorem probe (onFail : ε) : Quiet (Act.probe onFail : Act N B ε σ Unit) := fun _ _ _ ↦
  Spec.probe (fun _ _ _ h ↦ h) fun _ _ h ↦ h.2

theorem state : Quiet (Act.state : Act N B ε σ σ) := fun _ _ _ ↦ Spec.state fun _ _ h ↦ h

theorem ite {c : Prop} [Decidable c] {m₁ m₂ : Act N B ε σ α} (h₁ : Quiet m₁) (h₂ : Quiet m₂) :
    Quiet (if c then m₁ else m₂) := by
  split
  · exact h₁
  · exact h₂

theorem lookup (name : N) (onFail : ε) :
    Quiet (Act.lookup name onFail : Act N B ε σ (Option (List B))) :=
  of_reads (J := fun _ ↦ True) fun f ↦ ⟨.ok (f.find? name), fun _ ↦
    Reads.lookup trivial fun _ h ↦ by rw [h]⟩

theorem list (onFail : ε) : Quiet (Act.list onFail : Act N B ε σ (List N)) :=
  of_reads (J := fun _ ↦ True) fun f ↦ ⟨.ok f.keys, fun _ ↦ Reads.list trivial fun _ h ↦ by rw [h]⟩

/-- A loop is quiet if each of its rounds is. -/
theorem foldlM {ι : Type} {f : β → ι → Act N B ε σ β} (h : ∀ b a, Quiet (f b a)) (l : List ι)
    (b : β) :
    Quiet (l.foldlM f b) := by
  induction l generalizing b with
  | nil => exact pure b
  | cons a l ih => exact (h b a).bind ih

end Quiet

/-! ### Programs that consult the disk -/

/-- The program only looks, and its result is determined by its state and the disk: failing calls
may keep it from returning, but cannot make it return something else. -/
def Consults (J : ε → Prop) (m : Act N B ε σ α) : Prop :=
  ∀ (s₀ : σ) (d₀ : Disk N B), ∃ r : Except ε α, ∀ S, Spec S (fun s d ↦ s = s₀ ∧ d = d₀) m
    (fun a s d ↦ r = .ok a ∧ s = s₀ ∧ d = d₀)
    (fun e s d ↦ (r = .error e ∨ Failing S ∧ J e) ∧ s = s₀ ∧ d = d₀) (fun d ↦ d = d₀)

namespace Consults

variable {m : Act N B ε σ α} {J : ε → Prop}

/-- A program whose outcome is determined by the files consults them and nothing else. -/
theorem of_reads (h : ∀ f, ∃ r, ∀ S, Reads S J (fun g ↦ g = f) m r) : Consults J m := by
  intro s₀ d₀
  obtain ⟨r, hr⟩ := h d₀.files
  refine ⟨r, fun S ↦ Spec.reads (hr S) ?_ (fun _ _ _ hr h ↦ ⟨hr, h⟩) (fun _ _ _ hr h ↦ ⟨hr, h⟩)
    fun _ _ h ↦ h.2⟩
  rintro s d ⟨-, rfl⟩
  rfl

theorem pure (a : α) : Consults J (Pure.pure a : Act N B ε σ α) := fun _ _ ↦
  ⟨.ok a, fun _ ↦ Spec.pure fun _ _ h ↦ ⟨rfl, h⟩⟩

theorem throw (e : ε) : Consults J (Act.throw e : Act N B ε σ α) := fun _ _ ↦
  ⟨.error e, fun _ ↦ Spec.throw fun _ _ h ↦ ⟨Or.inl rfl, h⟩⟩

theorem ofExcept (r : Except ε α) : Consults J (Act.ofExcept r : Act N B ε σ α) := fun _ _ ↦
  ⟨r, fun _ ↦ Spec.ofExcept (fun _ _ _ hr h ↦ ⟨hr, h⟩) fun _ _ _ hr h ↦ ⟨Or.inl hr, h⟩⟩

theorem state : Consults J (Act.state : Act N B ε σ σ) := fun s₀ _ ↦
  ⟨.ok s₀, fun _ ↦ Spec.state fun _ _ h ↦ ⟨by rw [h.1], h⟩⟩

/-- Programs in sequence consult the files if both do. -/
theorem bind {k : α → Act N B ε σ β} (hm : Consults J m) (hk : ∀ a, Consults J (k a)) :
    Consults J (m >>= k) := by
  intro s₀ d₀
  obtain ⟨r, hr⟩ := hm s₀ d₀
  cases r with
  | error e =>
    refine ⟨.error e, fun S ↦ Spec.bind (Q := fun _ _ _ ↦ False) ((hr S).conseq (fun _ _ ↦ id) ?_ ?_
      fun _ ↦ id) fun _ _ _ h ↦ h.elim⟩
    · rintro a s d ⟨h, -⟩
      cases h
    · rintro e' s d ⟨h, hd⟩
      exact ⟨h.imp_left fun h ↦ by rw [Except.error.inj h], hd⟩
  | ok a =>
    obtain ⟨r', hr'⟩ := hk a s₀ d₀
    refine ⟨r', fun S ↦ Spec.bind ((hr S).conseq (fun _ _ ↦ id) (fun _ _ _ ↦ id) ?_ fun _ ↦ id)
      fun a' ↦ Spec.assume fun ha ↦ Except.ok.inj ha ▸ hr' S⟩
    rintro e s d ⟨h | h, hd⟩
    · cases h
    · exact ⟨Or.inr h, hd⟩

theorem ite {c : Prop} [Decidable c] {m₁ m₂ : Act N B ε σ α} (h₁ : Consults J m₁)
    (h₂ : Consults J m₂) : Consults J (if c then m₁ else m₂) := by
  split
  · exact h₁
  · exact h₂

/-- **What the program returns where nothing fails** is what it returns wherever it returns, and
then only failing calls make it throw. -/
theorem spec_of_returns (h : Consults J m) {s₀ s : σ} {d₀ : Disk N B} {w : World N B} {a : α}
    (hrun : m (s₀, ⟨d₀, []⟩) = .ok a (s, w)) (S : List Event) :
    Spec S (fun s d ↦ s = s₀ ∧ d = d₀) m (fun b s d ↦ b = a ∧ s = s₀ ∧ d = d₀)
      (fun e s d ↦ (Failing S ∧ J e) ∧ s = s₀ ∧ d = d₀) (fun d ↦ d = d₀) := by
  obtain ⟨r, hr⟩ := h s₀ d₀
  obtain ⟨rfl, -⟩ := (hr []).of_ok (w := ⟨d₀, []⟩) ⟨rfl, rfl⟩ hrun
  refine (hr S).conseq (fun _ _ ↦ id) ?_ ?_ fun _ ↦ id
  · rintro b s d ⟨hb, h⟩
    exact ⟨(Except.ok.inj hb).symm, h⟩
  · rintro e s d ⟨he | he, h⟩
    · cases he
    · exact ⟨he, h⟩

end Consults

/-- On this state and these files the program changes nothing and computes `r`. -/
def Gives (J : ε → Prop) (m : Act N B ε σ α) (s₀ : σ) (f : Files N B) (r : Except ε α) : Prop :=
  ∀ S, Spec S (fun s d ↦ s = s₀ ∧ d.files = f) m (fun a s d ↦ r = .ok a ∧ s = s₀ ∧ d.files = f)
    (fun e s d ↦ (r = .error e ∨ Failing S ∧ J e) ∧ s = s₀ ∧ d.files = f) fun d ↦ d.files = f

namespace Gives

variable {m : Act N B ε σ α} {J : ε → Prop} {s₀ : σ} {f : Files N B} {r : Except ε α}

/-- A program that reads gives its result from every object. -/
theorem of_reads (h : ∀ S, Reads S J (fun g ↦ g = f) m r) (s₀ : σ) : Gives J m s₀ f r := fun S ↦
  Spec.reads (h S) (fun _ _ h ↦ h.2) (fun _ _ _ hr h ↦ ⟨hr, h⟩)
    (fun _ _ _ hr h ↦ ⟨hr, h⟩) fun _ _ h ↦ h.2

theorem state : Gives J (Act.state : Act N B ε σ σ) s₀ f (.ok s₀) := fun _ ↦
  Spec.state fun _ _ h ↦ ⟨by rw [h.1], h⟩

/-- Two programs that give results, one after the other; the second may use the first result. -/
theorem bind {k : α → Act N B ε σ β} {g : α → Except ε β} (hm : Gives J m s₀ f r)
    (hk : ∀ a, r = .ok a → Gives J (k a) s₀ f (g a)) : Gives J (m >>= k) s₀ f (r >>= g) := by
  intro S
  refine Spec.bind ((hm S).conseq (fun _ _ ↦ id) (fun _ _ _ ↦ id) ?_ fun _ ↦ id) fun a ↦
    Spec.assume fun ha ↦ ?_
  · rintro e s d ⟨he | he, h⟩
    · exact ⟨Or.inl (by rw [he]; rfl), h⟩
    · exact ⟨Or.inr he, h⟩
  · subst ha
    exact hk a rfl S

end Gives

/-! ### What a program makes of its own state -/

/-- Where the program returns, it has made of a state in `A` one in `Q`, whatever the disk is. -/
def Makes (A : σ → Prop) (m : Act N B ε σ α) (Q : α → σ → Prop) : Prop :=
  ∀ S : List Event, Spec S (fun s _ ↦ A s) m (fun a s _ ↦ Q a s) (fun _ _ _ ↦ True) fun _ ↦ True

namespace Makes

variable {m : Act N B ε σ α} {A A' : σ → Prop} {Q Q' : α → σ → Prop}

/-- What is assumed may be strengthened, and what is concluded weakened. -/
theorem conseq (h : Makes A m Q) (hA : ∀ s, A' s → A s) (hQ : ∀ a s, Q a s → Q' a s) :
    Makes A' m Q' := fun S ↦
  (h S).conseq (fun s _ ↦ hA s) (fun a s _ ↦ hQ a s) (fun _ _ _ ↦ id) fun _ ↦ id

/-- A quiet program makes nothing of the object. -/
theorem of_quiet (h : Quiet m) (A : σ → Prop) : Makes A m fun _ ↦ A := fun _ ↦
  (h.spec fun s _ ↦ A s).conseq (fun _ _ ↦ id) (fun _ _ _ ↦ id) (fun _ _ _ _ ↦ trivial)
    fun _ _ ↦ trivial

/-- A program that only consults the files makes nothing of the object. -/
theorem of_consults {J : ε → Prop} {s₀ : σ} (h : Consults J m) :
    Makes (fun s ↦ s = s₀) m fun _ s ↦ s = s₀ := by
  rintro S s w rfl hs
  obtain ⟨r, hr⟩ := h s w.toDisk
  exact (hr S).conseq (fun _ _ ↦ id) (fun _ _ _ h ↦ h.2.1) (fun _ _ _ _ ↦ trivial)
    (fun _ _ ↦ trivial) s w ⟨rfl, rfl⟩ hs

theorem pure {a : α} (h : ∀ s, A s → Q a s) : Makes A (Pure.pure a : Act N B ε σ α) Q := fun _ ↦
  Spec.pure fun s _ ↦ h s

/-- What the first part makes of the object is assumed by the second. -/
theorem bind {k : α → Act N B ε σ β} {R : β → σ → Prop} (hm : Makes A m Q)
    (hk : ∀ a, Makes (Q a) (k a) R) : Makes A (m >>= k) R := fun S ↦
  Spec.bind (hm S) fun a ↦ hk a S

/-- A fact that holds before may be used as a hypothesis. -/
theorem assume {P : Prop} (h : P → Makes A m Q) : Makes (fun s ↦ P ∧ A s) m Q := fun S ↦
  Spec.assume fun hp ↦ h hp S

/-- Something that exists before may be fixed. -/
theorem exists_pre {κ : Type} {A : κ → σ → Prop} (h : ∀ i, Makes (A i) m Q) :
    Makes (fun s ↦ ∃ i, A i s) m Q := fun S ↦ Spec.exists_pre fun i ↦ h i S

theorem throw (e : ε) : Makes A (Act.throw e : Act N B ε σ α) Q := fun _ ↦
  Spec.throw fun _ _ _ ↦ trivial

/-- The state is what it is. -/
theorem state {s₀ : σ} :
    Makes (fun s ↦ s = s₀) (Act.state : Act N B ε σ σ) fun a s ↦ a = s₀ ∧ s = s₀ := fun _ ↦
  Spec.state fun _ _ h ↦ ⟨h, h⟩

theorem update {f : σ → σ} {R : Unit → σ → Prop} (h : ∀ s, A s → R () (f s)) :
    Makes A (Act.update f : Act N B ε σ Unit) R := fun _ ↦
  Spec.update fun s _ ↦ h s

/-- The object does not change with the disk. -/
theorem step (t : Step N B) (onFail : ε) (A : σ → Prop) :
    Makes A (Act.step t onFail : Act N B ε σ Unit) fun _ ↦ A := fun _ ↦
  Spec.step (fun _ _ h ↦ h) (fun _ _ _ _ _ ↦ trivial) fun _ _ _ _ ↦ trivial

theorem tryStep (t : Step N B) (A : σ → Prop) :
    Makes A (Act.tryStep t : Act N B ε σ Unit) fun _ ↦ A := fun _ ↦
  Spec.tryStep (fun _ _ h ↦ h) (fun _ _ _ _ h ↦ h) fun _ _ _ _ ↦ trivial

/-- The object does not change however many pieces the bytes are written in. -/
theorem writeAll (name : N) (bytes : List B) (onFail onZero : ε) (A : σ → Prop) :
    Makes A (Act.writeAll name bytes onFail onZero : Act N B ε σ Unit) fun _ ↦ A := fun _ ↦
  (Spec.writeAll name bytes onFail onZero (fun _ s _ ↦ A s) fun _ _ _ _ _ h ↦ h).conseq
    (fun _ _ ↦ id) (fun _ _ _ ↦ id) (fun _ _ _ _ ↦ trivial) fun _ _ ↦ trivial

/-- A handler does not run when the program returns. -/
theorem onException {handler : σ → σ} (h : Makes A m Q) : Makes A (Act.onException m handler) Q :=
  fun S ↦ Spec.onException (h S)

/-- What a program makes of its part is made of the object. -/
theorem zoom {part : σ → τ} {put : τ → σ → σ} {m : Act N B ε τ α} {s₀ : σ} {P : α → τ → Prop}
    (h : Makes (fun t ↦ t = part s₀) m P) (hQ : ∀ a t, P a t → Q a (put t s₀)) :
    Makes (fun s ↦ s = s₀) (Act.zoom part put m) Q := fun S ↦ by
  refine Spec.zoom fun s ↦ ?_
  refine (Spec.assume (P := s = s₀) (A := fun t _ ↦ t = part s₀) fun hs ↦ (h S).conseq
    (fun _ _ ↦ id) (fun a t _ hp ↦ hs ▸ hQ a t hp) (fun _ _ _ ↦ id) fun _ ↦ id).pre ?_
  rintro t d ⟨rfl, rfl⟩
  exact ⟨rfl, rfl⟩

theorem ite {c : Prop} [Decidable c] {m₁ m₂ : Act N B ε σ α} (h₁ : c → Makes A m₁ Q)
    (h₂ : ¬c → Makes A m₂ Q) : Makes A (if c then m₁ else m₂) Q := by
  split
  · exact h₁ ‹_›
  · exact h₂ ‹_›

/-- A loop makes nothing of the object if none of its rounds does. -/
theorem forM {ι : Type} {l : List ι} {f : ι → Act N B ε σ PUnit}
    (h : ∀ a ∈ l, Makes A (f a) fun _ ↦ A) :
    Makes A (l.forM f) fun _ ↦ A := by
  induction l with
  | nil => exact pure fun _ h ↦ h
  | cons a l ih =>
    exact (h a List.mem_cons_self).bind fun _ ↦ ih fun a ha ↦ h a (List.mem_cons_of_mem _ ha)

end Makes

end FaultyDisk
