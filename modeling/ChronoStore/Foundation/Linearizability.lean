import Mathlib.Data.List.Basic
import Mathlib.Data.List.Nodup

/-!
# Linearizability through crashes

An object is called by clients that nothing holds in step. What can be seen of it from outside is a
history of events: a call begins, answers, ends without an answer, and now and then a crash ends all
calls that are under way. The history is **linearizable** when there is an order of calls, each with
an answer, such that

* the calls stand in the order in which they could have been made one after the other, with these
  answers, on the object the sequential specification describes;
* every call that answered is there, with the answer it gave; of the calls that ended otherwise each
  is there or not;
* a call that was over before another began stands before it.

A call that a crash has cut off is over then. So a history is only linearizable here when what a
crash cuts off takes effect before the crash or never, and what answered before a crash is there
after it.

The order is built along the run. Each rule says what one more event, or one more call in the order,
asks for; an invariant of a system that follows the rules is a proof that all its histories are
linearizable.
-/

namespace Linearizability

variable {ι α β σ : Type}

/-- What can be seen of the calls on an object. Every call has an identity of its own. -/
inductive Event (ι α β : Type)
  | invoke (i : ι) (a : α)
  | respond (i : ι) (b : β)
  /-- The call ends without an answer. -/
  | abort (i : ι)
  /-- All calls that are under way end. -/
  | crash

/-- The call an event belongs to. -/
def Event.call? : Event ι α β → Option ι
  | .invoke i _ => some i
  | .respond i _ => some i
  | .abort i => some i
  | .crash => none

/-- The event ends a call, if it comes after these. -/
def Event.Ends (before : List (Event ι α β)) (i : ι) : Event ι α β → Prop
  | .invoke _ _ => False
  | .respond j _ => j = i
  | .abort j => j = i
  | .crash => ∃ a, .invoke i a ∈ before

/-- The call is over. -/
def Over (events : List (Event ι α β)) (i : ι) : Prop :=
  ∃ before e after, events = before ++ e :: after ∧ e.Ends before i

/-- Where a list that was extended by one element is split at an element. -/
theorem split_concat {γ : Type} {l before after : List γ} {x y : γ}
    (h : l ++ [x] = before ++ y :: after) :
    l = before ∧ x = y ∨ ∃ after', l = before ++ y :: after' := by
  rcases List.eq_nil_or_concat after with rfl | ⟨after', last, rfl⟩
  · obtain ⟨hl, hx⟩ := List.append_inj' h rfl
    exact Or.inl ⟨hl, List.singleton_inj.1 hx⟩
  · rw [List.concat_eq_append, ← List.cons_append, ← List.append_assoc] at h
    exact Or.inr ⟨after', (List.append_inj' h rfl).1⟩

section Over

variable {events more : List (Event ι α β)} {e : Event ι α β} {i j : ι}

/-- A call that is over stays over. -/
theorem Over.append (h : Over events i) : Over (events ++ more) i := by
  obtain ⟨before, e, after, rfl, he⟩ := h
  exact ⟨before, e, after ++ more, by simp, he⟩

/-- A call is over after one more event if it was or if the event ends it. -/
theorem over_concat_iff : Over (events ++ [e]) i ↔ Over events i ∨ e.Ends events i := by
  constructor
  · rintro ⟨before, e', after, heq, he⟩
    rcases split_concat heq with ⟨rfl, rfl⟩ | ⟨after', rfl⟩
    · exact Or.inr he
    · exact Or.inl ⟨before, e', after', rfl, he⟩
  · rintro (h | h)
    · exact h.append
    · exact ⟨events, e, [], rfl, h⟩

/-- A call that is over has been seen. -/
theorem Over.exists_call (h : Over events i) : ∃ e ∈ events, e.call? = some i := by
  obtain ⟨before, e, after, rfl, he⟩ := h
  cases e with
  | invoke => exact he.elim
  | respond j b =>
    obtain rfl : j = i := he
    exact ⟨.respond j b, by simp, rfl⟩
  | abort j =>
    obtain rfl : j = i := he
    exact ⟨.abort j, by simp, rfl⟩
  | crash =>
    obtain ⟨a, ha⟩ := he
    exact ⟨.invoke i a, by simp [ha], rfl⟩

end Over

/-- A call with its answer. -/
structure Action (ι α β : Type) where
  call : ι
  op : α
  answer : β

/-- Calls that are made one after the other on the object of a sequential specification. -/
inductive Legal (step : σ → α → β → σ → Prop) (s : σ) : List (Action ι α β) → σ → Prop
  | nil : Legal step s [] s
  | concat {order : List (Action ι α β)} {s₁ s₂ : σ} {x : Action ι α β} : Legal step s order s₁ →
    step s₁ x.op x.answer s₂ → Legal step s (order ++ [x]) s₂

/-- The order linearizes the history, and leads from one state of the object to another. -/
structure Linearizes (step : σ → α → β → σ → Prop) (s : σ) (events : List (Event ι α β))
    (order : List (Action ι α β)) (s' : σ) : Prop where
  /-- Every call is made at most once. -/
  nodup : (order.map Action.call).Nodup
  /-- Only what was called is made. -/
  invoked : ∀ x ∈ order, .invoke x.call x.op ∈ events
  /-- What answered is made, with this answer. -/
  answered : ∀ i b, .respond i b ∈ events → ∃ a, ⟨i, a, b⟩ ∈ order
  /-- What was over before another call began is made before it. -/
  ordered : ∀ before after i j a, events = before ++ .invoke j a :: after → Over before i →
    i ∈ order.map Action.call → j ∈ order.map Action.call → [i, j].Sublist (order.map Action.call)
  legal : Legal step s order s'

namespace Linearizes

variable {step : σ → α → β → σ → Prop} {s s₁ s₂ : σ} {events : List (Event ι α β)}
  {order : List (Action ι α β)}

/-- Nothing has happened, and nothing is in order. -/
theorem nil (step : σ → α → β → σ → Prop) (s : σ) :
    Linearizes step s ([] : List (Event ι α β)) [] s where
  nodup := List.nodup_nil
  invoked := by simp
  answered := by simp
  ordered := by simp
  legal := .nil

/-- One more event that does not begin a call. -/
theorem event (h : Linearizes step s events order s₁) {e : Event ι α β}
    (hnot : ∀ i a, e ≠ .invoke i a)
    (hanswer : ∀ i b, e = .respond i b → ∃ a, ⟨i, a, b⟩ ∈ order) :
    Linearizes step s (events ++ [e]) order s₁ where
  nodup := h.nodup
  invoked x hx := List.mem_append_left _ (h.invoked x hx)
  answered i b hmem := by
    rcases List.mem_append.1 hmem with hmem | hmem
    · exact h.answered i b hmem
    · exact hanswer i b (List.mem_singleton.1 hmem).symm
  ordered before after i j a heq := by
    rcases split_concat heq with ⟨-, hlast⟩ | ⟨after', hevents⟩
    · exact absurd hlast (hnot j a)
    · exact h.ordered before after' i j a hevents
  legal := h.legal

/-- **A call begins.** -/
theorem invoke (h : Linearizes step s events order s₁) {j : ι} (a : α)
    (hfresh : ∀ e ∈ events, e.call? ≠ some j) :
    Linearizes step s (events ++ [.invoke j a]) order s₁ where
  nodup := h.nodup
  invoked x hx := List.mem_append_left _ (h.invoked x hx)
  answered i b hmem := h.answered i b (by simpa using hmem)
  ordered before after i k b heq hover hi hk := by
    rcases split_concat heq with ⟨rfl, hlast⟩ | ⟨after', hevents⟩
    · -- the call that begins is not in the order yet
      obtain ⟨rfl, -⟩ := Event.invoke.inj hlast
      obtain ⟨x, hx, hcall⟩ := List.mem_map.1 hk
      exact absurd (congrArg some hcall) (hfresh _ (h.invoked x hx))
    · exact h.ordered before after' i k b hevents hover hi hk
  legal := h.legal

/-- **A call answers** as it was made. -/
theorem respond (h : Linearizes step s events order s₁) {i : ι} {a : α} {b : β}
    (hmem : ⟨i, a, b⟩ ∈ order) : Linearizes step s (events ++ [.respond i b]) order s₁ := by
  refine h.event (by simp) fun i' b' heq ↦ ?_
  obtain ⟨rfl, rfl⟩ := Event.respond.inj heq
  exact ⟨a, hmem⟩

/-- A call ends without an answer. -/
theorem abort (h : Linearizes step s events order s₁) (i : ι) :
    Linearizes step s (events ++ [.abort i]) order s₁ := h.event (by simp) (by simp)

theorem crash (h : Linearizes step s events order s₁) :
    Linearizes step s (events ++ [.crash]) order s₁ := h.event (by simp) (by simp)

/-- **A call is made**: it has begun, it is not over, and it was not made before. -/
theorem concat (h : Linearizes step s events order s₁) {i : ι} {a : α} {b : β}
    (hinvoked : .invoke i a ∈ events) (hover : ¬Over events i) (hnew : i ∉ order.map Action.call)
    (hstep : step s₁ a b s₂) : Linearizes step s events (order ++ [⟨i, a, b⟩]) s₂ where
  nodup := by
    rw [List.map_append, List.map_singleton]
    exact List.nodup_append.2 ⟨h.nodup, List.nodup_singleton _, by
      rintro j hj k hk rfl
      rw [List.mem_singleton.1 hk] at hj
      exact hnew hj⟩
  invoked x hx := by
    rcases List.mem_append.1 hx with hx | hx
    · exact h.invoked x hx
    · rwa [List.mem_singleton.1 hx]
  answered j c hmem := by
    obtain ⟨a', ha'⟩ := h.answered j c hmem
    exact ⟨a', List.mem_append_left _ ha'⟩
  ordered before after j k c heq hbefore hj hk := by
    rw [List.map_append, List.map_singleton] at hj hk ⊢
    have hji : j ≠ i := by
      rintro rfl
      exact hover (heq ▸ hbefore.append)
    have hj' : j ∈ order.map Action.call := by simpa [hji] using hj
    rcases List.mem_append.1 hk with hk | hk
    · exact (h.ordered before after j k c heq hbefore hj' hk).trans (List.sublist_append_left _ _)
    · obtain rfl := List.mem_singleton.1 hk
      exact (List.singleton_sublist.2 hj').append (List.Sublist.refl _)
  legal := h.legal.concat hstep

end Linearizes

end Linearizability
