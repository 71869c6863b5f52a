import Mathlib.Control.Lawful
import Mathlib.Data.List.Basic
import Mathlib.Tactic.Basic

/-!
# Parsers that consume a prefix

A parser takes what it needs from the front of a token list and leaves the rest, or gives up. The
law of a self-delimiting format is `Parses p x a`: in front of **anything**, `p` reads exactly the
tokens `x`, as `a`. It is closed under sequencing, and round trips are built from it field by field.

The converse is read off a successful run: a run of a sequence is a run of its first part followed
by a run of the second (`run_bind_eq_some`), and a parser that only measures out tokens leaves what
it did not take (`eq_append_of_takeExactly`).

A parser of **fixed width** (`Consumes p n`) takes exactly `n` tokens whenever it succeeds, so what
stands behind its fields is known without knowing the fields.
-/

/-- A parser of values `α` from tokens `B`. -/
abbrev Parser (B α : Type) := StateT (List B) Option α

namespace Parser

variable {B α β : Type}

/-- In front of anything, `p` reads exactly `x`, as `a`. -/
def Parses (p : Parser B α) (x : List B) (a : α) : Prop :=
  ∀ rest, p.run (x ++ rest) = some (a, rest)

/-- A success takes exactly `n` tokens. -/
def Consumes (p : Parser B α) (n : ℕ) : Prop :=
  ∀ input a rest, p.run input = some (a, rest) → rest = input.drop n

/-- Take exactly `n` tokens. -/
def takeExactly (n : ℕ) : Parser B (List B) := fun input ↦
  if input.length < n then none else some (input.take n, input.drop n)

/-- Give up unless the condition holds. -/
def require (c : Bool) : Parser B Unit := if c then pure () else failure

/-- Give up unless the number of tokens that remain meets the condition. -/
def requireRemaining (c : ℕ → Bool) : Parser B Unit := fun input ↦
  if c input.length then some ((), input) else none

/-- The second parser starts where the first one stops. -/
theorem run_bind_eq (p : Parser B α) (k : α → Parser B β) (input : List B) :
    (p >>= k).run input = (p.run input).bind fun x ↦ (k x.1).run x.2 :=
  rfl

/-! ### Successful runs -/

/-- A sequence of parsers accepts if both do, one behind the other. -/
theorem run_bind_eq_some {p : Parser B α} {k : α → Parser B β} {input rest : List B} {b : β} :
    (p >>= k).run input = some (b, rest) ↔
      ∃ a mid, p.run input = some (a, mid) ∧ (k a).run mid = some (b, rest) := by
  rw [run_bind_eq, Option.bind_eq_some_iff]
  constructor
  · rintro ⟨⟨a, mid⟩, hp, hk⟩
    exact ⟨a, mid, hp, hk⟩
  · rintro ⟨a, mid, hp, hk⟩
    exact ⟨(a, mid), hp, hk⟩

theorem run_pure_eq_some {a b : α} {input rest : List B} :
    (Pure.pure a : Parser B α).run input = some (b, rest) ↔ b = a ∧ rest = input := by
  change some (a, input) = some (b, rest) ↔ _
  rw [Option.some.injEq, Prod.mk.injEq, eq_comm (a := a), eq_comm (a := input)]

/-- What is taken stands at the front of the input. -/
theorem eq_append_of_takeExactly {n : ℕ} {input taken rest : List B}
    (h : (takeExactly n).run input = some (taken, rest)) :
    input = taken ++ rest ∧ taken.length = n := by
  change (if input.length < n then none else some (input.take n, input.drop n)) = _ at h
  split at h
  · simp at h
  · rename_i hlen
    rw [Option.some.injEq, Prod.mk.injEq] at h
    obtain ⟨rfl, rfl⟩ := h
    exact ⟨(List.take_append_drop n input).symm, by rw [List.length_take]; omega⟩

/-- A condition that is required holds, and nothing is consumed. -/
theorem run_require_eq_some {c : Bool} {input rest : List B} {u : Unit} :
    (require c : Parser B Unit).run input = some (u, rest) ↔ c = true ∧ rest = input := by
  cases c with
  | true =>
    change some ((), input) = some (u, rest) ↔ _
    rw [Option.some.injEq, Prod.mk.injEq]
    exact ⟨fun h ↦ ⟨rfl, h.2.symm⟩, fun h ↦ ⟨rfl, h.2.symm⟩⟩
  | false =>
    change none = some (u, rest) ↔ _
    simp

/-- The same for a condition on what is left. -/
theorem run_requireRemaining_eq_some {c : ℕ → Bool} {input rest : List B} {u : Unit} :
    (requireRemaining c : Parser B Unit).run input = some (u, rest) ↔
      c input.length = true ∧ rest = input := by
  change (if c input.length = true then some ((), input) else none) = _ ↔ _
  split
  · rename_i hc
    rw [Option.some.injEq, Prod.mk.injEq]
    exact ⟨fun h ↦ ⟨hc, h.2.symm⟩, fun h ↦ ⟨rfl, h.2.symm⟩⟩
  · rename_i hc
    exact ⟨fun h ↦ by simp at h, fun h ↦ absurd h.1 hc⟩

/-- A value that may be missing is there, and nothing is consumed. -/
theorem run_liftM_eq_some {o : Option α} {a : α} {input rest : List B} :
    (liftM o : Parser B α).run input = some (a, rest) ↔ o = some a ∧ rest = input := by
  cases o with
  | none =>
    change none = some (a, rest) ↔ _
    simp
  | some b =>
    change some (b, input) = some (a, rest) ↔ _
    rw [Option.some.injEq, Prod.mk.injEq, Option.some.injEq, eq_comm (a := input)]

namespace Parses

theorem pure (a : α) : Parses (Pure.pure a : Parser B α) [] a := fun _ ↦ rfl

/-- Two texts in a row are parsed by two parsers in a row. -/
theorem bind {p : Parser B α} {k : α → Parser B β} {x y : List B} {a : α} {b : β}
    (hp : Parses p x a) (hk : Parses (k a) y b) : Parses (p >>= k) (x ++ y) b := by
  intro rest
  rw [run_bind_eq, List.append_assoc, hp]
  exact hk rest

/-- Sequencing with a step that consumes nothing. -/
theorem bind_nil {p : Parser B α} {k : α → Parser B β} {x : List B} {a : α} {b : β}
    (hp : Parses p x a) (hk : Parses (k a) [] b) : Parses (p >>= k) x b := by
  have := hp.bind hk
  rwa [List.append_nil] at this

/-- As many elements as the text has are the text. -/
theorem takeExactly (x : List B) : Parses (Parser.takeExactly x.length) x x := by
  intro rest
  have hlen : ¬(x ++ rest).length < x.length := by simp
  show (if (x ++ rest).length < x.length then none
    else some ((x ++ rest).take x.length, (x ++ rest).drop x.length)) = _
  rw [if_neg hlen, List.take_left, List.drop_left]

/-- A value that is there is parsed from nothing. -/
theorem ofOption {o : Option α} {a : α} (h : o = some a) :
    Parses (liftM o : Parser B α) [] a := by
  subst h
  exact fun _ ↦ rfl

theorem require {c : Bool} (h : c = true) : Parses (Parser.require c : Parser B Unit) [] () := by
  subst h
  exact fun _ ↦ rfl

/-- Looking at how much remains consumes nothing; at least what is about to be read remains. -/
theorem requireRemaining_bind {c : ℕ → Bool} {k : Unit → Parser B β} {x : List B} {b : β}
    (hc : ∀ n, x.length ≤ n → c n = true) (hk : Parses (k ()) x b) :
    Parses (Parser.requireRemaining c >>= k) x b := by
  intro rest
  have hlen : c (x ++ rest).length = true := hc _ (by rw [List.length_append]; omega)
  have hrun : (Parser.requireRemaining c).run (x ++ rest) = some ((), x ++ rest) := if_pos hlen
  rw [run_bind_eq, hrun]
  exact hk rest

/-- A parser that expects nothing else uses up the text. -/
theorem run_self {p : Parser B α} {x : List B} {a : α} (h : Parses p x a) :
    p.run x = some (a, []) := by
  have := h []
  rwa [List.append_nil] at this

end Parses

namespace Consumes

theorem pure (a : α) : Consumes (Pure.pure a : Parser B α) 0 := by
  intro input b rest h
  cases h
  rfl

/-- The lengths that two parsers consume are added up. -/
theorem bind {p : Parser B α} {k : α → Parser B β} {n m : ℕ} (hp : Consumes p n)
    (hk : ∀ a, Consumes (k a) m) : Consumes (p >>= k) (n + m) := by
  intro input b rest h
  rw [run_bind_eq] at h
  obtain ⟨⟨a, mid⟩, hpa, hka⟩ := Option.bind_eq_some_iff.1 h
  rw [hk a mid b rest hka, hp input a mid hpa, List.drop_drop]

theorem takeExactly (n : ℕ) : Consumes (Parser.takeExactly n : Parser B (List B)) n := by
  intro input a rest h
  change (if input.length < n then none else some (input.take n, input.drop n)) = _ at h
  split at h
  · simp at h
  · rw [Option.some.injEq, Prod.mk.injEq] at h
    exact h.2.symm

theorem require (c : Bool) : Consumes (Parser.require c : Parser B Unit) 0 := by
  intro input a rest h
  cases c with
  | true => cases h; rfl
  | false => cases h

end Consumes

end Parser
