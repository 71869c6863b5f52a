import Mathlib.Control.Basic
import Mathlib.Data.Nat.Notation
import Mathlib.Tactic.Ring

/-!
# Arithmetic on machine words that is watched for wrap-around

A program that adds and subtracts words of a fixed width computes what the same program computes on
natural numbers, unless one of its operations wraps around. `Checked` is the monad of programs that
are watched for this: an addition or subtraction that would wrap around has no result at all, and is
told apart from an exception, which is a result. `Exact x r` says that the watched program `x` never
wraps around and ends as `r`; its rules follow the structure of programs, so that an obligation
remains at the additions and subtractions only, where what the program has tested before is at hand.
-/

namespace WordArithmetic

variable {ε α β : Type}

/-- Programs with exceptions `ε` that are watched for wrap-around; `none` is a run that did wrap. -/
abbrev Checked (ε α : Type) := ExceptT ε Option α

/-- Add words of 64 bits. -/
def add (a b : ℕ) : Checked ε ℕ := ExceptT.mk (if a + b < 2 ^ 64 then some (.ok (a + b)) else none)

/-- Subtract words of 64 bits. -/
def sub (a b : ℕ) : Checked ε ℕ := ExceptT.mk (if b ≤ a then some (.ok (a - b)) else none)

/-- Add words to a word, one after the other. -/
def addAll : (total : ℕ) → List ℕ → Checked ε ℕ
  | total, [] => pure total
  | total, n :: ns => do
    let total ← add total n
    addAll total ns

/-- The program never wraps around, and ends as `r`. -/
def Exact (x : Checked ε α) (r : Except ε α) : Prop := x.run = some r

namespace Exact

variable {x : Checked ε α} {r : Except ε α}

theorem pure (a : α) : Exact (Pure.pure a : Checked ε α) (.ok a) := rfl

/-- A computation without arithmetic does not wrap around. -/
theorem lift (r : Except ε α) : Exact (liftM r : Checked ε α) r := by
  cases r with
  | ok a => rfl
  | error e => rfl

/-- If no step of a sequence wraps around, the sequence does not. -/
theorem bind {k : α → Checked ε β} {s : α → Except ε β} (hx : Exact x r)
    (hk : ∀ a, r = .ok a → Exact (k a) (s a)) : Exact (x >>= k) (r >>= s) := by
  unfold Exact at *
  rw [ExceptT.run_bind, hx]
  cases r with
  | ok a => exact hk a rfl
  | error e => rfl

/-- A branch is as exact as the one that is taken. -/
theorem ite {p : Prop} [Decidable p] {y : Checked ε α} {s : Except ε α} (hx : p → Exact x r)
    (hy : ¬p → Exact y s) : Exact (if p then x else y) (if p then r else s) := by
  by_cases hp : p
  · rw [if_pos hp, if_pos hp]
    exact hx hp
  · rw [if_neg hp, if_neg hp]
    exact hy hp

/-- An addition of words that is followed by the rest of the program. -/
theorem add_bind {a b : ℕ} {k : ℕ → Checked ε α} (h : a + b < 2 ^ 64) (hk : Exact (k (a + b)) r) :
    Exact (add a b >>= k) r := by
  have hadd : Exact (add a b : Checked ε ℕ) (.ok (a + b)) := by rw [Exact, add, if_pos h]; rfl
  exact hadd.bind (s := fun _ ↦ r) fun c hc ↦ Except.ok.inj hc ▸ hk

/-- A subtraction of words that is followed by the rest of the program. -/
theorem sub_bind {a b : ℕ} {k : ℕ → Checked ε α} (h : b ≤ a) (hk : Exact (k (a - b)) r) :
    Exact (sub a b >>= k) r := by
  have hsub : Exact (sub a b : Checked ε ℕ) (.ok (a - b)) := by rw [Exact, sub, if_pos h]; rfl
  exact hsub.bind (s := fun _ ↦ r) fun c hc ↦ Except.ok.inj hc ▸ hk

/-- A running total stays exact when the whole sum is a word. -/
theorem addAll {total : ℕ} {ns : List ℕ} (h : total + ns.sum < 2 ^ 64) :
    Exact (addAll total ns : Checked ε ℕ) (.ok (total + ns.sum)) := by
  induction ns generalizing total with
  | nil => exact pure total
  | cons n ns ih =>
    rw [List.sum_cons, ← Nat.add_assoc] at h ⊢
    exact add_bind (Nat.lt_of_le_of_lt (Nat.le_add_right _ _) h) (ih h)

end Exact

end WordArithmetic
