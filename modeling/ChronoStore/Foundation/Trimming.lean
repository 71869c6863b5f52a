import Mathlib.Data.List.DropRight
import Mathlib.Tactic.Basic

/-!
# Trimming and splitting

Text that is split at a separator and trimmed piece by piece. Trimming takes blanks from both ends
of a list and nothing else (`exists_trimBy`), so a list is its own trimming as soon as that is as
long (`trimBy_eq_self_of_length`). A separator that is not blank is never trimmed away, and it makes
no difference to the trimmed pieces whether the whole has been trimmed before
(`map_trimBy_splitOn`).
-/

namespace Trimming

variable {α : Type*} {p : α → Bool}

/-- Take the elements that satisfy `p` from both ends. -/
def trimBy (p : α → Bool) (l : List α) : List α := (l.dropWhile p).rdropWhile p

/-- A blank in front is trimmed away. -/
theorem trimBy_cons_of_pos {a : α} (h : p a) (l : List α) : trimBy p (a :: l) = trimBy p l := by
  rw [trimBy, List.dropWhile_cons_of_pos h]
  rfl

/-- A blank at the end is trimmed away. -/
theorem trimBy_concat_of_pos {a : α} (h : p a) (l : List α) : trimBy p (l ++ [a]) = trimBy p l := by
  rw [trimBy, trimBy, List.dropWhile_append]
  split
  · rename_i hnil
    rw [List.isEmpty_iff.1 hnil, List.dropWhile_cons_of_pos h, List.dropWhile_nil]
  · rw [List.rdropWhile_concat_pos _ _ _ h]

/-- Blanks in front do not matter. -/
theorem trimBy_append_left {b : List α} (h : ∀ a ∈ b, p a) (l : List α) :
    trimBy p (b ++ l) = trimBy p l := by
  induction b with
  | nil => rfl
  | cons a b ih =>
    rw [List.forall_mem_cons] at h
    rw [List.cons_append, trimBy_cons_of_pos h.1, ih h.2]

/-- Blanks behind do not matter. -/
theorem trimBy_append_right {b : List α} (h : ∀ a ∈ b, p a) (l : List α) :
    trimBy p (l ++ b) = trimBy p l := by
  induction b using List.reverseRecOn with
  | nil => rw [List.append_nil]
  | append_singleton b a ih =>
    rw [← List.append_assoc, trimBy_concat_of_pos (h a (by simp)),
      ih fun x hx ↦ h x (List.mem_append_left _ hx)]

/-- **What trimming takes away** is blank. -/
theorem exists_trimBy (p : α → Bool) (l : List α) : ∃ front back,
    (∀ a ∈ front, p a) ∧ (∀ a ∈ back, p a) ∧ l = front ++ (trimBy p l ++ back) := by
  refine ⟨l.takeWhile p, (l.dropWhile p).rtakeWhile p, fun a ha ↦ List.mem_takeWhile_imp ha,
    fun a ha ↦ List.mem_rtakeWhile_imp ha, ?_⟩
  rw [trimBy, List.rdropWhile_append_rtakeWhile, List.takeWhile_append_dropWhile]

theorem length_trimBy_le (p : α → Bool) (l : List α) : (trimBy p l).length ≤ l.length := by
  obtain ⟨front, back, -, -, hl⟩ := exists_trimBy p l
  have := congrArg List.length hl
  simp only [List.length_append] at this
  omega

theorem trimBy_eq_self_of_length {l : List α} (h : (trimBy p l).length = l.length) :
    trimBy p l = l := by
  obtain ⟨front, back, -, -, hl⟩ := exists_trimBy p l
  have hlen := congrArg List.length hl
  simp only [List.length_append] at hlen
  have hfront : front = [] := List.length_eq_zero_iff.1 (by omega)
  have hback : back = [] := List.length_eq_zero_iff.1 (by omega)
  rw [hfront, hback, List.append_nil, List.nil_append] at hl
  exact hl.symm

/-- A list is its own trimming when neither end is blank. -/
theorem trimBy_eq_self_iff {l : List α} :
    trimBy p l = l ↔ (∀ a ∈ l.head?, ¬p a) ∧ ∀ a ∈ l.getLast?, ¬p a := by
  have hfront : l.dropWhile p = l ↔ ∀ a ∈ l.head?, ¬p a := by
    cases l with
    | nil => simp
    | cons a l => simp [List.dropWhile_eq_self_iff]
  have hback : l.rdropWhile p = l ↔ ∀ a ∈ l.getLast?, ¬p a := by
    rw [List.rdropWhile_eq_self_iff]
    exact ⟨fun h a ha ↦ by
      obtain ⟨hl, rfl⟩ := List.mem_getLast?_eq_getLast ha
      exact h hl, fun h hl ↦ h _ (List.getLast_mem_getLast? hl)⟩
  rw [← hfront, ← hback]
  constructor
  · intro h
    have hdrop : l.dropWhile p = l := by
      refine (List.dropWhile_suffix p).eq_of_length_le ?_
      have hlen := congrArg List.length h
      have := (List.rdropWhile_prefix p (l := l.dropWhile p)).length_le
      rw [trimBy] at hlen
      omega
    refine ⟨hdrop, ?_⟩
    rwa [trimBy, hdrop] at h
  · rintro ⟨hfront, hback⟩
    rw [trimBy, hfront, hback]

/-- Dropping from the end stops at an element that is no blank. -/
theorem rdropWhile_append_cons {c : α} (hc : ¬p c) (l r : List α) :
    (l ++ c :: r).rdropWhile p = l ++ c :: r.rdropWhile p := by
  induction r using List.reverseRecOn with
  | nil => rw [List.rdropWhile_concat_neg _ _ _ hc, List.rdropWhile_nil]
  | append_singleton r a ih =>
    rw [← List.cons_append, ← List.append_assoc]
    by_cases ha : p a
    · rw [List.rdropWhile_concat_pos _ _ _ ha, List.rdropWhile_concat_pos _ _ _ ha, ih]
    · rw [List.rdropWhile_concat_neg _ _ _ ha, List.rdropWhile_concat_neg _ _ _ ha,
        List.append_assoc, List.cons_append]

/-- Trimming around an element that is not blank trims the two sides from outside. -/
theorem trimBy_append_cons {c : α} (hc : ¬p c) (l r : List α) :
    trimBy p (l ++ c :: r) = l.dropWhile p ++ c :: r.rdropWhile p := by
  have hfront : (l ++ c :: r).dropWhile p = l.dropWhile p ++ c :: r := by
    rw [List.dropWhile_append]
    split
    · rename_i hnil
      rw [List.isEmpty_iff.1 hnil, List.dropWhile_cons_of_neg hc, List.nil_append]
    · rfl
  rw [trimBy, hfront, rdropWhile_append_cons hc]

/-! ### Splitting -/

section Splitting

variable [DecidableEq α] {c : α}

/-- There is one piece more than there are separators. -/
theorem length_splitOn (c : α) (l : List α) : (l.splitOn c).length = l.count c + 1 := by
  induction l with
  | nil => simp
  | cons a l ih =>
    rw [List.splitOn_cons_eq_if_modifyHead, List.count_cons]
    by_cases h : a = c
    · simp [h, ih]
    · simp [h, ih]

/-- There is no separator among blanks. -/
theorem count_eq_zero_of_blank (hc : ¬p c) {l : List α} (h : ∀ a ∈ l, p a) : l.count c = 0 :=
  List.count_eq_zero.2 fun hmem ↦ hc (h c hmem)

/-- No separator is trimmed away. -/
theorem count_trimBy (hc : ¬p c) (l : List α) : (trimBy p l).count c = l.count c := by
  obtain ⟨front, back, hfront, hback, hl⟩ := exists_trimBy p l
  have hcount := congrArg (List.count c) hl
  rw [List.count_append, List.count_append, count_eq_zero_of_blank hc hfront,
    count_eq_zero_of_blank hc hback] at hcount
  omega

/-- An element behind everything else belongs to the last piece. -/
theorem exists_splitOn_concat {a : α} (ha : a ≠ c) (l : List α) : ∃ init last,
    l.splitOn c = init ++ [last] ∧ (l ++ [a]).splitOn c = init ++ [last ++ [a]] := by
  induction l with
  | nil => exact ⟨[], [], by simp, by simp [List.splitOn_cons_eq_if_modifyHead, ha]⟩
  | cons b l ih =>
    obtain ⟨init, last, h₁, h₂⟩ := ih
    rw [List.cons_append, List.splitOn_cons_eq_if_modifyHead, List.splitOn_cons_eq_if_modifyHead,
      h₁, h₂]
    by_cases hb : b = c
    · exact ⟨[] :: init, last, by simp [hb], by simp [hb]⟩
    · cases init with
      | nil => exact ⟨[], b :: last, by simp [hb], by simp [hb]⟩
      | cons piece init => exact ⟨(b :: piece) :: init, last, by simp [hb], by simp [hb]⟩

/-- A blank in front does not matter to the trimmed pieces. -/
theorem map_trimBy_splitOn_cons (hc : ¬p c) {a : α} (ha : p a) (l : List α) :
    ((a :: l).splitOn c).map (trimBy p) = (l.splitOn c).map (trimBy p) := by
  have hne : a ≠ c := fun h ↦ hc (h ▸ ha)
  rw [List.splitOn_cons_eq_if_modifyHead]
  cases hl : l.splitOn c with
  | nil => exact absurd hl (List.splitOn_ne_nil c l)
  | cons piece pieces => simp [hne, trimBy_cons_of_pos ha]

/-- A blank at the end does not matter to the trimmed pieces. -/
theorem map_trimBy_splitOn_concat (hc : ¬p c) {a : α} (ha : p a) (l : List α) :
    ((l ++ [a]).splitOn c).map (trimBy p) = (l.splitOn c).map (trimBy p) := by
  have hne : a ≠ c := fun h ↦ hc (h ▸ ha)
  obtain ⟨init, last, h₁, h₂⟩ := exists_splitOn_concat hne l
  rw [h₁, h₂, List.map_append, List.map_append, List.map_singleton, List.map_singleton,
    trimBy_concat_of_pos ha]

/-- **Trimming the whole first makes no difference** to the trimmed pieces. -/
theorem map_trimBy_splitOn (hc : ¬p c) (l : List α) :
    ((trimBy p l).splitOn c).map (trimBy p) = (l.splitOn c).map (trimBy p) := by
  obtain ⟨front, back, hfront, hback, hl⟩ := exists_trimBy p l
  have hleft : ∀ front : List α, (∀ a ∈ front, p a) → ∀ m : List α,
      ((front ++ m).splitOn c).map (trimBy p) = (m.splitOn c).map (trimBy p) := by
    intro front hfront m
    induction front with
    | nil => rfl
    | cons a front ih =>
      rw [List.forall_mem_cons] at hfront
      rw [List.cons_append, map_trimBy_splitOn_cons hc hfront.1, ih hfront.2]
  have hright : ∀ back : List α, (∀ a ∈ back, p a) → ∀ m : List α,
      ((m ++ back).splitOn c).map (trimBy p) = (m.splitOn c).map (trimBy p) := by
    intro back hback m
    induction back using List.reverseRecOn with
    | nil => rw [List.append_nil]
    | append_singleton back a ih =>
      rw [← List.append_assoc, map_trimBy_splitOn_concat hc (hback a (by simp)),
        ih fun x hx ↦ hback x (List.mem_append_left _ hx)]
  conv_rhs => rw [hl, hleft front hfront, hright back hback]

end Splitting

end Trimming
