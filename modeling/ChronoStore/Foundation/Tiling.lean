import Mathlib.Data.List.Chain
import Mathlib.Order.Interval.Finset.Nat

/-!
# Ranges that tile an interval

A format that lays its parts out one behind the other is checked with a running offset: each part
starts where the one before it ended, and the last one ends where it should. `Tiles` is what such a
check establishes, in the order in which it goes along; `Tiling` is what one wants to know of the
parts, without an order of checking: they are consecutive, not empty, disjoint, and together they
are everything.
-/

/-- A range of positions, given by its start and its size. -/
structure PositionRange where
  start : ℕ
  size : ℕ
deriving DecidableEq

namespace PositionRange

def stop (r : PositionRange) : ℕ := r.start + r.size

def positions (r : PositionRange) : Finset ℕ := Finset.Ico r.start r.stop

/-- The ranges stand one behind the other from `start` to `stop`, and none of them is empty. -/
def Tiles : (start : ℕ) → List PositionRange → (stop : ℕ) → Prop
  | start, [], stop => start = stop
  | start, r :: rs, stop => r.start = start ∧ 0 < r.size ∧ Tiles r.stop rs stop

/-- The ranges are the positions below `size`, cut into consecutive parts that are not empty. -/
structure Tiling (ranges : List PositionRange) (size : ℕ) : Prop where
  nonempty : ∀ r ∈ ranges, 0 < r.size
  starts : ∀ r ∈ ranges.head?, r.start = 0
  consecutive : ranges.IsChain fun a b ↦ a.stop = b.start
  disjoint : ranges.Pairwise fun a b ↦ Disjoint a.positions b.positions
  covers : ∀ i, i < size ↔ ∃ r ∈ ranges, i ∈ r.positions

namespace Tiles

variable {start middle stop : ℕ} {rs ss : List PositionRange}

/-- Two tilings that meet are one. -/
theorem append (h₁ : Tiles start rs middle) (h₂ : Tiles middle ss stop) :
    Tiles start (rs ++ ss) stop := by
  induction rs generalizing start with
  | nil =>
    obtain rfl : start = middle := h₁
    exact h₂
  | cons r rs ih => exact ⟨h₁.1, h₁.2.1, ih h₁.2.2⟩

/-- A tiling does not end before it starts. -/
theorem le (h : Tiles start rs stop) : start ≤ stop := by
  induction rs generalizing start with
  | nil => exact Nat.le_of_eq h
  | cons r rs ih =>
    have := ih h.2.2
    have hstart := h.1
    unfold PositionRange.stop at this
    omega

/-- No tile is empty. -/
theorem pos (h : Tiles start rs stop) : ∀ r ∈ rs, 0 < r.size := by
  induction rs generalizing start with
  | nil => simp
  | cons r rs ih => exact List.forall_mem_cons.2 ⟨h.2.1, ih h.2.2⟩

/-- No tile starts before the tiling. -/
theorem start_le (h : Tiles start rs stop) : ∀ r ∈ rs, start ≤ r.start := by
  induction rs generalizing start with
  | nil => simp
  | cons r rs ih =>
    obtain ⟨rfl, -, hrest⟩ := h
    refine List.forall_mem_cons.2 ⟨Nat.le_refl _, fun q hq ↦ ?_⟩
    exact Nat.le_trans (Nat.le_add_right _ _) (ih hrest q hq)

/-- The first tile starts where the tiling does. -/
theorem head_start (h : Tiles start rs stop) : ∀ r ∈ rs.head?, r.start = start := by
  cases rs with
  | nil => simp
  | cons r rs => simpa using h.1

/-- Each tile starts where the one before it stops. -/
theorem consecutive (h : Tiles start rs stop) : rs.IsChain fun a b ↦ a.stop = b.start := by
  induction rs generalizing start with
  | nil => exact List.isChain_nil
  | cons r rs ih =>
    exact List.isChain_cons.2 ⟨fun q hq ↦ (h.2.2.head_start q hq).symm, ih h.2.2⟩

/-- No position is in two tiles. -/
theorem disjoint (h : Tiles start rs stop) :
    rs.Pairwise fun a b ↦ Disjoint a.positions b.positions := by
  induction rs generalizing start with
  | nil => exact List.Pairwise.nil
  | cons r rs ih =>
    refine List.pairwise_cons.2 ⟨fun q hq ↦ ?_, ih h.2.2⟩
    rw [Finset.disjoint_left]
    intro i hi hi'
    have hend := (Finset.mem_Ico.1 hi).2
    have hstart := (Finset.mem_Ico.1 hi').1
    exact absurd ((h.2.2.start_le q hq).trans hstart) (Nat.not_le_of_lt hend)

/-- The positions between the two ends are those of the tiles. -/
theorem covers (h : Tiles start rs stop) (i : ℕ) :
    start ≤ i ∧ i < stop ↔ ∃ r ∈ rs, i ∈ r.positions := by
  induction rs generalizing start with
  | nil =>
    obtain rfl : start = stop := h
    simp
  | cons r rs ih =>
    obtain ⟨rfl, -, hrest⟩ := h
    have hle := hrest.le
    simp only [List.mem_cons, exists_eq_or_imp]
    rw [← ih hrest, positions, Finset.mem_Ico]
    unfold PositionRange.stop at *
    omega

/-- **What a running offset establishes**: the ranges are a tiling. -/
theorem tiling (h : Tiles 0 rs stop) : Tiling rs stop :=
  ⟨h.pos, h.head_start, h.consecutive, h.disjoint, fun i ↦ by
    rw [← h.covers i]
    exact ⟨fun hi ↦ ⟨Nat.zero_le i, hi⟩, And.right⟩⟩

end Tiles

end PositionRange
