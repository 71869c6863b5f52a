import Mathlib.Data.List.Sort
import Mathlib.Order.Basic
import Mathlib.Tactic.Ring

/-!
# Ordered maps as strictly sorted association lists

The container substrate: a finite map whose entries are kept in strictly increasing key order, with
the order carried as a field, so that an out-of-order map cannot be built. Iterating the map is
reading its entry list, and every statement about an iteration is a statement about a sorted list.

## Searching a sorted list

A binary search over a sorted range returns the point where a monotone predicate changes. On a list
this point is where `List.dropWhile` stops, so the searches here are `dropWhile` and `takeWhile`,
and the first section turns both into `List.filter` — which has no order in it, and which is what
the specifications of the searches speak about.

Everything is over an arbitrary linear order of keys and an arbitrary type of values.
-/

namespace SortedList

variable {α K : Type*} [LinearOrder K] {f : α → K}

/-- Skipping the keys below `k` keeps exactly the keys from `k` on. -/
theorem dropWhile_lt_eq_filter {l : List α} (h : l.Pairwise fun a b ↦ f a ≤ f b) (k : K) :
    l.dropWhile (fun a ↦ f a < k) = l.filter (fun a ↦ k ≤ f a) := by
  induction l with
  | nil => rfl
  | cons a l ih =>
    rw [List.pairwise_cons] at h
    by_cases ha : f a < k
    · rw [List.dropWhile_cons_of_pos (by simpa using ha), ih h.2,
        List.filter_cons_of_neg (by simpa using ha)]
    · rw [List.dropWhile_cons_of_neg (by simpa using ha), eq_comm, List.filter_eq_self]
      intro b hb
      rcases List.mem_cons.1 hb with rfl | hb
      · simpa using ha
      · simpa using (not_lt.1 ha).trans (h.1 b hb)

/-- Taking while the keys stay below `k` takes exactly the keys below `k`. -/
theorem takeWhile_lt_eq_filter {l : List α} (h : l.Pairwise fun a b ↦ f a ≤ f b) (k : K) :
    l.takeWhile (fun a ↦ f a < k) = l.filter (fun a ↦ f a < k) := by
  induction l with
  | nil => rfl
  | cons a l ih =>
    rw [List.pairwise_cons] at h
    by_cases ha : f a < k
    · rw [List.takeWhile_cons_of_pos (by simpa using ha), ih h.2,
        List.filter_cons_of_pos (by simpa using ha)]
    · rw [List.takeWhile_cons_of_neg (by simpa using ha), eq_comm, List.filter_eq_nil_iff]
      intro b hb
      rcases List.mem_cons.1 hb with rfl | hb
      · simpa using ha
      · simpa using (not_lt.1 ha).trans (h.1 b hb)

/-- A strictly increasing list is in particular increasing. -/
theorem pairwise_le_of_lt {l : List α} (h : l.Pairwise fun a b ↦ f a < f b) :
    l.Pairwise fun a b ↦ f a ≤ f b :=
  h.imp fun hab ↦ hab.le

/-- The last element of a strictly increasing list carries the greatest key. -/
theorem le_of_mem_of_getLast?_eq_some {l : List α} (h : l.Pairwise fun a b ↦ f a < f b) {a b : α}
    (hb : l.getLast? = some b) (ha : a ∈ l) : f a ≤ f b := by
  obtain ⟨l', rfl⟩ := List.getLast?_eq_some_iff.1 hb
  rcases List.mem_append.1 ha with ha | ha
  · exact ((List.pairwise_append.1 h).2.2 a ha b (by simp)).le
  · rw [List.mem_singleton.1 ha]

/-- Two strictly increasing lists with the same members are the same list. -/
theorem eq_of_mem_iff {l₁ l₂ : List α} (h₁ : l₁.Pairwise fun a b ↦ f a < f b)
    (h₂ : l₂.Pairwise fun a b ↦ f a < f b) (h : ∀ a, a ∈ l₁ ↔ a ∈ l₂) : l₁ = l₂ := by
  have : Std.Irrefl fun a b : α ↦ f a < f b := ⟨fun a ↦ lt_irrefl (f a)⟩
  have : Std.Antisymm fun a b : α ↦ f a < f b := ⟨fun a b hab hba ↦ absurd hba hab.asymm⟩
  exact List.Pairwise.eq_of_mem_iff h₁ h₂ h

end SortedList

/-- A finite map from `K` to `V` whose entries stand in strictly increasing key order. -/
structure OrderedMap (K V : Type*) [LinearOrder K] where
  /-- The entries, in iteration order. -/
  entries : List (K × V)
  /-- Keys increase strictly; in particular no key occurs twice. -/
  sorted : entries.Pairwise fun a b ↦ a.1 < b.1

namespace OrderedMap

variable {K V : Type*} [LinearOrder K]

instance [DecidableEq V] : DecidableEq (OrderedMap K V) := fun m n ↦
  decidable_of_iff (m.entries = n.entries) (by cases m; cases n; simp)

/-- The map without entries. -/
def empty : OrderedMap K V := ⟨[], List.Pairwise.nil⟩

instance : Inhabited (OrderedMap K V) := ⟨empty⟩

/-- The value stored under a key of an entry list. -/
def findIn (k : K) : List (K × V) → Option V
  | [] => none
  | e :: es => if e.1 = k then some e.2 else findIn k es

/-- The value stored under `k`. -/
def find? (m : OrderedMap K V) (k : K) : Option V := findIn k m.entries

/-- Place `(k, v)` at its position in a sorted entry list, replacing an entry with the same key. -/
def insertIn (k : K) (v : V) : List (K × V) → List (K × V)
  | [] => [(k, v)]
  | e :: es =>
    if k < e.1 then (k, v) :: e :: es else if k = e.1 then (k, v) :: es else e :: insertIn k v es

/-- An entry after an insertion is the new one or an old one. -/
theorem mem_insertIn_key {k : K} {v : V} {l : List (K × V)} {e : K × V}
    (h : e ∈ insertIn k v l) : e = (k, v) ∨ e ∈ l := by
  induction l with
  | nil => exact Or.inl (by simpa [insertIn] using h)
  | cons a l ih =>
    rw [insertIn] at h
    split at h
    · simpa using h
    · split at h
      · rcases List.mem_cons.1 h with h | h
        · exact Or.inl h
        · exact Or.inr (List.mem_cons_of_mem _ h)
      · rcases List.mem_cons.1 h with h | h
        · exact Or.inr (by simp [h])
        · exact (ih h).imp_right (List.mem_cons_of_mem _)

/-- An insertion keeps the keys in order. -/
theorem insertIn_sorted {k : K} {v : V} {l : List (K × V)}
    (h : l.Pairwise fun a b ↦ a.1 < b.1) : (insertIn k v l).Pairwise fun a b ↦ a.1 < b.1 := by
  induction l with
  | nil => simp [insertIn]
  | cons a l ih =>
    rw [List.pairwise_cons] at h
    rw [insertIn]
    split
    · rename_i hk
      refine List.pairwise_cons.2 ⟨?_, List.pairwise_cons.2 h⟩
      intro b hb
      rcases List.mem_cons.1 hb with rfl | hb
      · exact hk
      · exact hk.trans (h.1 b hb)
    · rename_i hk
      split
      · rename_i hka
        exact List.pairwise_cons.2 ⟨fun b hb ↦ by simpa [hka] using h.1 b hb, h.2⟩
      · rename_i hka
        refine List.pairwise_cons.2 ⟨fun b hb ↦ ?_, ih h.2⟩
        rcases mem_insertIn_key hb with rfl | hb
        · exact lt_of_le_of_ne (not_lt.1 hk) (Ne.symm hka)
        · exact h.1 b hb

/-- Store `v` under `k`, replacing what was there. -/
def insert (m : OrderedMap K V) (k : K) (v : V) : OrderedMap K V :=
  ⟨insertIn k v m.entries, insertIn_sorted m.sorted⟩

/-- Remove `k` from the map. -/
def erase (m : OrderedMap K V) (k : K) : OrderedMap K V :=
  ⟨m.entries.filter fun e ↦ e.1 ≠ k, m.sorted.filter _⟩

/-- Remove all keys that satisfy `p`. -/
def without (m : OrderedMap K V) (p : K → Bool) : OrderedMap K V :=
  ⟨m.entries.filter fun e ↦ !p e.1, m.sorted.filter _⟩

/-- The keys, in order. -/
def keys (m : OrderedMap K V) : List K := m.entries.map Prod.fst

/-! ### What a lookup sees -/

@[simp] theorem find?_empty (k : K) : (empty : OrderedMap K V).find? k = none := rfl

theorem findIn_eq_none_iff {k : K} {l : List (K × V)} :
    findIn k l = none ↔ ∀ e ∈ l, e.1 ≠ k := by
  induction l with
  | nil => simp [findIn]
  | cons a l ih =>
    rw [findIn]
    split <;> simp_all

/-- A lookup in a sorted list finds exactly the entries of the list. -/
theorem findIn_eq_some_iff {k : K} {v : V} {l : List (K × V)}
    (h : l.Pairwise fun a b ↦ a.1 < b.1) : findIn k l = some v ↔ (k, v) ∈ l := by
  induction l with
  | nil => simp [findIn]
  | cons a l ih =>
    rw [List.pairwise_cons] at h
    rw [findIn]
    split
    · rename_i hk
      subst hk
      have hnot : (a.1, v) ∉ l := fun hm ↦ lt_irrefl a.1 (h.1 (a.1, v) hm)
      simp only [Option.some.injEq, List.mem_cons, hnot, or_false]
      exact ⟨fun hv ↦ by rw [← hv], fun hv ↦ by rw [← hv]⟩
    · rename_i hk
      rw [ih h.2, List.mem_cons]
      exact ⟨Or.inr, fun hm ↦ hm.resolve_left fun he ↦ hk (by rw [← he])⟩

/-- A search finds what is an entry. -/
theorem find?_eq_some_iff {m : OrderedMap K V} {k : K} {v : V} :
    m.find? k = some v ↔ (k, v) ∈ m.entries :=
  findIn_eq_some_iff m.sorted

/-- A search finds nothing where the key is missing. -/
theorem find?_eq_none_iff {m : OrderedMap K V} {k : K} : m.find? k = none ↔ k ∉ m.keys := by
  rw [find?, findIn_eq_none_iff, keys, List.mem_map]
  exact ⟨fun h ⟨e, he, hk⟩ ↦ h e he hk, fun h e he hk ↦ h ⟨e, he, hk⟩⟩

theorem find?_isSome_iff {m : OrderedMap K V} {k : K} : (m.find? k).isSome ↔ k ∈ m.keys := by
  rw [Option.isSome_iff_ne_none, Ne, find?_eq_none_iff, not_not]

theorem findIn_insertIn (k k' : K) (v : V) (l : List (K × V)) :
    findIn k' (insertIn k v l) = if k' = k then some v else findIn k' l := by
  induction l with
  | nil => simp [insertIn, findIn, eq_comm]
  | cons a l ih =>
    rw [insertIn]
    split
    · rw [findIn]
      simp [eq_comm]
    · split
      · rename_i hk
        subst hk
        rw [findIn, findIn]
        simp only [eq_comm]
        split <;> simp_all
      · rename_i hne
        rw [findIn, ih, findIn]
        split
        · rename_i ha
          rw [if_neg]
          exact fun hk ↦ hne (by rw [← hk, ha])
        · rfl

/-- **Insertion is the pointwise update.** -/
@[simp] theorem find?_insert (m : OrderedMap K V) (k k' : K) (v : V) :
    (m.insert k v).find? k' = if k' = k then some v else m.find? k' :=
  findIn_insertIn k k' v m.entries

/-- Maps with the same lookups are equal: the entry list has no freedom left. -/
theorem ext_find? {m n : OrderedMap K V} (h : ∀ k, m.find? k = n.find? k) : m = n := by
  have hent : m.entries = n.entries := by
    refine SortedList.eq_of_mem_iff (f := Prod.fst) m.sorted n.sorted fun e ↦ ?_
    rw [← find?_eq_some_iff (m := m), ← find?_eq_some_iff (m := n), h]
  cases m; cases n; simpa using hent

/-- **Erasure is the pointwise removal.** -/
@[simp] theorem find?_erase (m : OrderedMap K V) (k k' : K) :
    (m.erase k).find? k' = if k' = k then none else m.find? k' := by
  have key : ∀ v, (m.erase k).find? k' = some v ↔
      (if k' = k then none else m.find? k') = some v := by
    intro v
    rw [find?_eq_some_iff, erase, List.mem_filter, ← find?_eq_some_iff]
    by_cases hk : k' = k <;> simp [hk]
  exact Option.ext key

theorem find?_without (m : OrderedMap K V) (p : K → Bool) (k : K) :
    (m.without p).find? k = if p k = true then none else m.find? k := by
  have key : ∀ v, (m.without p).find? k = some v ↔
      (if p k = true then none else m.find? k) = some v := by
    intro v
    rw [find?_eq_some_iff, without, List.mem_filter, ← find?_eq_some_iff]
    by_cases hk : p k = true <;> simp [hk]
  exact Option.ext key

theorem mem_keys_iff {m : OrderedMap K V} {k : K} : k ∈ m.keys ↔ ∃ v, (k, v) ∈ m.entries := by
  simp [keys]

/-- The keys are in order, so none of them comes twice. -/
theorem keys_sorted (m : OrderedMap K V) : m.keys.Pairwise (· < ·) :=
  List.pairwise_map.2 m.sorted

/-- Insertion adds one entry exactly when the key is new. -/
theorem length_entries_insert (m : OrderedMap K V) (k : K) (v : V) :
    (m.insert k v).entries.length =
      if (m.find? k).isSome then m.entries.length else m.entries.length + 1 := by
  have main : ∀ l : List (K × V), l.Pairwise (fun a b ↦ a.1 < b.1) →
      (insertIn k v l).length = if (findIn k l).isSome then l.length else l.length + 1 := by
    intro l hl
    induction l with
    | nil => simp [insertIn, findIn]
    | cons a l ih =>
      rw [List.pairwise_cons] at hl
      rw [insertIn, findIn]
      rcases lt_trichotomy k a.1 with hk | hk | hk
      · -- every key of the list is above `k`, so the lookup misses
        have hnone : findIn k l = none :=
          findIn_eq_none_iff.2 fun e he ↦ (hk.trans (hl.1 e he)).ne'
        simp [hk, hk.ne', hnone]
      · simp [hk]
      · rw [if_neg hk.asymm, if_neg hk.ne', if_neg hk.ne, List.length_cons, ih hl.2,
          List.length_cons]
        split <;> rfl
  exact main m.entries m.sorted

/-- How a sum over the values changes at an insertion. -/
theorem sum_map_insert (m : OrderedMap K V) (k : K) (v : V) (f : V → ℕ) :
    ((m.insert k v).entries.map fun e ↦ f e.2).sum + ((m.find? k).map f).getD 0 =
      (m.entries.map fun e ↦ f e.2).sum + f v := by
  have main : ∀ l : List (K × V), l.Pairwise (fun a b ↦ a.1 < b.1) →
      ((insertIn k v l).map fun e ↦ f e.2).sum + ((findIn k l).map f).getD 0 =
        (l.map fun e ↦ f e.2).sum + f v := by
    intro l hl
    induction l with
    | nil => simp [insertIn, findIn]
    | cons a l ih =>
      rw [List.pairwise_cons] at hl
      rw [insertIn, findIn]
      rcases lt_trichotomy k a.1 with hk | hk | hk
      · have hnone : findIn k l = none :=
          findIn_eq_none_iff.2 fun e he ↦ (hk.trans (hl.1 e he)).ne'
        simp [hk, hk.ne', hnone]
        omega
      · simp [hk]
        omega
      · have := ih hl.2
        simp only [if_neg hk.asymm, if_neg hk.ne', if_neg hk.ne, List.map_cons, List.sum_cons]
        omega
  exact main m.entries m.sorted

end OrderedMap
