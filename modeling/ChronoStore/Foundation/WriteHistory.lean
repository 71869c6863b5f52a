import Mathlib.Data.Finset.Card
import Mathlib.Data.List.Nodup
import Mathlib.Tactic.Basic

/-!
# Write histories and the map they denote

A **write history** is the list of the writes a store has accepted, oldest first. It denotes a map:
the value of a key is what the last write to it stored (`lastWrite`). Layers of a store are
histories too, and reading newer layers before older ones is reading their concatenation —
`lastWrite_append` is the only law that any layering argument needs.

Two facts carry the applications:

* a layer may be replaced by any other with the same `lastWrite`, whatever stands below and above it
  (`lastWrite_append_congr`), so snapshots and merges may forget the order of writes;
* writing a layer again on top of itself changes nothing (`lastWrite_append_self`), so replaying
  writes that have already been absorbed is idempotent.

The number of keys of the map is the cardinality of `keys`, which grows by one exactly at a write to
a new key (`card_keys_concat`).
-/

namespace WriteHistory

variable {K V : Type*} [DecidableEq K]

/-- The value the last write to `k` stored. -/
def lastWrite : List (K × V) → K → Option V
  | [], _ => none
  | w :: h, k => (lastWrite h k).or (if w.1 = k then some w.2 else none)

/-- The keys written by a history. -/
def keys (h : List (K × V)) : Finset K := (h.map Prod.fst).toFinset

@[simp] theorem lastWrite_nil (k : K) : lastWrite ([] : List (K × V)) k = none := rfl

/-- **Layering.** The newer part of a history answers first. -/
theorem lastWrite_append (a b : List (K × V)) (k : K) :
    lastWrite (a ++ b) k = (lastWrite b k).or (lastWrite a k) := by
  induction a with
  | nil => simp
  | cons w a ih => rw [List.cons_append, lastWrite, ih, lastWrite, Option.or_assoc]

@[simp] theorem lastWrite_singleton (w : K × V) (k : K) :
    lastWrite [w] k = if w.1 = k then some w.2 else none := by
  simp [lastWrite]

theorem lastWrite_concat (h : List (K × V)) (w : K × V) (k : K) :
    lastWrite (h ++ [w]) k = if w.1 = k then some w.2 else lastWrite h k := by
  rw [lastWrite_append, lastWrite_singleton]
  split <;> simp

/-- A key has no last write if it has not been written. -/
theorem lastWrite_eq_none_iff {h : List (K × V)} {k : K} : lastWrite h k = none ↔ k ∉ keys h := by
  induction h with
  | nil => simp [keys]
  | cons w h ih =>
    rw [lastWrite, Option.or_eq_none_iff, ih]
    simp only [keys, List.map_cons, List.toFinset_cons, Finset.mem_insert, not_or]
    by_cases hw : w.1 = k
    · simp [hw]
    · simp [hw, Ne.symm hw]

theorem lastWrite_isSome_iff {h : List (K × V)} {k : K} : (lastWrite h k).isSome ↔ k ∈ keys h := by
  rw [Option.isSome_iff_ne_none, Ne, lastWrite_eq_none_iff, not_not]

/-- What a lookup returns was written. -/
theorem mem_of_lastWrite_eq_some {h : List (K × V)} {k : K} {v : V}
    (hv : lastWrite h k = some v) : (k, v) ∈ h := by
  induction h with
  | nil => simp at hv
  | cons w h ih =>
    rw [lastWrite, Option.or_eq_some_iff] at hv
    rcases hv with hv | ⟨-, hv⟩
    · exact List.mem_cons_of_mem _ (ih hv)
    · split at hv
      · rename_i hw
        rw [← Option.some.inj hv, ← hw]
        exact List.mem_cons_self
      · simp at hv

/-- Without repeated keys the order of the writes does not matter: a lookup finds what is there. -/
theorem lastWrite_eq_some_iff {h : List (K × V)} (hnd : (h.map Prod.fst).Nodup) {k : K} {v : V} :
    lastWrite h k = some v ↔ (k, v) ∈ h := by
  refine ⟨mem_of_lastWrite_eq_some, fun hm ↦ ?_⟩
  induction h with
  | nil => simp at hm
  | cons w h ih =>
    rw [List.map_cons, List.nodup_cons] at hnd
    rcases List.mem_cons.1 hm with rfl | hm
    · have hnone : lastWrite h k = none :=
        lastWrite_eq_none_iff.2 (by simpa [keys] using hnd.1)
      simp [lastWrite, hnone]
    · simp [lastWrite, ih hnd.2 hm]

/-- **Layers may be exchanged** for layers that denote the same map. -/
theorem lastWrite_append_congr {a b c d : List (K × V)}
    (ha : ∀ k, lastWrite a k = lastWrite c k) (hb : ∀ k, lastWrite b k = lastWrite d k) (k : K) :
    lastWrite (a ++ b) k = lastWrite (c ++ d) k := by
  rw [lastWrite_append, lastWrite_append, ha, hb]

/-- **Which layer answers**: without repeated keys in a layer, the newest layer that has the key. -/
theorem lastWrite_flatten_eq_some_iff {layers : List (List (K × V))}
    (hnd : ∀ l ∈ layers, (l.map Prod.fst).Nodup) {k : K} {v : V} :
    lastWrite layers.flatten k = some v ↔ ∃ older newest newer, layers = older ++ newest :: newer ∧
      (k, v) ∈ newest ∧ ∀ l ∈ newer, k ∉ keys l := by
  induction layers with
  | nil => simp
  | cons l layers ih =>
    rw [List.forall_mem_cons] at hnd
    have hnone : lastWrite layers.flatten k = none ↔ ∀ l ∈ layers, k ∉ keys l := by
      rw [lastWrite_eq_none_iff]
      simp [keys]
    rw [List.flatten_cons, lastWrite_append, Option.or_eq_some_iff, ih hnd.2, hnone,
      lastWrite_eq_some_iff hnd.1]
    constructor
    · rintro (⟨older, newest, newer, rfl, hmem, hnew⟩ | ⟨hnew, hmem⟩)
      · exact ⟨l :: older, newest, newer, rfl, hmem, hnew⟩
      · exact ⟨[], l, layers, rfl, hmem, hnew⟩
    · rintro ⟨older, newest, newer, heq, hmem, hnew⟩
      cases older with
      | nil =>
        obtain ⟨rfl, rfl⟩ := List.cons.inj heq
        exact Or.inr ⟨hnew, hmem⟩
      | cons l' older =>
        obtain ⟨rfl, rfl⟩ := List.cons.inj heq
        exact Or.inl ⟨older, newest, newer, rfl, hmem, hnew⟩

/-- **Replaying a layer on top of itself changes nothing.** -/
theorem lastWrite_append_self (a b : List (K × V)) (k : K) :
    lastWrite (a ++ b ++ b) k = lastWrite (a ++ b) k := by
  rw [lastWrite_append, lastWrite_append]
  cases lastWrite b k <;> rfl

@[simp] theorem keys_nil : keys ([] : List (K × V)) = ∅ := rfl

theorem keys_append (a b : List (K × V)) : keys (a ++ b) = keys a ∪ keys b := by
  simp [keys]

/-- Histories that denote the same map write the same keys. -/
theorem keys_congr {a b : List (K × V)} (h : ∀ k, lastWrite a k = lastWrite b k) :
    keys a = keys b := by
  ext k
  rw [← lastWrite_isSome_iff, ← lastWrite_isSome_iff, h]

/-- **A write counts once.** The number of keys grows exactly at a write to a new key. -/
theorem card_keys_concat (h : List (K × V)) (w : K × V) :
    (keys (h ++ [w])).card =
      if (lastWrite h w.1).isSome then (keys h).card else (keys h).card + 1 := by
  have hins : keys (h ++ [w]) = insert w.1 (keys h) := by
    rw [keys_append, Finset.union_comm]
    rfl
  rw [hins]
  by_cases hw : w.1 ∈ keys h
  · rw [Finset.insert_eq_of_mem hw, if_pos (lastWrite_isSome_iff.2 hw)]
  · rw [Finset.card_insert_of_notMem hw, if_neg fun hs ↦ hw (lastWrite_isSome_iff.1 hs)]

/-- There are no more keys than writes. -/
theorem card_keys_le_length (h : List (K × V)) : (keys h).card ≤ h.length := by
  have := List.toFinset_card_le (h.map Prod.fst)
  rwa [List.length_map] at this

/-- Without repeated keys the history is as long as its map is large. -/
theorem card_keys_of_nodup {h : List (K × V)} (hnd : (h.map Prod.fst).Nodup) :
    (keys h).card = h.length := by
  rw [keys, List.toFinset_card_of_nodup hnd, List.length_map]

end WriteHistory
