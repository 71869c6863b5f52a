import ChronoStore.Codec.ByteCodec

/-!
# Series identity is canonical

A series is identified by its measurement and by the set of its tags: `SeriesKey` sorts the tags, by
key and then by value, and refuses two tags with one key, which after the sort it need only look for
among neighbours. Everything that compares keys relies on this form, and so do the readers of blocks
and of indexes, which accept a list of tags exactly if the constructor could have produced it
(`Canonical`).
-/

namespace ChronoStore

open Parser

namespace SeriesKey

/-- The lists of tags that the constructor produces. -/
def Canonical (tags : List Tag) : Prop :=
  ∃ measurement input series, make measurement input = .ok series ∧ series.tags = tags

/-- Distinct keys make no duplicate once they are sorted. -/
theorem adjacentDuplicate_insertionSort_eq_none {tags : List Tag} (h : (tags.map Tag.key).Nodup) :
    adjacentDuplicate (tags.insertionSort (· ≤ ·)) = none := by
  refine adjacentDuplicate_of_pairwise ?_
  have hnodup : ((tags.insertionSort (· ≤ ·)).map Tag.key).Nodup :=
    ((List.perm_insertionSort (· ≤ ·) tags).map Tag.key).nodup_iff.2 h
  refine ((List.pairwise_insertionSort (· ≤ ·) tags).and (List.pairwise_map.1 hnodup)).imp fun hab ↦
    ?_
  exact lt_of_le_of_ne (Tag.key_le_of_le hab.1) hab.2

/-- What a series was made from, with its tags sorted. -/
theorem of_make {measurement : Bytes} {tags : List Tag} {s : SeriesKey}
    (h : make measurement tags = .ok s) :
    s.measurement = measurement ∧ s.tags = tags.insertionSort (· ≤ ·) :=
  of_seriesKeyMake (by rw [h]; rfl)

/-- What the constructor produces is a permutation of its input. -/
theorem perm_of_make {measurement : Bytes} {tags : List Tag} {s : SeriesKey}
    (h : make measurement tags = .ok s) : s.tags.Perm tags := by
  rw [(of_make h).2]
  exact List.perm_insertionSort _ _

/-- What the constructor does is decided by the first repeated key of the sorted tags. -/
theorem make_cases {measurement : Bytes} (hm : measurement ≠ []) (tags : List Tag) :
    (∃ current, adjacentDuplicate (tags.insertionSort (· ≤ ·)) = some current ∧
      make measurement tags = .error
        (.invalidArgument ("duplicate tag key: " ++ render current.key))) ∨
    adjacentDuplicate (tags.insertionSort (· ≤ ·)) = none ∧ ∃ s, make measurement tags = .ok s := by
  unfold make
  rw [dif_neg hm]
  split
  · rename_i current hcurrent
    exact Or.inl ⟨current, hcurrent, rfl⟩
  · rename_i hnone
    exact Or.inr ⟨hnone, _, rfl⟩

/-- **When the constructor throws.** -/
theorem make_throws_iff (measurement : Bytes) (tags : List Tag) :
    (∃ e, make measurement tags = .error e) ↔ measurement = [] ∨ ¬(tags.map Tag.key).Nodup := by
  constructor
  · rintro ⟨e, he⟩
    by_contra hnot
    rw [not_or, not_not] at hnot
    rcases make_cases hnot.1 tags with ⟨current, hcurrent, -⟩ | ⟨-, s, hs⟩
    · rw [adjacentDuplicate_insertionSort_eq_none hnot.2] at hcurrent
      cases hcurrent
    · rw [hs] at he
      cases he
  · intro h
    cases hmake : make measurement tags with
    | error e => exact ⟨e, rfl⟩
    | ok s =>
      exfalso
      rcases h with hm | hrepeated
      · exact s.measurement_ne_nil ((of_make hmake).1.trans hm)
      · refine hrepeated (((perm_of_make hmake).map Tag.key).nodup_iff.1 ?_)
        exact List.pairwise_map.2 (s.tags_sorted.imp fun hab ↦ hab.ne)

/-- **The order of the input does not matter.** -/
theorem make_perm (measurement : Bytes) {tags tags' : List Tag} (h : tags.Perm tags') :
    make measurement tags = make measurement tags' := by
  have hsort : tags.insertionSort (· ≤ ·) = tags'.insertionSort (· ≤ ·) :=
    List.Perm.eq_of_pairwise' (List.pairwise_insertionSort _ _) (List.pairwise_insertionSort _ _)
      ((List.perm_insertionSort _ _).trans (h.trans (List.perm_insertionSort _ _).symm))
  by_cases hm : measurement = []
  · unfold make
    rw [dif_pos hm, dif_pos hm]
  rcases make_cases hm tags with ⟨current, hcurrent, herr⟩ | ⟨hnone, s, hs⟩
  · rcases make_cases hm tags' with ⟨current', hcurrent', herr'⟩ | ⟨hnone', -⟩
    · rw [← hsort, hcurrent] at hcurrent'
      rw [herr, herr', Option.some.inj hcurrent']
    · rw [← hsort, hcurrent] at hnone'
      cases hnone'
  · rcases make_cases hm tags' with ⟨current', hcurrent', -⟩ | ⟨-, s', hs'⟩
    · rw [← hsort, hnone] at hcurrent'
      cases hcurrent'
    · rw [hs, hs']
      refine congrArg Except.ok (SeriesKey.ext ?_ ?_)
      · rw [(of_make hs).1, (of_make hs').1]
      · rw [(of_make hs).2, (of_make hs').2, hsort]

/-- **Keys are equal exactly when** measurements are equal and tags are permutations of each other.
-/
theorem eq_iff_perm (s s' : SeriesKey) :
    s = s' ↔ s.measurement = s'.measurement ∧ s.tags.Perm s'.tags := by
  constructor
  · rintro rfl
    exact ⟨rfl, List.Perm.refl _⟩
  · rintro ⟨hm, htags⟩
    refine SeriesKey.ext hm ?_
    exact List.Perm.eq_of_pairwise' (pairwise_le_of_key_lt s.tags_sorted)
      (pairwise_le_of_key_lt s'.tags_sorted) htags

/-- A list is canonical exactly if each key is greater than the one before it. -/
theorem canonical_iff (tags : List Tag) :
    Canonical tags ↔ tags.Pairwise fun a b ↦ a.key < b.key := by
  constructor
  · rintro ⟨measurement, input, s, -, rfl⟩
    exact s.tags_sorted
  · intro hsorted
    exact ⟨ascii "m", tags, _, make_measurement_tags ⟨ascii "m", tags, by decide, hsorted⟩, rfl⟩

/-- **The order test of the decoders** lets through what the constructor produces, and nothing else.
-/
theorem readTags_run_iff {tags : List Tag} (henc : ∀ t ∈ tags, t.Encodable) (rest : Bytes) :
    (readTags true tags.length []).run (tags.flatMap tagBytes ++ rest) = some (tags, rest) ↔
      Canonical tags := by
  rw [canonical_iff]
  constructor
  · intro hrun
    obtain ⟨-, -, -, -, hsorted⟩ := of_readTags_run hrun
    exact hsorted rfl .nil
  · intro hsorted
    exact parses_readTags_of_encodable true tags [] hsorted henc rest

/-- **Series identity is canonical.** The constructor throws exactly on an empty measurement and on
repeated keys. What it produces is its input in strictly increasing order of the keys; permutations
of the input give one result, and rebuilding a key gives the key; keys are equal exactly if
measurements are and the tags are permutations of each other, be it their own tags or those they
were built from. And the order test of the readers of blocks and indexes accepts exactly the lists
that the constructor produces. -/
theorem canonical_identity :
    (∀ measurement tags, (∃ e, make measurement tags = .error e) ↔
      measurement = [] ∨ ¬(tags.map Tag.key).Nodup) ∧
    (∀ measurement tags s, make measurement tags = .ok s → s.measurement = measurement ∧
      s.tags.Perm tags ∧ s.tags.Pairwise fun a b ↦ a.key < b.key) ∧
    (∀ measurement (tags tags' : List Tag), tags.Perm tags' →
      make measurement tags = make measurement tags') ∧
    (∀ s : SeriesKey, make s.measurement s.tags = .ok s) ∧
    (∀ s s' : SeriesKey, s = s' ↔ s.measurement = s'.measurement ∧ s.tags.Perm s'.tags) ∧
    (∀ measurement measurement' tags tags' s s', make measurement tags = .ok s →
      make measurement' tags' = .ok s' → (s = s' ↔ measurement = measurement' ∧ tags.Perm tags')) ∧
    (∀ tags : List Tag, (∀ t ∈ tags, t.Encodable) → ∀ rest,
      ((readTags true tags.length []).run (tags.flatMap tagBytes ++ rest) = some (tags, rest) ↔
        Canonical tags)) ∧
    ∀ count bytes tags rest, (readTags true count []).run bytes = some (tags, rest) →
    Canonical tags := by
  refine ⟨make_throws_iff, fun measurement tags s hs ↦ ⟨(of_make hs).1, perm_of_make hs,
    s.tags_sorted⟩,
    fun measurement tags tags' ↦ make_perm measurement, make_measurement_tags, eq_iff_perm, ?_,
    fun tags henc rest ↦ readTags_run_iff henc rest, fun count bytes tags rest hrun ↦ ?_⟩
  · intro measurement measurement' tags tags' s s' hs hs'
    rw [eq_iff_perm, (of_make hs).1, (of_make hs').1, (perm_of_make hs).congr_left,
      (perm_of_make hs').congr_right]
  · obtain ⟨-, -, -, -, hsorted⟩ := of_readTags_run hrun
    exact (canonical_iff tags).2 (hsorted rfl .nil)

/-- A tag of the tests. -/
def hostTag : Tag := ⟨ascii "host", ascii "server-01", host_ne_nil⟩

def regionTag : Tag := ⟨ascii "region", ascii "mumbai", by decide⟩

theorem canonical_identity_host : ∃ s, make (ascii "cpu_usage") [regionTag, hostTag] = .ok s ∧
    make (ascii "cpu_usage") [hostTag, regionTag] = .ok s ∧ s.tags.Perm [regionTag, hostTag] ∧
    ((readTags true 2 []).run ([hostTag, regionTag].flatMap tagBytes ++ [7]) =
      some ([hostTag, regionTag], [7]) ↔ Canonical [hostTag, regionTag]) := by
  have hnot : ¬∃ e, make (ascii "cpu_usage") [regionTag, hostTag] = .error e := by
    rw [canonical_identity.1]
    decide +kernel
  cases hmake : make (ascii "cpu_usage") [regionTag, hostTag] with
  | error e => exact absurd ⟨e, hmake⟩ hnot
  | ok s =>
    refine ⟨s, rfl, ?_, (canonical_identity.2.1 _ _ _ hmake).2.1, ?_⟩
    · rw [← canonical_identity.2.2.1 _ _ _ (List.Perm.swap hostTag regionTag []), hmake]
    · refine canonical_identity.2.2.2.2.2.2.1 [hostTag, regionTag] (fun t ht ↦ ?_) [7]
      rcases List.mem_cons.1 ht with rfl | ht
      · exact ⟨by decide +kernel, by decide +kernel⟩
      · rw [List.mem_singleton.1 ht]
        exact ⟨by decide +kernel, by decide +kernel⟩

end SeriesKey

end ChronoStore
