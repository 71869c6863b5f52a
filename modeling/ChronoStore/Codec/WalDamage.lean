import ChronoStore.Codec.WalReplay

/-!
# Damage to the write-ahead log is never silent

A log hit inside one window of at most four bytes: replay hands out the records in front of the
damage and stops at the first record that contains a changed byte, with the offset where that record
starts. The window may straddle two records; the first of them is then the one that is reported.
-/

namespace ChronoStore

/-- The first part of a concatenation that a burst hits. -/
theorem Burst.exists_first {parts : List Bytes} {y : Bytes} (h : Burst parts.flatten y) :
    ∃ k, ∃ hk : k < parts.length, ∃ hit rest, y = (parts.take k).flatten ++ (hit ++ rest) ∧
      Burst parts[k] hit := by
  induction parts generalizing y with
  | nil =>
    have hlen := h.1
    rw [List.flatten_nil, List.length_nil] at hlen
    exact absurd (List.length_eq_zero_iff.1 hlen.symm).symm h.2.1
  | cons part parts ih =>
    rw [List.flatten_cons] at h
    obtain ⟨hit, rest, rfl, hlen, -⟩ := h.exists_append
    by_cases heq : part = hit
    · subst heq
      obtain ⟨k, hk, hit, tail, hrest, hb⟩ := ih (h.right rfl fun hr ↦ h.2.1 (by rw [hr]))
      exact ⟨k + 1, by simpa using hk, hit, tail, by simp [hrest], by simpa using hb⟩
    · exact ⟨0, by simp, hit, rest, by simp, by simpa using h.left hlen heq⟩

/-- **Log corruption is never silent.** Replaying a log that is damaged inside one window of at most
four bytes throws a format error at the offset of the first record with a changed byte, after
calling the callback with exactly the records before it; the damage is not taken for an interrupted
append. -/
theorem replay_of_burst {records : List WalPutRecord} {frames : List Bytes}
    (henc : List.Forall₂ (fun r b ↦ encodeWalRecord r = .ok b) records frames) {damaged : Bytes}
    (hb : Burst frames.flatten damaged) :
    ∃ (k : ℕ) (hk : k < frames.length) (error : WalDecodeError),
      damaged.take (frames.take k).flatten.length = (frames.take k).flatten ∧
      (damaged.drop (frames.take k).flatten.length).take frames[k].length ≠ frames[k] ∧
      error ≠ .none ∧ error ≠ .incompleteRecord ∧
      replayNoting damaged =
        (.error (.walFormatError (frames.take k).flatten.length error), records.take k) := by
  obtain ⟨hacc, rfl⟩ := of_encodeWalRecords henc
  obtain ⟨k, hk, hit, rest, rfl, hhit⟩ := hb.exists_first
  have hk' : k < records.length := by simpa using hk
  have hbytes : ((records.map walFrame).take k).flatten = walBytes (records.take k) := by
    rw [← List.map_take, walBytes, List.flatMap_def]
  rw [List.getElem_map] at hhit
  have hdec := decodeWalRecord_of_burst (hacc _ (List.getElem_mem hk')) hhit rest
  obtain ⟨error, herr, hnone⟩ : ∃ e, decodeWalRecord (hit ++ rest) = walDecodeError e ∧
      e ≠ .none := by
    rcases decodeWalRecord_cases (hit ++ rest) with h | ⟨record, n, h, -⟩
    · exact h
    · rw [h] at hdec
      exact absurd hdec.1 (by simp [WalDecodeResult.success])
  have hinc : error ≠ .incompleteRecord := by
    rw [herr] at hdec
    exact hdec.2
  refine ⟨k, hk, error, List.take_left, ?_, hnone, hinc, ?_⟩
  · rw [List.drop_left, List.getElem_map, List.take_left' hhit.1.symm]
    exact hhit.2.1.symm
  -- replay reaches the damaged record, and its verdict is the exception
  have hne : hit ++ rest ≠ [] := by
    have hlen := length_walFrame records[k]
    unfold walHeaderSize at hlen
    refine List.ne_nil_of_length_pos ?_
    rw [List.length_append, ← hhit.1]
    omega
  have hfront : WalDecodes (walBytes (records.take k)) (records.take k) :=
    .walBytes fun r hr ↦ hacc r (List.mem_of_mem_take hr)
  have hwhole : decodeWhole 0 (walBytes (records.take k) ++ (hit ++ rest)) =
      (records.take k, .error (.walFormatError (walBytes (records.take k)).length error)) := by
    rw [hfront.decodeWhole_append, decodeWhole_error hne herr, if_neg hinc, List.append_nil,
      Nat.zero_add]
  rw [hbytes, replayNoting_eq, replayNotingBy_eq (by decide), hwhole]
  rfl

/-- One byte in the second of two records: the first is replayed, and an error is thrown at the
second. -/
theorem replay_of_burst_two_records :
    Burst [walFrame cpuRecord, walFrame cpuRecord].flatten
        ([walFrame cpuRecord, walFrame cpuRecord].flatten.set 60 7) ∧
      ∃ error, error ≠ .incompleteRecord ∧
        replayNoting ([walFrame cpuRecord, walFrame cpuRecord].flatten.set 60 7) =
          (.error (.walFormatError 45 error), [cpuRecord]) := by
  have hacc : encodeWalRecord cpuRecord = .ok (walFrame cpuRecord) :=
    encodeWalRecord_of_accepts (by decide +kernel)
  have hb := Burst.set (x := [walFrame cpuRecord, walFrame cpuRecord].flatten) (i := 60) (b := 7)
    (by decide +kernel)
  obtain ⟨k, hk, error, -, hhit, -, hinc, hrun⟩ := replay_of_burst (.cons hacc (.cons hacc .nil)) hb
  refine ⟨hb, error, hinc, ?_⟩
  -- the first record is intact, so the second is the one reported
  obtain rfl | rfl : k = 0 ∨ k = 1 := by
    rw [List.length_cons, List.length_singleton] at hk
    omega
  · have hintact : ([walFrame cpuRecord, walFrame cpuRecord].flatten.set 60 7).take
        (walFrame cpuRecord).length = walFrame cpuRecord := by decide +kernel
    exact absurd hintact hhit
  · have hlen : (walFrame cpuRecord).length = 45 := by decide +kernel
    simpa [hlen] using hrun

end ChronoStore
