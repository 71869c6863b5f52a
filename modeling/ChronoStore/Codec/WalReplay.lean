import ChronoStore.Codec.WalFormat
import ChronoStore.Codec.WalRecovery

/-!
# Replay is whole-file decoding

`decodeWhole` is what replaying a log means: decode all that is left, emit the record, continue
behind it; stop at the end, at a tail that is incomplete, or at the first byte string that is no
record. It knows nothing of chunks, buffers or fuel, and **`replay_wal` computes it** for every file
and every size of the chunks in which the file is read.

A file that replays without an exception has a shape (`decodeWhole_eq_ok_iff`): it is a string of
accepted frames, followed by a tail that is incomplete. The frames are read the same whatever stands
behind them, which is why cutting off the tail leaves a log that can be appended to.

To see which records the callback is called with, it is run as one that notes them (`replayNoting`),
in a monad in which its effects survive the exception.
-/

namespace ChronoStore

/-- A record takes up space. -/
theorem length_drop_lt_of_decodeWalRecord {bytes : Bytes} {record : WalPutRecord} {consumed : ℕ}
    (h : decodeWalRecord bytes = ⟨some record, .none, consumed⟩) :
    (bytes.drop consumed).length < bytes.length := by
  rcases decodeWalRecord_cases bytes with ⟨e, he, hne⟩ | ⟨r, n, hn, hpos, hle⟩
  · rw [he, walDecodeError] at h
    cases h
  · rw [hn] at h
    cases h
    rw [List.length_drop]
    omega

/-- Decode a whole log, starting at an offset: the records, and the length of the incomplete tail or
the exception that ends the replay. -/
def decodeWhole (offset : ℕ) (bytes : Bytes) : List WalPutRecord × Except Error ℕ :=
  if bytes = [] then ([], .ok 0) else
  match hdec : decodeWalRecord bytes with
  | ⟨some record, .none, consumed⟩ =>
    have := length_drop_lt_of_decodeWalRecord hdec
    let later := decodeWhole (offset + consumed) (bytes.drop consumed)
    (record :: later.1, later.2)
  | ⟨_, error, _⟩ =>
    if error = .incompleteRecord then ([], .ok bytes.length)
    else ([], .error (.walFormatError offset error))
termination_by bytes.length
decreasing_by assumption

theorem decodeWhole_nil (offset : ℕ) : decodeWhole offset [] = ([], .ok 0) := by
  rw [decodeWhole, if_pos rfl]

/-- A record at the front is decoded first. -/
theorem decodeWhole_record {offset consumed : ℕ} {bytes : Bytes} {record : WalPutRecord}
    (h : decodeWalRecord bytes = ⟨some record, .none, consumed⟩) :
    decodeWhole offset bytes =
      (record :: (decodeWhole (offset + consumed) (bytes.drop consumed)).1,
        (decodeWhole (offset + consumed) (bytes.drop consumed)).2) := by
  have hne : bytes ≠ [] := by
    rintro rfl
    cases h
  rw [decodeWhole, if_neg hne]
  split
  · rename_i hdec
    rw [h] at hdec
    cases hdec
    rfl
  · rename_i hno hdec
    rw [h] at hdec
    cases hdec
    exact (hno record rfl rfl).elim

/-- An error at the front ends the decoding; an incomplete record is none. -/
theorem decodeWhole_error {offset : ℕ} {bytes : Bytes} {error : WalDecodeError} (hne : bytes ≠ [])
    (h : decodeWalRecord bytes = walDecodeError error) :
    decodeWhole offset bytes =
      if error = .incompleteRecord then ([], .ok bytes.length)
      else ([], .error (.walFormatError offset error)) := by
  rw [decodeWhole, if_neg hne]
  split
  · rename_i hdec
    rw [h, walDecodeError] at hdec
    cases hdec
  · rename_i hdec
    rw [h, walDecodeError] at hdec
    cases hdec
    rfl

/-! ### The shape of a log that replays -/

/-- A string of accepted frames, with the records they decode to. -/
inductive WalDecodes : Bytes → List WalPutRecord → Prop
  | nil : WalDecodes [] []
  | cons {frame bytes : Bytes} {record : WalPutRecord} {records : List WalPutRecord}
      (head : decodeWalRecord frame = ⟨some record, .none, frame.length⟩)
      (tail : WalDecodes bytes records) : WalDecodes (frame ++ bytes) (record :: records)

namespace WalDecodes

/-- Two logs in a row decode to their records in a row. -/
theorem append {a b : Bytes} {ra rb : List WalPutRecord} (ha : WalDecodes a ra)
    (hb : WalDecodes b rb) : WalDecodes (a ++ b) (ra ++ rb) := by
  induction ha with
  | nil => exact hb
  | cons head _ ih =>
    rw [List.append_assoc]
    exact .cons head ih

/-- Frames decode to their records. -/
theorem walBytes {records : List WalPutRecord} (h : ∀ r ∈ records, WalAccepts r) :
    WalDecodes (walBytes records) records := by
  induction records with
  | nil => exact .nil
  | cons r records ih =>
    have hr := decodeWalRecord_frame (h r List.mem_cons_self) []
    rw [List.append_nil] at hr
    exact .cons hr (ih fun r' hr' ↦ h r' (List.mem_cons_of_mem _ hr'))

/-- Frames are read the same whatever stands behind them. -/
theorem decodeWhole_append {bytes : Bytes} {records : List WalPutRecord}
    (h : WalDecodes bytes records) (offset : ℕ) (rest : Bytes) :
    decodeWhole offset (bytes ++ rest) =
      (records ++ (decodeWhole (offset + bytes.length) rest).1,
        (decodeWhole (offset + bytes.length) rest).2) := by
  induction h generalizing offset with
  | nil => rfl
  | @cons frame bytes record records head _ ih =>
    have hdec : decodeWalRecord (frame ++ (bytes ++ rest)) =
        ⟨some record, .none, frame.length⟩ := by
      rw [decodeWalRecord_append (by rw [head]; simp), head]
    rw [List.append_assoc, decodeWhole_record hdec, List.drop_left, ih, List.length_append,
      Nat.add_assoc]
    rfl

end WalDecodes

/-- A tail is decoded to no record, and to its length. -/
theorem decodeWhole_incompleteTail {tail : Bytes} (h : IncompleteTail tail) (offset : ℕ) :
    decodeWhole offset tail = ([], .ok tail.length) := by
  by_cases hne : tail = []
  · rw [hne, decodeWhole_nil]
    rfl
  · rw [decodeWhole_error hne h, if_pos rfl]

/-- An accepted record stands in a frame of its own. -/
theorem exists_frame_of_decodeWalRecord {bytes : Bytes} {record : WalPutRecord} {consumed : ℕ}
    (h : decodeWalRecord bytes = ⟨some record, .none, consumed⟩) :
    ∃ frame rest, bytes = frame ++ rest ∧ consumed = frame.length ∧
      decodeWalRecord frame = ⟨some record, .none, frame.length⟩ := by
  obtain ⟨payload, rest, rfl, rfl, hmax, hpayload⟩ := of_decodeWalRecord h
  have hframe := decodeWalRecord_walFrameOf hmax hpayload []
  rw [List.append_nil] at hframe
  exact ⟨walFrameOf payload, rest, rfl, rfl, hframe⟩

/-- **A log that replays without an exception** is a string of accepted frames with an incomplete
tail. -/
theorem exists_walDecodes_of_decodeWhole {bytes : Bytes} {offset tailBytes : ℕ}
    {records : List WalPutRecord} (h : decodeWhole offset bytes = (records, .ok tailBytes)) :
    ∃ front tail, bytes = front ++ tail ∧ WalDecodes front records ∧ IncompleteTail tail ∧
      tail.length = tailBytes := by
  induction hn : bytes.length using Nat.strong_induction_on generalizing bytes offset records with
  | _ n ih =>
    subst hn
    by_cases hne : bytes = []
    · subst hne
      rw [decodeWhole_nil] at h
      cases h
      exact ⟨[], [], rfl, .nil, incompleteTail_nil, rfl⟩
    rcases decodeWalRecord_cases bytes with ⟨error, herr, -⟩ | ⟨record, consumed, hdec, -, -⟩
    · rw [decodeWhole_error hne herr] at h
      split at h
      · rename_i hinc
        cases h
        subst hinc
        exact ⟨[], bytes, rfl, .nil, herr, rfl⟩
      · simp at h
    · have hlt := length_drop_lt_of_decodeWalRecord hdec
      obtain ⟨frame, rest, rfl, rfl, hframe⟩ := exists_frame_of_decodeWalRecord hdec
      rw [List.drop_left] at hlt
      rw [decodeWhole_record hdec, List.drop_left, Prod.mk.injEq] at h
      obtain ⟨front, tail, rfl, hfront, htail, hlen⟩ :=
        ih rest.length hlt (Prod.ext rfl h.2) rfl
      rw [← h.1]
      exact ⟨frame ++ front, tail, by rw [List.append_assoc], .cons hframe hfront, htail, hlen⟩

/-- What a log replays to, read off its shape. -/
theorem decodeWhole_eq_ok_iff {bytes : Bytes} {offset tailBytes : ℕ}
    {records : List WalPutRecord} : decodeWhole offset bytes = (records, .ok tailBytes) ↔
      ∃ front tail, bytes = front ++ tail ∧ WalDecodes front records ∧ IncompleteTail tail ∧
        tail.length = tailBytes := by
  refine ⟨exists_walDecodes_of_decodeWhole, ?_⟩
  rintro ⟨front, tail, rfl, hfront, htail, rfl⟩
  rw [hfront.decodeWhole_append, decodeWhole_incompleteTail htail, List.append_nil]

/-- The only exception is the format error of the log. -/
theorem decodeWhole_walFormatError {bytes : Bytes} {offset : ℕ} {e : Error}
    (h : (decodeWhole offset bytes).2 = .error e) : ∃ at' error, e = .walFormatError at' error := by
  induction hn : bytes.length using Nat.strong_induction_on generalizing bytes offset with
  | _ n ih =>
    subst hn
    by_cases hne : bytes = []
    · subst hne
      rw [decodeWhole_nil] at h
      cases h
    rcases decodeWalRecord_cases bytes with ⟨error, herr, -⟩ | ⟨record, consumed, hdec, -, -⟩
    · rw [decodeWhole_error hne herr] at h
      split at h
      · cases h
      · exact ⟨_, _, (Except.error.inj h).symm⟩
    · rw [decodeWhole_record hdec] at h
      exact ih _ (length_drop_lt_of_decodeWalRecord hdec) h rfl

/-! ### Replay -/

/-- A monad in which a callback can note the records it is given; notes survive an exception. -/
abbrev Recording := ExceptT Error (StateM (List WalPutRecord))

/-- The callback that notes a record. -/
def noteRecord (_ : Unit) (record : WalPutRecord) : Recording Unit :=
  modify (· ++ [record])

/-- `replay_wal` on a log with this content, with the records its callback was called with. -/
def replayNoting (content : Bytes) : Except Error WalReplayResult × List WalPutRecord :=
  let (result, records) :=
    (replayStream walReadChunkSize (pure ()) noteRecord content ()).run.run []
  (result.map Prod.snd, records)

/-- Noting records notes all of them. -/
theorem foldlM_noteRecord (records seen : List WalPutRecord) :
    (records.foldlM noteRecord ()).run.run seen = (.ok (), seen ++ records) := by
  induction records generalizing seen with
  | nil =>
    rw [List.append_nil]
    rfl
  | cons r records ih =>
    have hstep : ((r :: records).foldlM noteRecord ()).run.run seen =
        (records.foldlM noteRecord ()).run.run (seen ++ [r]) := rfl
    rw [hstep, ih, List.append_assoc]
    rfl

/-- `replay_wal` with chunks of a given size, with the records its callback was called with. -/
def replayNotingBy (chunkSize : ℕ) (content : Bytes) :
    Except Error WalReplayResult × List WalPutRecord :=
  let (result, records) := (replayStream chunkSize (pure ()) noteRecord content ()).run.run []
  (result.map Prod.snd, records)

theorem replayNoting_eq (content : Bytes) :
    replayNoting content = replayNotingBy walReadChunkSize content := rfl

/-- The result of a replay that has come to an end. -/
def WalReplayResult.finish (result : WalReplayResult) (recordCount byteCount tailBytes : ℕ) :
    WalReplayResult :=
  ⟨result.recordsReplayed + recordCount, result.validBytes + (byteCount - tailBytes), tailBytes⟩

/-- A tail is not longer than the log. -/
theorem decodeWhole_tail_le {bytes : Bytes} {offset tailBytes : ℕ}
    (h : (decodeWhole offset bytes).2 = .ok tailBytes) : tailBytes ≤ bytes.length := by
  obtain ⟨front, tail, rfl, -, -, rfl⟩ :=
    @exists_walDecodes_of_decodeWhole _ _ _ (decodeWhole offset bytes).1 (Prod.ext rfl h)
  rw [List.length_append]
  omega

/-- **The reference is whole-file decoding**, whatever the callback does: it is called with the
records in order, and then the replay ends as the decoding does. -/
theorem replayReference_eq_decodeWhole {m : Type → Type} [Monad m] [LawfulMonad m]
    [MonadLiftT (Except Error) m] {σ : Type} (replay : σ → WalPutRecord → m σ) (fuel : ℕ)
    (result : WalReplayResult) (hclean : result.incompleteTailBytes = 0) (bytes : Bytes)
    (hfuel : bytes.length < fuel) (acc : σ) :
    replayReference replay fuel result bytes acc =
      (decodeWhole result.validBytes bytes).1.foldlM replay acc >>= fun acc ↦
        match (decodeWhole result.validBytes bytes).2 with
        | .ok tailBytes => pure (acc, result.finish (decodeWhole result.validBytes bytes).1.length
            bytes.length tailBytes)
        | .error e => raise e := by
  induction fuel generalizing result bytes acc with
  | zero => exact absurd hfuel (Nat.not_lt_zero _)
  | succ fuel ih =>
    rw [replayReference]
    by_cases hne : bytes = []
    · subst hne
      have hsame : result.finish 0 0 0 = result := by
        obtain ⟨recordsReplayed, validBytes, incompleteTailBytes⟩ := result
        exact congrArg (WalReplayResult.mk recordsReplayed validBytes) hclean.symm
      rw [if_pos rfl, decodeWhole_nil]
      simp only [List.foldlM_nil, pure_bind, List.length_nil, hsame]
    rw [if_neg hne]
    rcases decodeWalRecord_cases bytes with ⟨error, herr, -⟩ | ⟨record, consumed, hdec, -, hle⟩
    · rw [decodeWhole_error hne herr, herr]
      by_cases hinc : error = .incompleteRecord
      · simp only [walDecodeError, hinc, if_true, List.foldlM_nil, pure_bind, List.length_nil,
          WalReplayResult.finish, Nat.sub_self, Nat.add_zero]
      · simp only [walDecodeError, hinc, if_false, List.foldlM_nil, pure_bind]
    · have hlt := length_drop_lt_of_decodeWalRecord hdec
      rw [decodeWhole_record hdec, hdec]
      simp only [List.foldlM_cons, bind_assoc]
      congr 1
      funext acc'
      rw [ih (result.advance consumed) hclean (bytes.drop consumed) (by omega) acc']
      congr 1
      funext acc''
      change _ =
        match (decodeWhole (result.advance consumed).validBytes (bytes.drop consumed)).2 with
        | .ok tailBytes => _
        | .error e => _
      cases hend : (decodeWhole (result.advance consumed).validBytes (bytes.drop consumed)).2 with
      | error e => rfl
      | ok tailBytes =>
        have htail := decodeWhole_tail_le hend
        rw [List.length_drop] at htail
        have hsame : ∀ count, (result.advance consumed).finish count
          (bytes.length - consumed) tailBytes =
            result.finish (count + 1) bytes.length tailBytes := by
          intro count
          have hcount : result.recordsReplayed + 1 + count =
              result.recordsReplayed + (count + 1) := by
            omega
          have hvalid : result.validBytes + consumed + (bytes.length - consumed - tailBytes) =
              result.validBytes + (bytes.length - tailBytes) := by
            omega
          rw [WalReplayResult.finish, WalReplayResult.finish, ← hcount, ← hvalid]
          rfl
        dsimp only
        rw [List.length_drop, hsame]
        rfl

/-- **Replay is whole-file decoding**, for every callback and every size of the chunks. -/
theorem replayStream_eq_decodeWhole {m : Type → Type} [Monad m] [LawfulMonad m]
    [MonadLiftT (Except Error) m] {σ : Type} {chunkSize : ℕ} (hc : 0 < chunkSize)
    (replay : σ → WalPutRecord → m σ) (content : Bytes) (acc : σ) :
    replayStream chunkSize (pure ()) replay content acc =
      (decodeWhole 0 content).1.foldlM replay acc >>= fun acc ↦
        match (decodeWhole 0 content).2 with
        | .ok tailBytes => pure (acc, ⟨(decodeWhole 0 content).1.length, content.length - tailBytes,
            tailBytes⟩)
        | .error e => raise e := by
  rw [replayStream_eq_reference hc, replayReference_eq_decodeWhole replay _ {} rfl _ (by omega)]
  simp only [WalReplayResult.finish, Nat.zero_add]

/-- **Replay of a log of a known shape**: the callback sees the records in order, and the tail is
measured. -/
theorem replayStream_of_walDecodes {m : Type → Type} [Monad m] [LawfulMonad m]
    [MonadLiftT (Except Error) m] {σ : Type} {chunkSize : ℕ} (hc : 0 < chunkSize)
    (replay : σ → WalPutRecord → m σ) {front tail : Bytes} {records : List WalPutRecord}
    (hfront : WalDecodes front records) (htail : IncompleteTail tail) (acc : σ) :
    replayStream chunkSize (pure ()) replay (front ++ tail) acc =
      records.foldlM replay acc >>= fun acc ↦
        pure (acc, ⟨records.length, front.length, tail.length⟩) := by
  have hwhole : decodeWhole 0 (front ++ tail) = (records, .ok tail.length) :=
    decodeWhole_eq_ok_iff.2 ⟨front, tail, rfl, hfront, htail, rfl⟩
  rw [replayStream_eq_decodeWhole hc, hwhole]
  simp only [List.length_append, Nat.add_sub_cancel]

/-- What replay returns and what its callback is called with. -/
theorem replayNotingBy_eq {chunkSize : ℕ} (hc : 0 < chunkSize) (content : Bytes) :
    replayNotingBy chunkSize content =
      ((decodeWhole 0 content).2.map fun tailBytes ↦
        ⟨(decodeWhole 0 content).1.length, content.length - tailBytes, tailBytes⟩,
      (decodeWhole 0 content).1) := by
  have hfold := foldlM_noteRecord (decodeWhole 0 content).1 []
  rw [List.nil_append] at hfold
  rw [replayNotingBy, replayStream_eq_decodeWhole hc, ExceptT.run_bind, StateT.run_bind, hfold]
  cases (decodeWhole 0 content).2 <;> rfl

/-- **Streaming replay equals whole-file decoding**, for every content and every size of the chunks:
it ends, its callback sees the same records in the same order, it ends in the same result or the
same exception, and the counts it returns add up. -/
theorem replay_eq_decodeWhole {chunkSize : ℕ} (hc : 0 < chunkSize) (content : Bytes) :
    (replayNotingBy chunkSize content).2 = (decodeWhole 0 content).1 ∧
      (∀ e, (decodeWhole 0 content).2 = .error e →
        (replayNotingBy chunkSize content).1 = .error e) ∧
      ∀ tailBytes, (decodeWhole 0 content).2 = .ok tailBytes →
        ∃ result, (replayNotingBy chunkSize content).1 = .ok result ∧
          result.incompleteTailBytes = tailBytes ∧
          result.recordsReplayed = (replayNotingBy chunkSize content).2.length ∧
          result.validBytes + result.incompleteTailBytes = content.length := by
  rw [replayNotingBy_eq hc]
  refine ⟨rfl, fun e he ↦ by rw [he]; rfl, fun tailBytes htail ↦ ?_⟩
  have hle := decodeWhole_tail_le htail
  rw [htail]
  exact ⟨_, rfl, rfl, rfl, Nat.sub_add_cancel hle⟩

/-- A record and the first byte of another one, read seven bytes at a time. -/
theorem replay_eq_decodeWhole_chunks_of_seven :
    (decodeWhole 0 (walFrame cpuRecord ++ [0x43])).2 = .ok 1 ∧
      (replayNotingBy 7 (walFrame cpuRecord ++ [0x43])).2 =
        (decodeWhole 0 (walFrame cpuRecord ++ [0x43])).1 ∧
      ∃ result, (replayNotingBy 7 (walFrame cpuRecord ++ [0x43])).1 = .ok result ∧
        result.incompleteTailBytes = 1 := by
  have hdec : decodeWalRecord (walFrame cpuRecord) =
      ⟨some cpuRecord, .none, (walFrame cpuRecord).length⟩ := by decide +kernel
  have htail : (decodeWhole 0 (walFrame cpuRecord ++ [0x43])).2 = .ok 1 := by
    have hone : WalDecodes (walFrame cpuRecord ++ []) [cpuRecord] := .cons hdec .nil
    rw [List.append_nil] at hone
    rw [hone.decodeWhole_append, @decodeWhole_incompleteTail [0x43] rfl]
    rfl
  have h := @replay_eq_decodeWhole 7 (by decide) (walFrame cpuRecord ++ [0x43])
  obtain ⟨result, hresult, hbytes, -⟩ := h.2.2 1 htail
  exact ⟨htail, h.1, result, hresult, hbytes⟩

end ChronoStore
