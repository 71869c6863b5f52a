import ChronoStore.Codec.WalRecord

/-!
# Replaying the write-ahead log

`replay_wal` reads the log in chunks into a buffer, decodes what the buffer starts with, and hands
each record to a callback; a record cut by the end of the buffer waits for the next chunk. The loop
is written for any monad the callback may live in, with the read of a chunk as an action of its own
(`touch`), since reading may fail. It is bounded by `fuel`, of which twice the length of the log and
a little more is always enough (`replayStream_eq_reference`).

What the loop computes is independent of the chunks: it is `replayReference`, which decodes the
whole remaining log at once. The argument is that the decoder's verdict on what has been read so far
is final unless it is *incomplete*, and that *incomplete* is believed only at the end of the file.
-/

namespace ChronoStore

/-- `WalReplayResult`: the log is its valid bytes and a tail, which is a record cut short or
nothing. -/
structure WalReplayResult where
  recordsReplayed : ℕ := 0
  validBytes : ℕ := 0
  incompleteTailBytes : ℕ := 0
deriving DecidableEq

/-- `WalReplayResult::had_incomplete_tail`: is there something to repair? -/
def WalReplayResult.hadIncompleteTail (r : WalReplayResult) : Bool := r.incompleteTailBytes != 0

/-- The result after one more record. -/
def WalReplayResult.advance (r : WalReplayResult) (bytesConsumed : ℕ) : WalReplayResult :=
  { r with recordsReplayed := r.recordsReplayed + 1, validBytes := r.validBytes + bytesConsumed }

def walReadChunkSize : ℕ := 64 * 1024

/-- The local variables of `replay_wal`, with what the stream has not delivered yet. -/
structure ReplayState where
  input : Bytes
  buffer : Bytes
  consumed : ℕ
  reachedEnd : Bool
  result : WalReplayResult

section Replay

variable {m : Type → Type} [Monad m] [MonadLiftT (Except Error) m] {σ : Type}

/-- `remove_consumed_prefix` and `read_next_chunk`: a read that comes up short reaches the end. -/
def ReplayState.readNextChunk (chunkSize : ℕ) (st : ReplayState) : ReplayState :=
  { st with
    input := st.input.drop chunkSize
    buffer := st.buffer.drop st.consumed ++ st.input.take chunkSize
    consumed := 0
    reachedEnd := decide (st.input.length < chunkSize) }

/-- The local variables after a record; a buffer that is used up is cleared. -/
def ReplayState.advance (st : ReplayState) (bytesConsumed : ℕ) : ReplayState :=
  let consumed := st.consumed + bytesConsumed
  { st with
    buffer := if consumed = st.buffer.length then [] else st.buffer
    consumed := if consumed = st.buffer.length then 0 else consumed
    result := st.result.advance bytesConsumed }

/-- The loop of `replay_wal`. -/
def replayLoop (chunkSize : ℕ) (touch : m Unit) (replay : σ → WalPutRecord → m σ) :
    (fuel : ℕ) → ReplayState → σ → m (σ × WalReplayResult)
  | 0, _, _ => raise (.logicError "replay loop ran out of fuel")
  | fuel + 1, st, acc =>
    if st.consumed < st.buffer.length then
      let available := st.buffer.drop st.consumed
      let decoded := decodeWalRecord available
      match decoded.record, decoded.error with
      | some record, .none =>
        if decoded.bytesConsumed = 0 ∨ decoded.bytesConsumed > available.length then
          raise (.logicError "WAL decoder reported an invalid size")
        else do
          let acc ← replay acc record
          replayLoop chunkSize touch replay fuel (st.advance decoded.bytesConsumed) acc
      | _, error =>
        if error ≠ .incompleteRecord then
          raise (.walFormatError st.result.validBytes error)
        else if st.reachedEnd then
          pure (acc, { st.result with incompleteTailBytes := st.buffer.length - st.consumed })
        else do
          touch
          replayLoop chunkSize touch replay fuel (st.readNextChunk chunkSize) acc
    else if st.reachedEnd then
      pure (acc, st.result)
    else do
      touch
      replayLoop chunkSize touch replay fuel (st.readNextChunk chunkSize) acc

/-- `replay_wal` on an open stream that delivers `content`. -/
def replayStream (chunkSize : ℕ) (touch : m Unit) (replay : σ → WalPutRecord → m σ)
    (content : Bytes) (acc : σ) : m (σ × WalReplayResult) :=
  replayLoop chunkSize touch replay (2 * content.length + 2) ⟨content, [], 0, false, {}⟩ acc

/-- Replay without a buffer: decode all that is left, emit, continue behind the record. -/
def replayReference (replay : σ → WalPutRecord → m σ) :
    (fuel : ℕ) → WalReplayResult → Bytes → σ → m (σ × WalReplayResult)
  | 0, _, _, _ => raise (.logicError "replay loop ran out of fuel")
  | fuel + 1, result, bytes, acc =>
    if bytes = [] then pure (acc, result) else
    let decoded := decodeWalRecord bytes
    match decoded.record, decoded.error with
    | some record, .none => do
      let acc ← replay acc record
      replayReference replay fuel (result.advance decoded.bytesConsumed)
        (bytes.drop decoded.bytesConsumed) acc
    | _, error =>
      if error = .incompleteRecord then
        pure (acc, { result with incompleteTailBytes := bytes.length })
      else raise (.walFormatError result.validBytes error)

/-! ### The chunks do not matter -/

/-- What a state has still to decode. -/
def ReplayState.rest (st : ReplayState) : Bytes := st.buffer.drop st.consumed ++ st.input

/-- The work left to a state: unread bytes count twice, being read and being decoded. -/
def ReplayState.work (st : ReplayState) : ℕ :=
  2 * st.input.length + (st.buffer.length - st.consumed) + (!st.reachedEnd).toNat

/-- Reading a chunk does not change what is left of the log. -/
theorem ReplayState.rest_readNextChunk (chunkSize : ℕ) (st : ReplayState) :
    (st.readNextChunk chunkSize).rest = st.rest := by
  simp [rest, readNextChunk]

/-- Reading a chunk is progress. -/
theorem ReplayState.work_readNextChunk {chunkSize : ℕ} (hc : 0 < chunkSize) {st : ReplayState}
    (hend : st.reachedEnd = false) : (st.readNextChunk chunkSize).work < st.work := by
  simp only [work, readNextChunk, hend, List.length_drop, List.length_append, List.length_take]
  by_cases h : st.input.length < chunkSize
  · simp only [h, decide_true, Bool.not_true, Bool.not_false, Bool.toNat_true, Bool.toNat_false]
    omega
  · simp only [h, decide_false, Bool.not_false, Bool.toNat_true]
    omega

/-- A record that has been replayed is no longer left. -/
theorem ReplayState.rest_advance {st : ReplayState} {n : ℕ}
    (hn : n ≤ (st.buffer.drop st.consumed).length) : (st.advance n).rest = st.rest.drop n := by
  rw [List.length_drop] at hn
  simp only [rest, advance]
  rw [List.drop_append_of_le_length (by simpa using hn), List.drop_drop]
  split
  · rename_i heq
    rw [List.drop_nil, heq, List.drop_length]
  · rfl

/-- Replaying a record is progress. -/
theorem ReplayState.work_advance {st : ReplayState} {n : ℕ} (h0 : 0 < n)
    (hn : n ≤ (st.buffer.drop st.consumed).length) : (st.advance n).work < st.work := by
  rw [List.length_drop] at hn
  simp only [work, advance]
  split
  · simp only [List.length_nil]
    omega
  · omega

variable [LawfulMonad m]

/-- **Streaming equals whole-file decoding**, with enough fuel on both sides. -/
theorem replayLoop_eq_reference {chunkSize : ℕ} (hc : 0 < chunkSize)
    (replay : σ → WalPutRecord → m σ) (fuel : ℕ) :
    ∀ (n : ℕ) (st : ReplayState) (acc : σ), st.work < fuel → st.rest.length < n →
      (st.reachedEnd = true → st.input = []) →
      replayLoop chunkSize (pure ()) replay fuel st acc =
        replayReference replay n st.result st.rest acc := by
  induction fuel with
  | zero => exact fun n st acc hw _ _ ↦ absurd hw (Nat.not_lt_zero _)
  | succ fuel ih =>
    intro n st acc hw hn hend
    obtain ⟨n, rfl⟩ : ∃ k, n = k + 1 := ⟨n - 1, by omega⟩
    -- reading a chunk changes neither the result nor what is left to decode
    have hread : st.reachedEnd = false →
        replayLoop chunkSize (pure ()) replay fuel (st.readNextChunk chunkSize) acc =
          replayReference replay (n + 1) st.result st.rest acc := by
      intro he
      rw [ih (n + 1) (st.readNextChunk chunkSize) acc
        (by have := ReplayState.work_readNextChunk hc he; omega)
        (by rwa [ReplayState.rest_readNextChunk]), ReplayState.rest_readNextChunk]
      · rfl
      · intro h
        have hlt : st.input.length < chunkSize := by simpa [ReplayState.readNextChunk] using h
        exact List.drop_of_length_le hlt.le
    rw [replayLoop]
    by_cases hav : st.consumed < st.buffer.length
    · rw [if_pos hav]
      have hne : st.buffer.drop st.consumed ≠ [] := by
        rw [Ne, List.drop_eq_nil_iff]
        omega
      have hrest : st.rest ≠ [] := List.append_ne_nil_of_left_ne_nil hne _
      rcases decodeWalRecord_cases (st.buffer.drop st.consumed) with
        ⟨e, hdec, hnone⟩ | ⟨record, k, hdec, hk0, hk⟩
      · simp only [hdec, walDecodeError]
        by_cases hinc : e = .incompleteRecord
        · subst hinc
          simp only [ne_eq, not_true_eq_false, if_false]
          by_cases he : st.reachedEnd = true
          · -- the stream has ended, so the buffer is all that is left
            have hall : st.rest = st.buffer.drop st.consumed := by
              rw [ReplayState.rest, hend he, List.append_nil]
            rw [if_pos he, replayReference, if_neg hrest]
            simp only [hall, hdec, walDecodeError, if_true, List.length_drop]
          · rw [if_neg he, pure_bind]
            exact hread (by simpa using he)
        · have hfinal : decodeWalRecord st.rest = walDecodeError e := by
            rw [ReplayState.rest, decodeWalRecord_append (by rw [hdec]; exact hinc), hdec]
          rw [if_pos hinc, replayReference, if_neg hrest]
          simp only [hfinal, walDecodeError, hinc, if_false]
      · have hfinal : decodeWalRecord st.rest = ⟨some record, .none, k⟩ := by
          rw [ReplayState.rest, decodeWalRecord_append (by rw [hdec]; simp), hdec]
        have hbad : ¬(k = 0 ∨ k > (st.buffer.drop st.consumed).length) := by omega
        have hdrop := ReplayState.rest_advance hk
        rw [replayReference, if_neg hrest]
        simp only [hdec, hfinal, hbad, if_false]
        congr 1
        funext acc'
        have hlen : k ≤ st.rest.length := by
          rw [ReplayState.rest, List.length_append]
          omega
        rw [ih n (st.advance k) acc' (by have := ReplayState.work_advance hk0 hk; omega)
          (by rw [hdrop, List.length_drop]; omega) hend, hdrop]
        rfl
    · rw [if_neg hav]
      have hnil : st.buffer.drop st.consumed = [] := List.drop_of_length_le (not_lt.1 hav)
      by_cases he : st.reachedEnd = true
      · have hall : st.rest = [] := by rw [ReplayState.rest, hnil, hend he, List.append_nil]
        rw [if_pos he, replayReference, hall, if_pos rfl]
      · rw [if_neg he, pure_bind]
        exact hread (by simpa using he)

/-- **Replay computes the reference**, for every file and every chunk size, and never runs out of
fuel. -/
theorem replayStream_eq_reference {chunkSize : ℕ} (hc : 0 < chunkSize)
    (replay : σ → WalPutRecord → m σ) (content : Bytes) (acc : σ) :
    replayStream chunkSize (pure ()) replay content acc =
      replayReference replay (content.length + 1) {} content acc := by
  rw [replayStream, replayLoop_eq_reference hc replay _ (content.length + 1) _ acc]
  · rfl
  · simp [ReplayState.work]
  · simp [ReplayState.rest]
  · simp

end Replay

/-! ### Logs of encoded records -/

/-- The log that holds these records. -/
def walBytes (records : List WalPutRecord) : Bytes := records.flatMap walFrame

/-- Each record of a log takes at least the space of its header. -/
theorem length_le_walBytes (records : List WalPutRecord) :
    walHeaderSize * records.length ≤ (walBytes records).length := by
  induction records with
  | nil => simp
  | cons r records ih =>
    have hlen := length_walFrame r
    simp only [walBytes, List.flatMap_cons, List.length_append, List.length_cons,
      Nat.mul_add] at ih ⊢
    omega

/-- Encoded records are accepted ones, in their frames. -/
theorem of_encodeWalRecords {records : List WalPutRecord} {frames : List Bytes}
    (h : List.Forall₂ (fun r b ↦ encodeWalRecord r = .ok b) records frames) :
    (∀ r ∈ records, WalAccepts r) ∧ frames = records.map walFrame := by
  induction h with
  | nil => exact ⟨by simp, rfl⟩
  | cons hr _ ih =>
    obtain ⟨hacc, rfl⟩ := accepts_of_encodeWalRecord hr
    exact ⟨List.forall_mem_cons.2 ⟨hacc, ih.1⟩, by rw [List.map_cons, ih.2]⟩

/-- What may stand behind the last complete record of a log: nothing, or an interrupted append. -/
def IncompleteTail (tail : Bytes) : Prop :=
  decodeWalRecord tail = walDecodeError .incompleteRecord

theorem incompleteTail_nil : IncompleteTail [] := rfl

/-- A record that has been cut short is an incomplete tail. -/
theorem incompleteTail_of_cut {record : WalPutRecord} (h : WalAccepts record) {p : Bytes}
    (hp : p <+: walFrame record) (hne : p ≠ walFrame record) : IncompleteTail p :=
  decodeWalRecord_of_cut h hp hne

/-- Cutting an interrupted append leaves an interrupted append. -/
theorem IncompleteTail.cut {p tail : Bytes} (h : IncompleteTail tail) (hp : p <+: tail) :
    IncompleteTail p := by
  obtain ⟨more, rfl⟩ := hp
  unfold IncompleteTail at h ⊢
  by_contra hne
  have hfinal : (decodeWalRecord p).error ≠ .incompleteRecord := by
    rcases decodeWalRecord_cases p with ⟨error, herror, -⟩ | ⟨record, consumed, hrecord, -⟩
    · rw [herror] at hne ⊢
      exact fun heq ↦ hne (congrArg walDecodeError heq)
    · rw [hrecord]
      simp
  rw [decodeWalRecord_append hfinal more] at h
  exact hne h

/-- **Cutting a log** leaves a log of the first records. -/
theorem exists_walBytes_of_cut {records : List WalPutRecord} (hacc : ∀ r ∈ records, WalAccepts r)
    {tail p : Bytes} (htail : IncompleteTail tail) (hp : p <+: walBytes records ++ tail) :
    ∃ j ≤ records.length, ∃ tail', IncompleteTail tail' ∧
    p = walBytes (records.take j) ++ tail' := by
  induction records generalizing p with
  | nil => exact ⟨0, le_refl 0, p, htail.cut hp, rfl⟩
  | cons r records ih =>
    have hcons : walBytes (r :: records) ++ tail = walFrame r ++ (walBytes records ++ tail) := by
      simp [walBytes]
    rw [hcons] at hp
    have hframe : ∀ j, walBytes ((r :: records).take (j + 1)) =
        walFrame r ++ walBytes (records.take j) :=
      fun j ↦ by simp [walBytes]
    rcases List.prefix_or_prefix_of_prefix (List.prefix_append (walFrame r) _) hp with hle | hle
    · obtain ⟨q, rfl⟩ := hle
      obtain ⟨j, hj, tail', htail', rfl⟩ := ih (fun r' hr' ↦ hacc r' (List.mem_cons_of_mem _ hr'))
        ((List.prefix_append_right_inj _).1 hp)
      refine ⟨j + 1, Nat.succ_le_succ hj, tail', htail', ?_⟩
      rw [hframe, List.append_assoc]
    · by_cases hne : p = walFrame r
      · refine ⟨1, by simp, [], incompleteTail_nil, ?_⟩
        rw [hframe 0, hne]
        simp [walBytes]
      · exact ⟨0, Nat.zero_le _, p, incompleteTail_of_cut (hacc r List.mem_cons_self) hle hne, rfl⟩

end ChronoStore
