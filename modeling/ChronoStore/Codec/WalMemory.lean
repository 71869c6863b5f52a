import ChronoStore.Codec.WalRecovery

/-!
# The local variables of a replay

`replay_wal` reads a log of any length and any content, and its buffer does not grow with the log:
what waits in it for more bytes is the start of one record, and a record whose header announces more
than the limit is refused when its header is complete. Its counters are offsets into the log. Both
are said of the loop itself: `replayLoopWatched` is the loop with a look at the local variables at
the start of every iteration, and where it raises an alarm as soon as they leave their bounds
(`ReplayState.Within`) it is still the loop (`replay_bounded`).
-/

namespace ChronoStore

/-! ### The size of a record -/

/-- The largest record. -/
def walMaxRecordSize : ℕ := walHeaderSize + walMaxPayloadSize + walChecksumSize

/-- What is found incomplete is shorter than the largest record. -/
theorem length_lt_of_incomplete {bytes : Bytes} (h : IncompleteTail bytes) :
    bytes.length < walMaxRecordSize := by
  by_contra hlong
  rw [not_lt, walMaxRecordSize] at hlong
  rw [IncompleteTail, decodeWalRecord_eq (by omega), decodeWalFramed] at h
  dsimp only at h
  split at h
  · cases h
  split at h
  · cases h
  split at h
  · cases h
  rename_i hmax
  -- the announced record fits, so it is all there, its checksum included
  rw [if_neg (by omega)] at h
  have hsum : walChecksumSize ≤
      ((bytes.drop (walHeaderSize + (walHeaderOf bytes).payloadLength)).take
        walChecksumSize).length := by
    rw [List.length_take, List.length_drop]
    omega
  have hread := readUnsigned_run (n := 4) (by decide) hsum
  rw [show readU32 = readUnsigned 4 from rfl, hread] at h
  dsimp only at h
  split at h
  · cases h
  split at h
  · cases h
  split at h
  · cases h
  split at h
  · cases h
  · cases h

/-- A record has a header and a checksum. -/
theorem le_of_decodeWalRecord {bytes : Bytes} {record : WalPutRecord} {consumed : ℕ}
    (h : decodeWalRecord bytes = ⟨some record, .none, consumed⟩) :
    walHeaderSize + walChecksumSize ≤ consumed := by
  by_cases hshort : bytes.length < walHeaderSize
  · rw [decodeWalRecord, if_pos hshort] at h
    cases h
  rw [decodeWalRecord_eq (not_lt.1 hshort)] at h
  rcases decodeWalFramed_cases (walHeaderOf bytes) bytes with ⟨e, he, -⟩ | ⟨record', hrecord, -⟩
  · rw [he] at h
    cases h
  · rw [hrecord] at h
    obtain rfl := congrArg WalDecodeResult.bytesConsumed h
    dsimp only
    omega

/-! ### The loop, watched -/

section Watched

variable {m : Type → Type} [Monad m] [MonadLiftT (Except Error) m] {σ : Type}

/-- The loop of `replay_wal`, with a look at its local variables at the start of every iteration. -/
def replayLoopWatched (watch : ReplayState → m Unit) (chunkSize : ℕ) (touch : m Unit)
    (replay : σ → WalPutRecord → m σ) : (fuel : ℕ) → ReplayState → σ → m (σ × WalReplayResult)
  | 0, _, _ => raise (.logicError "replay loop ran out of fuel")
  | fuel + 1, st, acc => do
    watch st
    if st.consumed < st.buffer.length then
      let available := st.buffer.drop st.consumed
      let decoded := decodeWalRecord available
      match decoded.record, decoded.error with
      | some record, .none =>
        if decoded.bytesConsumed = 0 ∨ decoded.bytesConsumed > available.length then
          raise (.logicError "WAL decoder reported an invalid size")
        else do
          let acc ← replay acc record
          replayLoopWatched watch chunkSize touch replay fuel (st.advance decoded.bytesConsumed) acc
      | _, error =>
        if error ≠ .incompleteRecord then
          raise (.walFormatError st.result.validBytes error)
        else if st.reachedEnd then
          pure (acc, { st.result with incompleteTailBytes := st.buffer.length - st.consumed })
        else do
          touch
          replayLoopWatched watch chunkSize touch replay fuel (st.readNextChunk chunkSize) acc
    else if st.reachedEnd then
      pure (acc, st.result)
    else do
      touch
      replayLoopWatched watch chunkSize touch replay fuel (st.readNextChunk chunkSize) acc

/-- `replay_wal`, watched. -/
def replayStreamWatched (watch : ReplayState → m Unit) (chunkSize : ℕ) (touch : m Unit)
    (replay : σ → WalPutRecord → m σ) (content : Bytes) (acc : σ) : m (σ × WalReplayResult) :=
  replayLoopWatched watch chunkSize touch replay (2 * content.length + 2)
    ⟨content, [], 0, false, {}⟩ acc

end Watched

namespace ReplayState

/-- The bounds of the local variables: `consumed` is a position in the buffer, the buffer holds less
than one record and one chunk, the counter of bytes is the offset of what is left, and every record
counted takes its share of it. -/
def Within (chunkSize : ℕ) (content : Bytes) (st : ReplayState) : Prop :=
  st.consumed ≤ st.buffer.length ∧ st.buffer.length < walMaxRecordSize + chunkSize ∧
    (st.result.validBytes ≤ content.length ∧ st.rest = content.drop st.result.validBytes) ∧
      (walHeaderSize + walChecksumSize) * st.result.recordsReplayed ≤ st.result.validBytes

instance (chunkSize : ℕ) (content : Bytes) : DecidablePred (Within chunkSize content) := fun _ ↦
  inferInstanceAs (Decidable (_ ∧ _))

variable {chunkSize : ℕ} {content : Bytes} {st : ReplayState}

/-- At the start nothing is in memory. -/
theorem within_start (chunkSize : ℕ) (content : Bytes) :
    Within chunkSize content ⟨content, [], 0, false, {}⟩ := by
  refine ⟨le_rfl, ?_, ⟨Nat.zero_le _, rfl⟩, le_rfl⟩
  have hpos : 0 < walMaxRecordSize := by decide
  exact Nat.lt_of_lt_of_le hpos (Nat.le_add_right _ _)

/-- Reading is for a record that is incomplete. -/
theorem Within.readNextChunk (h : st.Within chunkSize content)
    (hwaiting : IncompleteTail (st.buffer.drop st.consumed)) :
    (st.readNextChunk chunkSize).Within chunkSize content := by
  obtain ⟨-, -, hposition, hrecords⟩ := h
  refine ⟨Nat.zero_le _, ?_, ?_, hrecords⟩
  · have hlt := length_lt_of_incomplete hwaiting
    have hle := List.length_take_le chunkSize st.input
    show (st.buffer.drop st.consumed ++ st.input.take chunkSize).length < _
    rw [List.length_append]
    omega
  · rw [rest_readNextChunk]
    exact hposition

/-- A record moves the position and the counter together. -/
theorem Within.advance (h : st.Within chunkSize content) {n : ℕ}
    (hmin : walHeaderSize + walChecksumSize ≤ n) (hn : n ≤ (st.buffer.drop st.consumed).length) :
    (st.advance n).Within chunkSize content := by
  obtain ⟨hconsumed, hbuffer, ⟨hle, hrest⟩, hrecords⟩ := h
  have hdrop := rest_advance hn
  have hlen : n ≤ st.rest.length := by
    rw [rest, List.length_append]
    omega
  rw [List.length_drop] at hn
  rw [hrest, List.length_drop] at hlen
  refine ⟨?_, ?_, ⟨?_, ?_⟩, ?_⟩
  · simp only [ReplayState.advance]
    split
    · exact le_rfl
    · omega
  · simp only [ReplayState.advance]
    split
    · rw [List.length_nil]
      omega
    · exact hbuffer
  · show st.result.validBytes + n ≤ content.length
    omega
  · rw [hdrop, hrest, List.drop_drop]
    rfl
  · show (walHeaderSize + walChecksumSize) * (st.result.recordsReplayed + 1) ≤
      st.result.validBytes + n
    rw [Nat.mul_add, Nat.mul_one]
    omega

end ReplayState

variable {m : Type → Type} [Monad m] [LawfulMonad m] [MonadLiftT (Except Error) m] {σ : Type}

/-- From a state within the bounds, a look that says nothing within the bounds says nothing. -/
theorem replayLoopWatched_eq {watch : ReplayState → m Unit} {chunkSize : ℕ} {content : Bytes}
    (hwatch : ∀ st : ReplayState, st.Within chunkSize content → watch st = pure ()) (touch : m Unit)
    (replay : σ → WalPutRecord → m σ) (fuel : ℕ) :
    ∀ (st : ReplayState) (acc : σ), st.Within chunkSize content →
      replayLoopWatched watch chunkSize touch replay fuel st acc =
        replayLoop chunkSize touch replay fuel st acc := by
  induction fuel with
  | zero => exact fun _ _ _ ↦ rfl
  | succ fuel ih =>
    intro st acc hst
    have hread : IncompleteTail (st.buffer.drop st.consumed) →
        replayLoopWatched watch chunkSize touch replay fuel (st.readNextChunk chunkSize) acc =
          replayLoop chunkSize touch replay fuel (st.readNextChunk chunkSize) acc :=
      fun hwaiting ↦ ih _ _ (hst.readNextChunk hwaiting)
    rw [replayLoopWatched, replayLoop, hwatch st hst, pure_bind]
    by_cases hav : st.consumed < st.buffer.length
    · rw [if_pos hav, if_pos hav]
      rcases decodeWalRecord_cases (st.buffer.drop st.consumed) with
        ⟨e, hdec, -⟩ | ⟨record, k, hdec, -, hk⟩
      · simp only [hdec, walDecodeError]
        by_cases hinc : e = .incompleteRecord
        · rw [if_neg (not_not.2 hinc), if_neg (not_not.2 hinc),
            hread (by rw [IncompleteTail, hdec, hinc])]
        · rw [if_pos hinc, if_pos hinc]
      · simp only [hdec]
        split
        · rfl
        · exact bind_congr fun acc' ↦ ih _ _ (hst.advance (le_of_decodeWalRecord hdec) hk)
    · have hnil : st.buffer.drop st.consumed = [] := List.drop_of_length_le (not_lt.1 hav)
      rw [if_neg hav, if_neg hav, hread (hnil ▸ incompleteTail_nil)]

/-- A look that raises an alarm out of bounds. -/
def alarmed (alarm : Error) (chunkSize : ℕ) (content : Bytes) (st : ReplayState) : m Unit :=
  if st.Within chunkSize content then pure () else raise alarm

/-- **Replay runs in bounded memory**, and its counters are offsets into the log: on any content,
with chunks of any size, no iteration raises the alarm. -/
theorem replay_bounded (alarm : Error) (chunkSize : ℕ) (touch : m Unit)
    (replay : σ → WalPutRecord → m σ) (content : Bytes) (acc : σ) :
    replayStreamWatched (alarmed alarm chunkSize content) chunkSize touch replay content acc =
      replayStream chunkSize touch replay content acc :=
  replayLoopWatched_eq (fun _ hst ↦ if_pos hst) touch replay _ _ acc
    (ReplayState.within_start chunkSize content)

/-- The log of one record, counted. -/
theorem replay_bounded_cpu : replayStreamWatched (m := Except Error)
    (alarmed (.logicError "out of bounds") walReadChunkSize (walFrame cpuRecord)) walReadChunkSize
      (pure ()) (fun n _ ↦ pure (n + 1)) (walFrame cpuRecord) 0 =
    replayStream walReadChunkSize (pure ()) (fun n _ ↦ pure (n + 1)) (walFrame cpuRecord) 0 :=
  replay_bounded _ _ _ _ _ _

end ChronoStore
