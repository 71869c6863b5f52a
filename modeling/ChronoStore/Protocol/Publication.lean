import ChronoStore.Protocol.Following

/-!
# Publication follows the protocol

The atomic write of `file_io.cpp` as a sequence of moves, and from it the two publications of the
engine: putting a segment in its place and making a manifest that names it the current one. Whatever
call fails and wherever the process ends, the directory keeps a meaning, and it is that of the old
catalog or of the new one.
-/

namespace ChronoStore

open FaultyDisk WriteHistory

variable {o : Origin} {σ : Type} {S : List Event} {T : Catalog → Option WalLog → Prop} {s₀ : σ}
  {R : Error → Prop} {c c' : Catalog} {log : Option WalLog} {ready ready' : Option Layer}

section AtomicWrite

/-- The temporary file is filled with the bytes. -/
theorem spec_fillTemporary (target : Target) (bytes : Bytes) {e : Error}
    (he : e.IsIo) (ht : T c log) :
    Spec S (Here o ⟨c, log, ready, .staging target []⟩ s₀)
      (Act.writeAll (temporaryName (c.pathOf target)) bytes e e)
      (fun _ ↦ Here o ⟨c, log, ready, .staging target bytes⟩ s₀)
      (Throws o S T R) (Reaches o T) := by
  have hwrite := FaultyDisk.Spec.writeAll (S := S) (temporaryName (c.pathOf target)) bytes e e
    (fun done ↦ Here o ⟨c, log, ready, .staging target done⟩ s₀) (by
      rintro done piece s d - ⟨rfl, hat⟩
      exact ⟨rfl, hat.perform .fillFile⟩)
  refine hwrite.conseq (fun _ _ ↦ id) (fun _ _ _ ↦ id) ?_ ?_
  · rintro e' s d ⟨he', hS, done, -, -, hat⟩
    obtain rfl : e' = e := he'.elim id id
    exact ⟨hat.atSome (.staging ht target done), Or.inl ⟨hS, he⟩⟩
  · rintro d ⟨s, done, -, -, hat⟩
    exact hat.atSome (.staging ht target done)

/-- The temporary file is synced, and from then on it cannot be lost. -/
theorem spec_syncTemporary (target : Target) (bytes : Bytes) (ht : T c log) :
    Spec S (Here o ⟨c, log, ready, .staging target bytes⟩ s₀)
      (syncFile (temporaryName (c.pathOf target)))
      (fun _ ↦ Here o ⟨c, log, ready, .sealed target bytes⟩ s₀)
      (Throws o S T R) (Reaches o T) := by
  refine Spec.bind (Spec.call trivial (.staging ht target bytes)) fun _ ↦ ?_
  refine Spec.bind (Spec.move trivial .sealFile (by simp) (.staging ht target bytes)
    (.sealed ht target bytes)) fun _ ↦ ?_
  exact Spec.call trivial (.sealed ht target bytes)

/-- The rename is a move of the catalog, and the sync of the directory settles it. -/
theorem spec_replaceFile {target : Target} {bytes : Bytes}
    (hmove : Move ⟨c, log, ready, .sealed target bytes⟩
      (.rename (temporaryName (c.pathOf target)) (c.pathOf target))
      ⟨c', log, ready', .renamed c⟩) (ht : T c log) (ht' : T c' log) (ht'' : T c'.settled log) :
    Spec S (Here o ⟨c, log, ready, .sealed target bytes⟩ s₀)
      (replaceFile (temporaryName (c.pathOf target)) (c.pathOf target))
      (fun _ ↦ Here o ⟨c'.settled, log, ready', .idle⟩ s₀)
      (Throws o S T R) (Reaches o T) := by
  refine Spec.bind (Spec.move trivial hmove (by simp) (.sealed ht target bytes)
    (.renamed ht' ht)) fun _ ↦ ?_
  refine Spec.bind (Spec.call trivial (.renamed ht' ht)) fun _ ↦ ?_
  refine Spec.bind (Spec.move trivial .syncDirectory (by simp) (.renamed ht' ht) (.idle ht''))
    fun _ ↦ ?_
  exact Spec.call trivial (.idle ht'')

/-- **The atomic write.** -/
theorem spec_atomicWriteFile (target : Target) {bytes : Bytes} (hlen : bytes.length ≤ 2 ^ 63 - 1)
    (hmove : Move ⟨c, log, ready, .sealed target bytes⟩
      (.rename (temporaryName (c.pathOf target)) (c.pathOf target))
      ⟨c', log, ready', .renamed c⟩) (ht : T c log) (ht' : T c' log) (ht'' : T c'.settled log) :
    Spec S (Here o ⟨c, log, ready, .idle⟩ s₀) (atomicWriteFile (c.pathOf target) bytes)
      (fun _ ↦ Here o ⟨c'.settled, log, ready', .idle⟩ s₀)
      (Throws o S T R) (Reaches o T) := by
  refine Spec.bind (Spec.move trivial (.stageFile target) (by simp) (.idle ht)
    (.staging ht target [])) fun _ ↦ ?_
  rw [if_neg (by omega)]
  refine Spec.bind (spec_fillTemporary target bytes trivial ht) fun _ ↦ ?_
  refine Spec.bind (spec_syncTemporary target bytes ht) fun _ ↦ ?_
  exact spec_replaceFile hmove ht ht' ht''

/-! ### Publishing a layer -/

/-- **Putting a segment in its place**, or refusing blocks that the writer does not accept. The
directory is synchronized, and with it everything that was renamed before. -/
theorem spec_writeSegmentFile (blocks : List SegmentBlock) (ht : T c log) (ht' : T c.settled log)
    (hR : ¬SegmentAccepts blocks → ∀ e : Error, e.IsRefusal → R e) :
    Spec S (Here o ⟨c, log, ready, .idle⟩ s₀)
      (writeSegmentFile (segmentFilename (c.generation + 1)) blocks)
      (fun _ s d ↦ ∃ l : Layer, l.number = c.generation + 1 ∧ l.blocks = blocks ∧
        Here o ⟨c.settled, log, some l, .idle⟩ s₀ s d)
      (Throws o S T R) (Reaches o T) := by
  rcases encodeSegmentFile_cases blocks with ⟨hacc, hok⟩ | ⟨hacc, e, he, herr⟩
  · have hlen : (segmentBytes blocks).length ≤ 2 ^ 63 - 1 := by
      obtain ⟨hregion, hindex, -, hfile⟩ := hacc.sizes
      unfold maxIndexPayloadSize segmentIndexHeaderSize checksumSize at hindex
      unfold segmentHeaderSize segmentFooterSize at hfile
      omega
    rw [writeSegmentFile, hok, Act.ofExcept_ok, pure_bind]
    refine Spec.bind (spec_atomicWriteFile .segment hlen
      (.placeSegment ⟨c.generation + 1, blocks, hacc⟩ rfl) ht ht ht') fun _ ↦ ?_
    exact Spec.pure fun s d h ↦ ⟨⟨c.generation + 1, blocks, hacc⟩, rfl, rfl, h⟩
  · rw [writeSegmentFile, herr, Act.ofExcept_error, Act.throw_bind]
    refine Spec.throw ?_
    rintro s d ⟨rfl, hat⟩
    exact hat.throws (.idle ht) (hR hacc e he) _

/-- **Making a catalog the current one.** -/
theorem spec_storeManifest {log : WalLog} {l : Layer}
    (hgeneration : c'.generation = c.generation + 1)
    (hlayers : c'.layers = c.layers ++ [l] ∨ c'.layers = [l])
    (hsame : Republishes c (some log) c') (hdurable : c.older = []) (hdurable' : c'.older = [])
    (ht : T c (some log)) (ht' : T c' (some log)) :
    Spec S (Here o ⟨c, some log, some l, .idle⟩ s₀) (storeManifest c'.manifest)
      (fun _ ↦ Here o ⟨c', some log, none, .idle⟩ s₀) (Throws o S T R) (Reaches o T) := by
  have hlen : (manifestBytes c'.manifest).length ≤ 2 ^ 63 - 1 := by
    have h₁ := length_manifestBytes c'.manifest
    have h₂ := c'.accepts.payload_le
    unfold maxManifestPayloadSize at h₂
    unfold manifestHeaderSize manifestChecksumSize at h₁
    omega
  have hsettled : c'.settled = c' := Catalog.settled_of_durable hdurable'
  have hspec : Spec S (Here o ⟨c, some log, some l, .idle⟩ s₀)
      (atomicWriteFile (c.pathOf .manifest) (manifestBytes c'.manifest))
      (fun _ ↦ Here o ⟨c'.settled, some log, none, .idle⟩ s₀) (Throws o S T R) (Reaches o T) :=
    spec_atomicWriteFile .manifest hlen
      (.publishManifest c' hgeneration hlayers hsame hdurable hdurable') ht ht'
        (hsettled.symm ▸ ht')
  rw [storeManifest, encodeManifest_eq_ok_iff.2 ⟨c'.accepts, rfl⟩, Act.ofExcept_ok, pure_bind]
  rwa [hsettled] at hspec

end AtomicWrite

end ChronoStore
