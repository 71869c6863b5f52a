import ChronoStore.Codec.Manifest
import ChronoStore.Codec.SegmentFormat

/-!
# The manifest format is a bijection

The manifest is the commit point of the store, so a state that the writer accepts and the reader
rejects would make a database unopenable, and a file that the reader takes for a state which the
writer would not write could never be replaced. Neither exists: what the encoder accepts is decided
by four conditions on the names (`encodeManifest_throws_iff`), what it writes reads back, and what
is read is, byte for byte, what the encoder writes for the state that is returned.
-/

namespace ChronoStore

open Parser

/-- The header that has been read is the one that the fields are written as. -/
theorem of_readManifestHeader_run {header : ManifestHeader} {input rest : Bytes}
    (h : readManifestHeader.run input = some (header, rest)) :
    input = writeU32 header.magic ++ (writeU16 header.version ++ (writeU16 header.flags ++
      (writeU64 header.generation ++ (writeU64 header.logicalSampleCount ++
        (writeU32 header.segmentCount ++ (writeU32 header.payloadSize ++
          writeU32 header.invertedSize)))))) ++ rest := by
  obtain ⟨magic, _, hmagic, h₁⟩ := run_bind_eq_some.1 h
  obtain ⟨version, _, hversion, h₂⟩ := run_bind_eq_some.1 h₁
  obtain ⟨flags, _, hflags, h₃⟩ := run_bind_eq_some.1 h₂
  obtain ⟨generation, _, hgeneration, h₄⟩ := run_bind_eq_some.1 h₃
  obtain ⟨count, _, hcount, h₅⟩ := run_bind_eq_some.1 h₄
  obtain ⟨segments, _, hsegments, h₆⟩ := run_bind_eq_some.1 h₅
  obtain ⟨size, _, hsize, h₇⟩ := run_bind_eq_some.1 h₆
  obtain ⟨inverted, _, hinverted, h₈⟩ := run_bind_eq_some.1 h₇
  obtain ⟨rfl, rfl⟩ := run_pure_eq_some.1 h₈
  clear h h₁ h₂ h₃ h₄ h₅ h₆ h₇ h₈
  obtain ⟨rfl, -⟩ := of_readU32_run hmagic
  obtain ⟨rfl, -⟩ := of_readUnsigned_run hversion
  obtain ⟨rfl, -⟩ := of_readUnsigned_run hflags
  obtain ⟨rfl, -⟩ := of_readU64_run hgeneration
  obtain ⟨rfl, -⟩ := of_readU64_run hcount
  obtain ⟨rfl, -⟩ := of_readU32_run hsegments
  obtain ⟨rfl, -⟩ := of_readU32_run hsize
  obtain ⟨rfl, -⟩ := of_readU32_run hinverted
  simp only [List.append_assoc]
  rfl

/-- The names that have been read are what would be written. -/
theorem of_readNames_run {count : ℕ} {names : List Bytes} {input rest : Bytes}
    (h : (readNames count).run input = some (names, rest)) :
    input = names.flatMap stringBytes ++ rest ∧ names.length = count := by
  induction count generalizing names input with
  | zero =>
    obtain ⟨rfl, rfl⟩ := run_pure_eq_some.1 h
    exact ⟨rfl, rfl⟩
  | succ count ih =>
    rw [readNames] at h
    obtain ⟨name, _, hname, h₁⟩ := run_bind_eq_some.1 h
    obtain ⟨later, _, hlater, h₂⟩ := run_bind_eq_some.1 h₁
    obtain ⟨rfl, rfl⟩ := run_pure_eq_some.1 h₂
    clear h h₁ h₂
    obtain ⟨rfl, -⟩ := of_readString_run hname
    obtain ⟨rfl, hlen⟩ := ih hlater
    rw [List.flatMap_cons, List.append_assoc]
    exact ⟨rfl, by rw [List.length_cons, hlen]⟩

/-- A state that passes the check has what the check asks for. -/
theorem of_validateState {state : ManifestState} (h : validateState state = .ok ()) :
    state.segmentFiles.length ≤ maxManifestSegments ∧
      (∀ name ∈ state.segmentFiles, validSegmentFilename name = true) ∧
      state.segmentFiles.Nodup := by
  rw [validateState] at h
  split at h
  · cases h
  rename_i hmax
  rcases validateNames_cases [] state.segmentFiles with ⟨-, hvalid, hnodup, -⟩ | ⟨herr, -⟩
  · exact ⟨not_lt.1 hmax, hvalid, hnodup⟩
  · rw [herr] at h
    cases h

/-- **What the decoder accepts is the encoding of the state**, and the encoder accepts the state. -/
theorem eq_manifestBytes_of_decodeManifest {bytes : Bytes} {state : ManifestState}
    (h : decodeManifest bytes = .ok state) :
    bytes = manifestBytes state ∧ ManifestAccepts state := by
  have hsealed := sealed_of_decodeManifest h
  rw [decodeManifest] at h
  split at h
  · cases h
  split at h
  · cases h
  rename_i header rest hrun
  split at h
  · cases h
  rename_i hmagic
  split at h
  · cases h
  rename_i hversion
  split at h
  · cases h
  rename_i hmeta
  split at h
  · cases h
  rename_i hlen
  split at h
  · cases h
  split at h
  · cases h
  · cases h
  rename_i filenames hnames
  dsimp only at h
  split at h
  · cases h
  rename_i hstate
  obtain rfl := Except.ok.inj h
  simp only [not_or, not_not, not_lt] at hmagic hversion hmeta hlen
  obtain ⟨hmax, hvalid, hnodup⟩ := of_validateState hstate
  obtain ⟨hpayload, hcount⟩ := of_readNames_run hnames
  rw [List.append_nil] at hpayload
  have hsize : header.payloadSize = (filenames.flatMap stringBytes).length := by
    rw [← hpayload, List.length_take, List.length_drop]
    unfold manifestHeaderSize manifestChecksumSize at hlen
    unfold manifestHeaderSize
    omega
  have hhead := of_readManifestHeader_run hrun
  rw [hmagic, hversion.1, hversion.2, hmeta.2.2] at hhead
  have hbytes := hsealed.eq_withChecksum (manifestHeader
    ⟨header.generation, header.logicalSampleCount, filenames⟩ header.payloadSize) header.payloadSize
    (by rw [hhead, manifestHeader, hcount]) hlen hpayload
  rw [hsize] at hbytes
  refine ⟨hbytes, hmax, hvalid, hnodup, ?_⟩
  show (filenames.flatMap stringBytes).length ≤ maxManifestPayloadSize
  omega

/-- What is read of a manifest lists the names that were written, whatever its numbers were. -/
theorem segmentFiles_of_decodeManifest {state state' : ManifestState} {bytes : Bytes}
    (henc : encodeManifest state = .ok bytes) (hdec : decodeManifest bytes = .ok state') :
    state'.segmentFiles = state.segmentFiles := by
  obtain ⟨hacc, rfl⟩ := encodeManifest_eq_ok_iff.1 henc
  -- the numbers are written modulo `2 ^ 64`
  let reduced : ManifestState :=
    ⟨state.generation % 2 ^ 64, state.logicalSampleCount % 2 ^ 64, state.segmentFiles⟩
  have hsame : manifestBytes state = manifestBytes reduced := by
    have hwrite : ∀ value, writeU64 (value % 2 ^ 64) = writeU64 value := writeUnsigned_mod 8
    simp only [reduced, manifestBytes, manifestHeader, manifestPayload, hwrite]
  have hread : decodeManifest (manifestBytes reduced) = .ok reduced :=
    decodeManifest_manifestBytes ⟨hacc.length_le, hacc.valid, hacc.nodup, hacc.payload_le⟩
      (Nat.mod_lt state.generation (by decide)) (Nat.mod_lt state.logicalSampleCount (by decide))
  rw [hsame, hread] at hdec
  rw [← Except.ok.inj hdec]

/-- **When the manifest encoder throws.** -/
theorem encodeManifest_throws_iff (state : ManifestState) :
    (∃ e, encodeManifest state = .error e) ↔
      state.segmentFiles.length > maxManifestSegments ∨
        (∃ name ∈ state.segmentFiles, validSegmentFilename name = false) ∨
          ¬state.segmentFiles.Nodup ∨ (manifestPayload state).length > maxManifestPayloadSize := by
  have haccepts : (∃ e, encodeManifest state = .error e) ↔ ¬ManifestAccepts state := by
    rcases encodeManifest_cases state with ⟨hacc, hok⟩ | ⟨hnot, e, -, herr⟩
    · simp [hacc, hok]
    · simp [hnot, herr]
  rw [haccepts]
  constructor
  · intro hnot
    by_contra hnone
    simp only [not_or, not_exists, not_and, not_lt, not_not, Bool.not_eq_false] at hnone
    exact hnot ⟨hnone.1, hnone.2.1, hnone.2.2.1, hnone.2.2.2⟩
  · rintro (hmax | ⟨name, hname, hinvalid⟩ | hrepeated | hsize) hacc
    · exact absurd hacc.length_le (not_le.2 hmax)
    · rw [hacc.valid name hname] at hinvalid
      cases hinvalid
    · exact hrepeated hacc.nodup
    · exact absurd hacc.payload_le (not_le.2 hsize)

/-- **The manifest codec is a bijection** between the states that the encoder accepts, the numbers
of which have 64 bits, and the byte strings that the decoder accepts. -/
theorem manifest_bijection :
    (∀ state : ManifestState, state.generation < 2 ^ 64 → state.logicalSampleCount < 2 ^ 64 →
      ∀ bytes, encodeManifest state = .ok bytes → decodeManifest bytes = .ok state) ∧
    (∀ state : ManifestState, (∃ e, encodeManifest state = .error e) ↔
      state.segmentFiles.length > maxManifestSegments ∨
        (∃ name ∈ state.segmentFiles, validSegmentFilename name = false) ∨
          ¬state.segmentFiles.Nodup ∨
            (state.segmentFiles.flatMap stringBytes).length > maxManifestPayloadSize) ∧
    ∀ (bytes : Bytes) (state : ManifestState), decodeManifest bytes = .ok state →
      encodeManifest state = .ok bytes := by
  refine ⟨fun state hgen hcount bytes henc ↦ ?_, encodeManifest_throws_iff,
    fun bytes state hdec ↦ ?_⟩
  · obtain ⟨hacc, rfl⟩ := encodeManifest_eq_ok_iff.1 henc
    exact decodeManifest_manifestBytes hacc hgen hcount
  · obtain ⟨rfl, hacc⟩ := eq_manifestBytes_of_decodeManifest hdec
    exact encodeManifest_eq_ok_iff.2 ⟨hacc, rfl⟩

/-- A manifest that names three segments. -/
def cpuManifest : ManifestState := ⟨7, 4, [segmentFilename 2, segmentFilename 3, segmentFilename 7]⟩

/-- A manifest of three names is encoded, decoded and encoded again. -/
theorem manifest_bijection_cpu : ∃ bytes, encodeManifest cpuManifest = .ok bytes ∧
    decodeManifest bytes = .ok cpuManifest ∧ encodeManifest cpuManifest = .ok bytes := by
  have hok := encodeManifest_eq_ok_iff.2 ⟨(⟨by decide, by decide +kernel, by decide +kernel,
    by decide +kernel⟩ : ManifestAccepts cpuManifest), rfl⟩
  have hdec := manifest_bijection.1 cpuManifest (by decide) (by decide) _ hok
  exact ⟨_, hok, hdec, manifest_bijection.2.2 _ _ hdec⟩

end ChronoStore
