import ChronoStore.Codec.SegmentFile
import Mathlib.Data.Nat.Digits.Lemmas

/-!
# The manifest

The manifest names the live segments of a database, oldest first: `manifest.cpp`, together with the
file names that the engine gives to segments (`segmentFilename`, twenty decimal digits). Distinct
numbers give distinct names (`segmentFilename_injective`), and every such name passes the manifest's
own test (`validSegmentFilename_segmentFilename`).

As for the other formats, the decoder reads back what was encoded, accepts only what is sealed, and
throws only its own kind of exception.
-/

namespace ChronoStore

open Parser

/-! ### File names -/

/-- `std::filesystem::path::extension` of a file name: from the last dot on, unless the name starts
with it. -/
def extension (filename : Bytes) : Bytes :=
  let afterDot := (filename.reverse.takeWhile (· ≠ 46)).reverse
  if filename = ascii ".." ∨ filename.length ≤ afterDot.length + 1 then [] else 46 :: afterDot

/-- A decimal digit. -/
def digitByte (d : ℕ) : UInt8 := UInt8.ofNat (48 + d)

/-- The name of the segment with the given number: at least twenty digits, filled with zeros. -/
def segmentFilename (number : ℕ) : Bytes :=
  ascii "segment-" ++ ((Nat.digits 10 number ++
    List.replicate (20 - (Nat.digits 10 number).length) 0).reverse.map digitByte ++ ascii ".cst")

example : segmentFilename 42 = ascii "segment-00000000000000000042.cst" := by decide +kernel

/-- `valid_segment_filename`: a name without slashes that ends in `.cst`. The number of a segment is
not looked at, so other names pass as well, also ones with a NUL byte. -/
def validSegmentFilename (filename : Bytes) : Bool :=
  filename ≠ [] ∧ 47 ∉ filename ∧ 92 ∉ filename ∧ extension filename = ascii ".cst"

/-- A name that has `.cst` appended has it as its extension. -/
theorem extension_append_cst {stem : Bytes} (h : stem ≠ []) :
    extension (stem ++ ascii ".cst") = ascii ".cst" := by
  have hpos := List.length_pos_of_ne_nil h
  have hrev : (stem ++ ascii ".cst").reverse = [116, 115, 99] ++ 46 :: stem.reverse := by
    rw [List.reverse_append]
    rfl
  have htake : (stem ++ ascii ".cst").reverse.takeWhile (· ≠ 46) = [116, 115, 99] := by
    rw [hrev]
    rfl
  have hlen : (stem ++ ascii ".cst").length = stem.length + 4 := by
    rw [List.length_append]
    rfl
  have hdots : stem ++ ascii ".cst" ≠ ascii ".." := by
    intro heq
    have := congrArg List.length heq
    rw [hlen] at this
    have h2 : (ascii "..").length = 2 := by decide
    omega
  simp only [extension, htake]
  rw [if_neg (by rw [hlen]; simp [hdots]; omega)]
  rfl

/-- The digits in front of the extension are digits. -/
theorem mem_digits {n : ℕ} {b : UInt8} (h : b ∈ (Nat.digits 10 n ++
    List.replicate (20 - (Nat.digits 10 n).length) 0).reverse.map digitByte) :
    ∃ d < 10, b = digitByte d := by
  obtain ⟨d, hd, rfl⟩ := List.mem_map.1 h
  rw [List.mem_reverse, List.mem_append] at hd
  refine ⟨d, ?_, rfl⟩
  rcases hd with hd | hd
  · exact Nat.digits_lt_base (by decide) hd
  · rw [List.eq_of_mem_replicate hd]
    decide

theorem digitByte_toNat {d : ℕ} (h : d < 10) : (digitByte d).toNat = 48 + d := by
  rw [digitByte, UInt8.toNat_ofNat']
  omega

/-- The names of the engine are made of letters, digits, the hyphen and the dot. -/
theorem notMem_segmentFilename {c : UInt8} (hc : c.toNat < 45 ∨ c.toNat = 47 ∨ c.toNat = 92)
    (n : ℕ) :
    c ∉ segmentFilename n := by
  intro hmem
  rw [segmentFilename, List.mem_append, List.mem_append] at hmem
  rcases hmem with hmem | hmem | hmem
  · have : ∀ x ∈ ascii "segment-", 45 ≤ x.toNat ∧ x.toNat ≠ 47 ∧ x.toNat ≠ 92 := by decide +kernel
    have := this c hmem
    omega
  · obtain ⟨d, hd, rfl⟩ := mem_digits hmem
    rw [digitByte_toNat hd] at hc
    omega
  · have : ∀ x ∈ ascii ".cst", 45 ≤ x.toNat ∧ x.toNat ≠ 47 ∧ x.toNat ≠ 92 := by decide +kernel
    have := this c hmem
    omega

/-- **Every segment name passes the test for segment names.** -/
theorem validSegmentFilename_segmentFilename (n : ℕ) :
    validSegmentFilename (segmentFilename n) = true := by
  have hext : extension (segmentFilename n) = ascii ".cst" := by
    rw [segmentFilename, ← List.append_assoc]
    exact extension_append_cst (by simp [ascii])
  simp only [validSegmentFilename, decide_eq_true_eq]
  refine ⟨by simp [segmentFilename, ascii], notMem_segmentFilename ?_ n,
    notMem_segmentFilename ?_ n, hext⟩
  · decide
  · decide

/-- **Distinct numbers give distinct names.** -/
theorem segmentFilename_injective : Function.Injective segmentFilename := by
  intro a b h
  simp only [segmentFilename, List.append_cancel_left_eq, List.append_cancel_right_eq] at h
  have hvalue : ∀ n : ℕ, Nat.ofDigits 10 (((Nat.digits 10 n ++
      List.replicate (20 - (Nat.digits 10 n).length) 0).reverse.map digitByte).reverse.map
        fun c : UInt8 ↦ c.toNat - 48) = n := by
    intro n
    have hmap : ((Nat.digits 10 n ++ List.replicate (20 - (Nat.digits 10 n).length) 0).reverse.map
        digitByte).reverse.map (fun c : UInt8 ↦ c.toNat - 48) =
        Nat.digits 10 n ++ List.replicate (20 - (Nat.digits 10 n).length) 0 := by
      rw [← List.map_reverse, List.reverse_reverse, List.map_map]
      conv_rhs => rw [← List.map_id (Nat.digits 10 n ++ _)]
      refine List.map_congr_left fun d hd ↦ ?_
      have hd10 : d < 10 := by
        rcases List.mem_append.1 hd with hd | hd
        · exact Nat.digits_lt_base (by decide) hd
        · rw [List.eq_of_mem_replicate hd]
          decide
      simp [digitByte_toNat hd10]
    rw [hmap, Nat.ofDigits_append, Nat.ofDigits_digits, Nat.ofDigits_replicate_zero, Nat.mul_zero,
      Nat.add_zero]
  rw [← hvalue a, ← hvalue b, h]

/-- The names of the engine have 32 bytes. -/
theorem length_segmentFilename {n : ℕ} (h : n < 2 ^ 64) : (segmentFilename n).length = 32 := by
  have hdigits : (Nat.digits 10 n).length ≤ 20 := by
    by_contra hlong
    have hn : n ≠ 0 := by
      rintro rfl
      simp at hlong
    have := Nat.base_pow_length_digits_le 10 n (by decide) hn
    have hpow : 10 ^ 21 ≤ 10 ^ (Nat.digits 10 n).length :=
      Nat.pow_le_pow_right (by decide) (by omega)
    omega
  simp only [segmentFilename, List.length_append, List.length_map, List.length_reverse,
    List.length_replicate]
  have h8 : (ascii "segment-").length = 8 := by decide
  have h4 : (ascii ".cst").length = 4 := by decide
  omega

/-! ### Encoding -/

structure ManifestState where
  generation : ℕ := 0
  logicalSampleCount : ℕ := 0
  segmentFiles : List Bytes := []
deriving DecidableEq

/-- "CSMF". -/
def manifestMagic : ℕ := 0x464D5343
def manifestVersion : ℕ := 1
def manifestFlags : ℕ := 0
def manifestHeaderSize : ℕ := 36
def manifestChecksumSize : ℕ := 4
def maxManifestPayloadSize : ℕ := 16 * 1024 * 1024
def maxManifestSegments : ℕ := 100000

/-- The loop of `validate_state`, with the names seen so far. -/
def validateNames : (uniqueNames : List Bytes) → List Bytes → Except Error Unit
  | _, [] => .ok ()
  | uniqueNames, filename :: filenames =>
    if validSegmentFilename filename = false ∨ filename ∈ uniqueNames then
      .error (.invalidArgument "manifest contains an invalid segment filename")
    else validateNames (filename :: uniqueNames) filenames

/-- `validate_state`: few names, each of them valid and none of them twice. -/
def validateState (state : ManifestState) : Except Error Unit :=
  if state.segmentFiles.length > maxManifestSegments then
    .error (.lengthError "manifest contains too many segments")
  else validateNames [] state.segmentFiles

/-- The loop over the names of `encode_manifest`. -/
def writeNames : List Bytes → Except Error Bytes
  | [] => .ok []
  | filename :: filenames => do
    let name ← writeString "manifest filename is too long" filename
    let rest ← writeNames filenames
    return name ++ rest

/-- The header in front of a payload. -/
def manifestHeader (state : ManifestState) (payloadSize : ℕ) : Bytes :=
  writeU32 manifestMagic ++ (writeU16 manifestVersion ++ (writeU16 manifestFlags ++
    (writeU64 state.generation ++ (writeU64 state.logicalSampleCount ++
      (writeU32 state.segmentFiles.length ++ (writeU32 payloadSize ++
        writeU32 (invert32 payloadSize)))))))

/-- `encode_manifest`: only a valid state is encoded, and the size of the names together is bounded.
-/
def encodeManifest (state : ManifestState) : Except Error Bytes := do
  validateState state
  let payload ← writeNames state.segmentFiles
  if payload.length > maxManifestPayloadSize then
    throw (.lengthError "manifest payload is too large")
  return withChecksum (manifestHeader state payload.length ++ payload)

/-- The layout of the payload. -/
def manifestPayload (state : ManifestState) : Bytes := state.segmentFiles.flatMap stringBytes

/-- The layout of a manifest. -/
def manifestBytes (state : ManifestState) : Bytes :=
  withChecksum (manifestHeader state (manifestPayload state).length ++ manifestPayload state)

/-- The states that the encoder accepts. -/
structure ManifestAccepts (state : ManifestState) : Prop where
  length_le : state.segmentFiles.length ≤ maxManifestSegments
  valid : ∀ name ∈ state.segmentFiles, validSegmentFilename name = true
  nodup : state.segmentFiles.Nodup
  payload_le : (manifestPayload state).length ≤ maxManifestPayloadSize

/-- The loop accepts valid names without repetition, and it has one error for everything else. -/
theorem validateNames_cases (seen names : List Bytes) :
    validateNames seen names = .ok () ∧ (∀ name ∈ names, validSegmentFilename name = true) ∧
        names.Nodup ∧ (∀ name ∈ names, name ∉ seen) ∨
      validateNames seen names =
          .error (.invalidArgument "manifest contains an invalid segment filename") ∧
        ¬((∀ name ∈ names, validSegmentFilename name = true) ∧ names.Nodup ∧
          ∀ name ∈ names, name ∉ seen) := by
  induction names generalizing seen with
  | nil => exact Or.inl ⟨rfl, by simp, List.nodup_nil, by simp⟩
  | cons name names ih =>
    rw [validateNames]
    by_cases hbad : validSegmentFilename name = false ∨ name ∈ seen
    · rw [if_pos hbad]
      refine Or.inr ⟨rfl, fun ⟨hvalid, _, hseen⟩ ↦ ?_⟩
      rcases hbad with hbad | hbad
      · rw [hvalid name List.mem_cons_self] at hbad
        exact Bool.noConfusion hbad
      · exact hseen name List.mem_cons_self hbad
    · rw [if_neg hbad]
      rw [not_or, Bool.not_eq_false] at hbad
      rcases ih (name :: seen) with ⟨hok, hvalid, hnd, hseen⟩ | ⟨herr, hnot⟩
      · refine Or.inl ⟨hok, List.forall_mem_cons.2 ⟨hbad.1, hvalid⟩, List.nodup_cons.2 ⟨?_, hnd⟩,
          List.forall_mem_cons.2 ⟨hbad.2, fun n hn hs ↦ hseen n hn (List.mem_cons_of_mem _ hs)⟩⟩
        exact fun hmem ↦ hseen name hmem List.mem_cons_self
      · refine Or.inr ⟨herr, fun ⟨hvalid, hnd, hseen⟩ ↦ hnot ⟨fun n hn ↦
          hvalid n (List.mem_cons_of_mem _ hn), (List.nodup_cons.1 hnd).2, fun n hn hs ↦ ?_⟩⟩
        rcases List.mem_cons.1 hs with rfl | hs
        · exact (List.nodup_cons.1 hnd).1 hn
        · exact hseen n (List.mem_cons_of_mem _ hn) hs

/-- The names are written, or one of them is too long, and then all of them together are. -/
theorem writeNames_cases (names : List Bytes) :
    writeNames names = .ok (names.flatMap stringBytes) ∨
      writeNames names = .error (.lengthError "manifest filename is too long") ∧
        2 ^ 32 ≤ (names.flatMap stringBytes).length := by
  induction names with
  | nil => exact Or.inl rfl
  | cons name names ih =>
    have hlen : (List.flatMap stringBytes (name :: names)).length =
        4 + name.length + (names.flatMap stringBytes).length := by
      rw [List.flatMap_cons, List.length_append, length_stringBytes]
    by_cases hlong : name.length > 2 ^ 32 - 1
    · refine Or.inr ⟨?_, by omega⟩
      simp only [writeNames, writeString, hlong, if_true, bind, Except.bind]
    · rcases ih with ih | ⟨ih, hrest⟩
      · refine Or.inl ?_
        simp only [writeNames, writeString, hlong, if_false, ih, bind, Except.bind, pure,
          Except.pure, List.flatMap_cons]
      · refine Or.inr ⟨?_, by omega⟩
        simp only [writeNames, writeString, hlong, if_false, ih, bind, Except.bind]

/-- **The manifest encoder's conditions.** -/
theorem encodeManifest_cases (state : ManifestState) :
    ManifestAccepts state ∧ encodeManifest state = .ok (manifestBytes state) ∨
      ¬ManifestAccepts state ∧ ∃ e : Error, e.IsRefusal ∧ encodeManifest state = .error e := by
  by_cases hmax : state.segmentFiles.length > maxManifestSegments
  · refine Or.inr ⟨fun h ↦ absurd h.length_le (not_le.2 hmax),
      .lengthError "manifest contains too many segments", trivial, ?_⟩
    rw [encodeManifest, validateState, if_pos hmax]
    rfl
  rcases validateNames_cases [] state.segmentFiles with ⟨hok, hvalid, hnd, -⟩ | ⟨herr, hnot⟩
  swap
  · refine Or.inr ⟨fun h ↦ hnot ⟨h.valid, h.nodup, by simp⟩,
      .invalidArgument "manifest contains an invalid segment filename", trivial, ?_⟩
    rw [encodeManifest, validateState, if_neg hmax, herr]
    rfl
  have hstate : validateState state = .ok () := by rw [validateState, if_neg hmax, hok]
  rcases writeNames_cases state.segmentFiles with hnames | ⟨hnames, hlong⟩
  swap
  · refine Or.inr ⟨fun h ↦ ?_, .lengthError "manifest filename is too long", trivial, ?_⟩
    · have := h.payload_le
      unfold maxManifestPayloadSize manifestPayload at this
      omega
    · rw [encodeManifest, hstate, hnames]
      rfl
  by_cases hsize : (manifestPayload state).length > maxManifestPayloadSize
  · refine Or.inr ⟨fun h ↦ absurd h.payload_le (not_le.2 hsize),
      .lengthError "manifest payload is too large", trivial, ?_⟩
    have hsize' : (state.segmentFiles.flatMap stringBytes).length > maxManifestPayloadSize := hsize
    rw [encodeManifest, hstate, hnames]
    simp only [bind, Except.bind, hsize', if_true]
    rfl
  · refine Or.inl ⟨⟨not_lt.1 hmax, hvalid, hnd, not_lt.1 hsize⟩, ?_⟩
    have hsize' : ¬(state.segmentFiles.flatMap stringBytes).length > maxManifestPayloadSize := hsize
    rw [encodeManifest, hstate, hnames]
    simp only [bind, Except.bind, hsize', if_false, pure, Except.pure]
    rfl

/-- The encoder writes the layout, of the states that it accepts. -/
theorem encodeManifest_eq_ok_iff {state : ManifestState} {bytes : Bytes} :
    encodeManifest state = .ok bytes ↔ ManifestAccepts state ∧ bytes = manifestBytes state := by
  rcases encodeManifest_cases state with ⟨hacc, hok⟩ | ⟨hnot, e, -, herr⟩
  · rw [hok, Except.ok.injEq, and_iff_right hacc, eq_comm]
  · simp [herr, hnot]

/-! ### Decoding -/

/-- Throw a `ManifestFormatError`. -/
def rejectManifest {α : Type} (what : String) : Except Error α := .error (.manifestFormatError what)

/-- The text of an exception, for `std::exception::what`. -/
def Error.what : Error → String
  | .invalidArgument what => what
  | .lengthError what => what
  | .overflowError what => what
  | .logicError what => what
  | .runtimeError what => what
  | .systemError what => what
  | .manifestFormatError what => what
  | .segmentFormatError what => what
  | .walFormatError offset error =>
    "invalid WAL record at byte " ++ toString offset ++ ": " ++ error.name

/-- The header fields. -/
structure ManifestHeader where
  magic : ℕ
  version : ℕ
  flags : ℕ
  generation : ℕ
  logicalSampleCount : ℕ
  segmentCount : ℕ
  payloadSize : ℕ
  invertedSize : ℕ

def readManifestHeader : Parser UInt8 ManifestHeader := do
  let magic ← readU32
  let version ← readU16
  let flags ← readU16
  let generation ← readU64
  let logicalSampleCount ← readU64
  let segmentCount ← readU32
  let payloadSize ← readU32
  let invertedSize ← readU32
  return ⟨magic, version, flags, generation, logicalSampleCount, segmentCount, payloadSize,
    invertedSize⟩

/-- The loop over the names of `decode_manifest`. -/
def readNames : (count : ℕ) → Parser UInt8 (List Bytes)
  | 0 => pure []
  | n + 1 => do
    let filename ← readString
    let rest ← readNames n
    return filename :: rest

/-- `decode_manifest`: the header and the size, then the checksum, and only then the names; a state
that the encoder would refuse is refused here too. -/
def decodeManifest (bytes : Bytes) : Except Error ManifestState :=
  if bytes.length < manifestHeaderSize + manifestChecksumSize then
    rejectManifest "manifest is incomplete" else
  match readManifestHeader.run bytes with
  | none => rejectManifest "manifest header is incomplete"
  | some (header, _) =>
    if header.magic ≠ manifestMagic then rejectManifest "manifest magic is invalid" else
    if header.version ≠ manifestVersion ∨ header.flags ≠ manifestFlags then
      rejectManifest "manifest version or flags are unsupported" else
    if header.segmentCount > maxManifestSegments ∨ header.payloadSize > maxManifestPayloadSize ∨
        header.invertedSize ≠ invert32 header.payloadSize then
      rejectManifest "manifest metadata is invalid" else
    if bytes.length ≠ manifestHeaderSize + header.payloadSize + manifestChecksumSize then
      rejectManifest "manifest size is inconsistent" else
    if checksumMatches bytes = false then rejectManifest "manifest checksum mismatch" else
    match (readNames header.segmentCount).run
        ((bytes.drop manifestHeaderSize).take header.payloadSize) with
    | none => rejectManifest "manifest filename is incomplete"
    | some (_, _ :: _) => rejectManifest "manifest contains trailing payload bytes"
    | some (filenames, []) =>
      let state : ManifestState := ⟨header.generation, header.logicalSampleCount, filenames⟩
      match validateState state with
      | .error e => rejectManifest e.what
      | .ok () => .ok state

/-- The names are read back. -/
theorem parses_readNames {names : List Bytes} (h : (names.flatMap stringBytes).length < 2 ^ 32) :
    Parses (readNames names.length) (names.flatMap stringBytes) names := by
  induction names with
  | nil => exact Parses.pure []
  | cons name names ih =>
    rw [List.flatMap_cons, List.length_append, length_stringBytes] at h
    rw [List.flatMap_cons]
    exact (parses_readString (by omega)).bind ((ih (by omega)).bind_nil (Parses.pure _))

@[simp] theorem length_manifestHeader (state : ManifestState) (n : ℕ) :
    (manifestHeader state n).length = manifestHeaderSize := rfl

theorem length_manifestBytes (state : ManifestState) : (manifestBytes state).length =
    manifestHeaderSize + (manifestPayload state).length + manifestChecksumSize := by
  rw [manifestBytes, length_withChecksum, List.length_append, length_manifestHeader]
  rfl

/-- **A manifest reads back as itself.** -/
theorem decodeManifest_manifestBytes {state : ManifestState} (h : ManifestAccepts state)
    (hgen : state.generation < 2 ^ 64) (hcount : state.logicalSampleCount < 2 ^ 64) :
    decodeManifest (manifestBytes state) = .ok state := by
  have hlen := length_manifestBytes state
  have hpay : (manifestPayload state).length < 2 ^ 32 := lt_of_le_of_lt h.payload_le (by decide)
  have hfiles : state.segmentFiles.length < 2 ^ 32 := lt_of_le_of_lt h.length_le (by decide)
  have hheader : Parses readManifestHeader (manifestHeader state (manifestPayload state).length)
      ⟨manifestMagic, manifestVersion, manifestFlags, state.generation, state.logicalSampleCount,
        state.segmentFiles.length, (manifestPayload state).length,
        invert32 (manifestPayload state).length⟩ := by
    refine (parses_readU32 (by decide)).bind ((parses_readU16 (by decide)).bind
      ((parses_readU16 (by decide)).bind ((parses_readU64 hgen).bind
        ((parses_readU64 hcount).bind ((parses_readU32 hfiles).bind
          ((parses_readU32 hpay).bind ?_))))))
    exact (parses_readU32 (invert32_lt hpay)).bind_nil (Parses.pure _)
  have hrun := hheader (manifestPayload state ++ writeU32 (crc32c
    (manifestHeader state (manifestPayload state).length ++ manifestPayload state)))
  rw [← List.append_assoc] at hrun
  change readManifestHeader.run (manifestBytes state) = _ at hrun
  have hsub : (manifestBytes state).length - checksumSize =
      (manifestHeader state (manifestPayload state).length ++ manifestPayload state).length := by
    rw [manifestBytes, length_withChecksum]
    rfl
  have hsum : checksumMatches (manifestBytes state) = true := by
    rw [checksumMatches, hsub, manifestBytes, withChecksum, List.drop_left, List.take_left,
      (parses_readU32 (crc32c_lt _)).run_self]
    simp
  have hslice : ((manifestBytes state).drop manifestHeaderSize).take
      (manifestPayload state).length = manifestPayload state := by
    rw [manifestBytes, withChecksum, List.append_assoc, List.drop_left' (length_manifestHeader _ _),
      List.take_left]
  have hnames : (readNames state.segmentFiles.length).run (manifestPayload state) =
      some (state.segmentFiles, []) := (parses_readNames hpay).run_self
  have hvalid : validateState state = .ok () := by
    rw [validateState, if_neg (not_lt.2 h.length_le)]
    rcases validateNames_cases [] state.segmentFiles with ⟨hok, -⟩ | ⟨-, hnot⟩
    · exact hok
    · exact absurd ⟨h.valid, h.nodup, by simp⟩ hnot
  have hmeta : ¬(state.segmentFiles.length > maxManifestSegments ∨
      (manifestPayload state).length > maxManifestPayloadSize ∨ False) := by
    rw [or_false, not_or, not_lt, not_lt]
    exact ⟨h.length_le, h.payload_le⟩
  rw [decodeManifest, if_neg (by omega), hrun]
  simp only [hsum, hlen, hslice, hnames, hvalid, ne_eq, not_true_eq_false, if_false, or_self,
    Bool.true_eq_false]
  exact if_neg hmeta

/-- A manifest that is accepted ends with its checksum. -/
theorem sealed_of_decodeManifest {bytes : Bytes} {state : ManifestState}
    (h : decodeManifest bytes = .ok state) : Sealed bytes := by
  rw [decodeManifest] at h
  split at h
  · cases h
  rename_i hlong
  split at h
  · cases h
  split at h
  · cases h
  split at h
  · cases h
  split at h
  · cases h
  split at h
  · cases h
  split at h
  · cases h
  rename_i hsum
  refine sealed_of_checksumMatches ?_ (by simpa using hsum)
  unfold manifestHeaderSize manifestChecksumSize at hlong
  unfold checksumSize
  omega

/-- The decoder throws nothing but manifest format errors. -/
theorem decodeManifest_error {bytes : Bytes} {e : Error} (h : decodeManifest bytes = .error e) :
    ∃ what, e = .manifestFormatError what := by
  have hrej : ∀ {what : String}, (rejectManifest what : Except Error ManifestState) = .error e →
      ∃ what, e = .manifestFormatError what := fun h ↦ ⟨_, (Except.error.inj h).symm⟩
  rw [decodeManifest] at h
  repeat' split at h
  all_goals first | exact hrej h | skip
  dsimp only at h
  split at h
  · exact hrej h
  · cases h

/-- **What the decoder accepts** lists valid names, and is not too large to be loaded. -/
theorem of_decodeManifest {bytes : Bytes} {state : ManifestState}
    (h : decodeManifest bytes = .ok state) :
    (∀ name ∈ state.segmentFiles, validSegmentFilename name = true) ∧
      bytes.length ≤ maxManifestPayloadSize + manifestHeaderSize + manifestChecksumSize := by
  rw [decodeManifest] at h
  split at h
  · cases h
  split at h
  · cases h
  split at h
  · cases h
  split at h
  · cases h
  split at h
  · cases h
  rename_i hmeta
  split at h
  · cases h
  rename_i hsize
  split at h
  · cases h
  split at h
  · cases h
  · cases h
  dsimp only at h
  split at h
  · cases h
  rename_i filenames _ _ hstate
  obtain rfl := Except.ok.inj h
  rw [validateState] at hstate
  split at hstate
  · cases hstate
  rcases validateNames_cases [] filenames with ⟨-, hvalid, -⟩ | ⟨herr, -⟩
  · exact ⟨hvalid, by omega⟩
  · rw [herr] at hstate
    cases hstate

end ChronoStore
