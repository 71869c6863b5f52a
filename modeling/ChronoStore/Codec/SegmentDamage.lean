import ChronoStore.Codec.Manifest
import ChronoStore.Codec.SegmentReader

/-!
# Damage to segments and manifests is fail-stop

A segment file hit inside one window of at most four bytes either fails to open, or opens with the
index it had — and then the damage lies in the blocks, where every read of a damaged block throws.
No query returns a wrong sample: it `Degrades`, that is, it has the outcome it had or throws a
segment format error, and this relation passes through every way in which the queries are put
together.

A damaged manifest never decodes.
-/

namespace ChronoStore

/-- The outcome is the same, or a segment format error. -/
def Degrades {α : Type} (r' r : Except Error α) : Prop :=
  r' = r ∨ ∃ what, r' = .error (.segmentFormatError what)

namespace Degrades

variable {α β : Type} {r' r : Except Error α}

theorem refl (r : Except Error α) : Degrades r r := Or.inl rfl

/-- A sequence degrades if its first part does and its second part does after the same result. -/
theorem bind {k' k : α → Except Error β} (hr : Degrades r' r) (hk : ∀ a, Degrades (k' a) (k a)) :
    Degrades (r' >>= k') (r >>= k) := by
  rcases hr with rfl | ⟨what, rfl⟩
  · cases r' with
    | ok a => exact hk a
    | error e => exact Or.inl rfl
  · exact Or.inr ⟨what, rfl⟩

end Degrades

section Queries

variable {read' read : ℕ → ℕ → Except Error Bytes} {series : SeriesKey}

/-- The loop of `get` degrades with its blocks. -/
theorem degrades_getFrom {entries : List SegmentIndexEntry}
    (h : ∀ e ∈ entries, Degrades (SegmentReader.readBlock read' e) (SegmentReader.readBlock read e))
    (t : Timestamp) : Degrades (SegmentReader.getFrom read' series t entries)
      (SegmentReader.getFrom read series t entries) := by
  induction entries with
  | nil => exact .refl _
  | cons entry entries ih =>
    rw [SegmentReader.getFrom, SegmentReader.getFrom]
    split
    · exact .refl _
    split
    · exact .refl _
    split
    · exact ih fun e he ↦ h e (List.mem_cons_of_mem _ he)
    · exact (h entry List.mem_cons_self).bind fun block ↦ .refl _

/-- The loop of `range` degrades with its blocks. -/
theorem degrades_rangeFrom {entries : List SegmentIndexEntry}
    (h : ∀ e ∈ entries, Degrades (SegmentReader.readBlock read' e) (SegmentReader.readBlock read e))
    (start stop : Timestamp) (result : List Sample) :
    Degrades (SegmentReader.rangeFrom read' series start stop entries result)
      (SegmentReader.rangeFrom read series start stop entries result) := by
  induction entries generalizing result with
  | nil => exact .refl _
  | cons entry entries ih =>
    have htail := ih fun e he ↦ h e (List.mem_cons_of_mem _ he)
    rw [SegmentReader.rangeFrom, SegmentReader.rangeFrom]
    split
    · exact .refl _
    split
    · exact htail result
    split
    · exact .refl _
    · exact (h entry List.mem_cons_self).bind fun block ↦ htail _

variable {reader : SegmentReader}
  (h : ∀ e ∈ reader.index,
    Degrades (SegmentReader.readBlock read' e) (SegmentReader.readBlock read e))

include h

theorem degrades_get (t : Timestamp) :
    Degrades (reader.get read' series t) (reader.get read series t) :=
  degrades_getFrom (fun e he ↦ h e ((List.dropWhile_sublist _).subset he)) t

theorem degrades_range (start stop : Timestamp) :
    Degrades (reader.range read' series start stop) (reader.range read series start stop) := by
  rw [SegmentReader.range, SegmentReader.range]
  split
  · exact .refl _
  split
  · exact .refl _
  · exact degrades_rangeFrom (fun e he ↦ h e ((List.dropWhile_sublist _).subset he)) start stop []

theorem degrades_latest : Degrades (reader.latest read' series) (reader.latest read series) := by
  rw [SegmentReader.latest, SegmentReader.latest]
  split
  · exact .refl _
  · rename_i entry hlast
    split
    · exact .refl _
    · have hmem := (List.takeWhile_sublist _).subset (List.mem_of_getLast? hlast)
      exact (h entry hmem).bind fun block ↦ .refl _

end Queries

/-- What a pairing says of its left members alone. -/
theorem forall_mem_of_forall₂ {α β : Type} {P : α → Prop} {l : List α} {r : List β}
    (h : List.Forall₂ (fun a _ ↦ P a) l r) : ∀ a ∈ l, P a := by
  induction h with
  | nil => simp
  | cons h _ ih => exact List.forall_mem_cons.2 ⟨h, ih⟩

/-! ### Reading damaged blocks -/

/-- Damage seen from a part in the middle. -/
theorem Burst.middle {p p' a a' q q' : Bytes} (h : Burst (p ++ (a ++ q)) (p' ++ (a' ++ q')))
    (hp : p.length = p'.length) (ha : a.length = a'.length) (hne : a ≠ a') : Burst a a' :=
  (h.right hp fun heq ↦ hne (List.append_inj heq ha).1).left ha hne

/-- A damaged block never passes the checks of `read_block`. -/
theorem checkBlock_of_burst {block : SegmentBlock} {bytes : Bytes}
    (hb : Burst (blockFrame block) bytes) (entry : SegmentIndexEntry) :
    ∃ what, checkBlock entry bytes = .error (.segmentFormatError what) := by
  have hsealed : Sealed (blockFrame block) := ⟨blockBody block, rfl⟩
  rw [checkBlock]
  split
  · rename_i found hfound _
    split
    · exact ⟨_, rfl⟩
    · rename_i hmatch
      rw [not_or, not_not] at hmatch
      exact absurd (sealed_of_decodeSegmentBlock hfound hmatch.1) (hb.not_sealed hsealed)
  · exact ⟨_, rfl⟩

section Damaged

variable {file damaged : Bytes} (hb : Burst file damaged)

include hb

/-- **A block in a damaged file** reads as before if its bytes are intact, and throws if not. -/
theorem readBlock_of_burst {block : SegmentBlock} (hacc : BlockAccepts block)
    {pre pre' hit post post' : Bytes} (hf : file = pre ++ (blockFrame block ++ post))
    (hd : damaged = pre' ++ (hit ++ post')) (hpre : pre.length = pre'.length)
    (hhit : (blockFrame block).length = hit.length) (hoff : pre.length ≤ 2 ^ 63 - 1) :
    hit = blockFrame block ∧ SegmentReader.readBlock (readFileRange damaged)
        (indexEntry pre.length (blockFrame block).length block) = .ok block ∨
      ∃ what, SegmentReader.readBlock (readFileRange damaged)
        (indexEntry pre.length (blockFrame block).length block) =
          .error (.segmentFormatError what) := by
  have hframe := length_blockFrame_le hacc
  have hread : readFileRange damaged pre.length (blockFrame block).length = .ok hit := by
    rw [hd, hpre, hhit]
    exact readFileRange_append _ _ _ (by omega) (by omega)
  have hblock : SegmentReader.readBlock (readFileRange damaged)
      (indexEntry pre.length (blockFrame block).length block) =
        checkBlock (indexEntry pre.length (blockFrame block).length block) hit := by
    rw [SegmentReader.readBlock]
    simp only [indexEntry, hread, bind, Except.bind, liftM, monadLift]
  rw [hblock]
  by_cases heq : hit = blockFrame block
  · refine Or.inl ⟨heq, ?_⟩
    rw [heq]
    exact checkBlock_blockFrame hacc _ _
  · rw [hf, hd] at hb
    exact Or.inr (checkBlock_of_burst (hb.middle hpre hhit (Ne.symm heq)) _)

/-- **All blocks from some point on**: each reads as before or throws, and reading all of them
throws unless their bytes are intact. -/
theorem readBlocks_of_burst {rest : List SegmentBlock} (hacc : ∀ b ∈ rest, BlockAccepts b)
    (pre pre' region : Bytes) {post post' : Bytes} (hf : file = pre ++ (blockRegion rest ++ post))
    (hd : damaged = pre' ++ (region ++ post')) (hpre : pre.length = pre'.length)
    (hregion : (blockRegion rest).length = region.length)
    (hoff : pre.length + (blockRegion rest).length ≤ 2 ^ 63 - 1) :
    List.Forall₂ (fun e b ↦ Degrades (SegmentReader.readBlock (readFileRange damaged) e) (.ok b))
        (indexOf pre.length rest) rest ∧
      (region ≠ blockRegion rest → ∃ what, (indexOf pre.length rest).mapM'
        (SegmentReader.readBlock (readFileRange damaged)) = .error (.segmentFormatError what)) := by
  induction rest generalizing pre pre' region with
  | nil =>
    have hnil : region = [] := List.length_eq_zero_iff.1 (by rw [← hregion]; rfl)
    exact ⟨.nil, fun hne ↦ absurd hnil hne⟩
  | cons block rest ih =>
    rw [blockRegion_cons, List.length_append] at hregion hoff
    rw [blockRegion_cons, List.append_assoc] at hf
    obtain ⟨hit, region', rfl, hhit⟩ : ∃ hit region', region = hit ++ region' ∧
        (blockFrame block).length = hit.length :=
      ⟨region.take (blockFrame block).length, region.drop (blockFrame block).length,
        (List.take_append_drop _ _).symm, by rw [List.length_take]; omega⟩
    rw [List.length_append] at hregion
    rw [List.append_assoc] at hd
    have hblock := readBlock_of_burst hb (hacc block List.mem_cons_self) hf hd hpre hhit (by omega)
    have htail := ih (fun b h ↦ hacc b (List.mem_cons_of_mem _ h)) (pre ++ blockFrame block)
      (pre' ++ hit) region' (by rw [hf, List.append_assoc])
      (by rw [hd, List.append_assoc]) (by rw [List.length_append, List.length_append, hpre, hhit])
      (by omega) (by rw [List.length_append]; omega)
    rw [List.length_append] at htail
    rw [indexOf, List.mapM'_cons, blockRegion_cons]
    rcases hblock with ⟨rfl, hok⟩ | ⟨what, herr⟩
    · refine ⟨.cons (Or.inl hok) htail.1, fun hne ↦ ?_⟩
      obtain ⟨what, herr⟩ := htail.2 fun heq ↦ hne (by rw [heq])
      exact ⟨what, by rw [hok, herr]; rfl⟩
    · exact ⟨.cons (Or.inr ⟨what, herr⟩) htail.1, fun _ ↦ ⟨what, by rw [herr]; rfl⟩⟩

end Damaged

/-! ### Opening a damaged file -/

/-- The constructor of a reader on a file with this content. -/
def openContent (path content : Bytes) : Except Error SegmentReader :=
  SegmentReader.open path (.ok content.length) (readFileRange content)

/-- **A damaged file that opens has its header, index and footer intact.** -/
theorem openContent_of_burst {blocks : List SegmentBlock} (hacc : SegmentAccepts blocks)
    {damaged : Bytes} (hb : Burst (segmentBytes blocks) damaged) (path : Bytes) :
    (∃ what, openContent path damaged = .error (.segmentFormatError what)) ∨
      openContent path damaged = .ok (SegmentReader.of path blocks) ∧
        ∃ region, damaged = encodeHeader (segmentEnvelope blocks) ++ (region ++
          (indexRegion blocks ++ encodeFooter (segmentEnvelope blocks))) := by
  obtain ⟨hregion, hindex, hindex', hfile⟩ := hacc.sizes
  have hsplit : ∀ (n : ℕ) (l : Bytes), n ≤ l.length → ∃ a b, l = a ++ b ∧ a.length = n :=
    fun n l hn ↦ ⟨l.take n, l.drop n, (List.take_append_drop _ _).symm, by simp [hn]⟩
  have hlen := hb.1
  obtain ⟨header, rest₁, rfl, hheader⟩ := hsplit segmentHeaderSize damaged (by omega)
  rw [List.length_append] at hlen
  obtain ⟨region, rest₂, rfl, hreg⟩ := hsplit (blockRegion blocks).length rest₁ (by omega)
  rw [List.length_append] at hlen
  obtain ⟨index, footer, rfl, hidx⟩ := hsplit (indexRegion blocks).length rest₂ (by omega)
  rw [List.length_append] at hlen
  have hfooter : footer.length = segmentFooterSize := by omega
  have hpow : maxIndexPayloadSize + segmentIndexHeaderSize + checksumSize ≤ 2 ^ 27 := by decide
  have hpow' : segmentHeaderSize ≤ 2 ^ 5 ∧ segmentFooterSize ≤ 2 ^ 5 := by decide
  set damaged := header ++ (region ++ (index ++ footer)) with hd
  have hdlen : damaged.length = (segmentBytes blocks).length := hb.1.symm
  -- the three reads of the constructor
  have hread₁ : readFileRange damaged 0 segmentHeaderSize = .ok header := by
    have := readFileRange_append [] header (region ++ (index ++ footer)) (by simp)
      (by omega)
    rwa [List.nil_append, List.length_nil, hheader, ← hd] at this
  have hread₂ : readFileRange damaged (damaged.length - segmentFooterSize) segmentFooterSize =
      .ok footer := by
    have hoff : damaged.length - segmentFooterSize = (header ++ (region ++ index)).length := by
      rw [hdlen, List.length_append, List.length_append]
      omega
    have := readFileRange_append (header ++ (region ++ index)) footer []
      (by rw [List.length_append, List.length_append]; omega) (by omega)
    rw [hoff]
    rwa [hfooter, List.append_nil, List.append_assoc, List.append_assoc, ← hd] at this
  have hread₃ : readFileRange damaged (segmentEnvelope blocks).indexOffset
      (segmentEnvelope blocks).indexSize = .ok index := by
    have hoff : (segmentEnvelope blocks).indexOffset = (header ++ region).length := by
      rw [List.length_append, hheader, hreg]
      rfl
    have := readFileRange_append (header ++ region) index footer
      (by rw [List.length_append]; omega) (by omega)
    rw [hoff, show (segmentEnvelope blocks).indexSize = index.length from hidx.symm]
    rwa [List.append_assoc, ← hd] at this
  have hsmall : ¬damaged.length <
      segmentHeaderSize + segmentFooterSize + segmentIndexHeaderSize + checksumSize := by omega
  -- an intact checksum means an intact part
  have hburst := hb
  rw [hd, segmentBytes] at hburst
  cases hdh : decodeHeader header with
  | error e =>
    obtain ⟨what, rfl⟩ := decodeHeader_formatErrorsOnly header e hdh
    refine Or.inl ⟨what, ?_⟩
    simp only [openContent, SegmentReader.open, bind, Except.bind, hsmall, if_false, hread₁, hread₂,
      liftM, monadLift, hdh]
  | ok env =>
  have hheader_eq : encodeHeader (segmentEnvelope blocks) = header := by
    by_contra hne
    exact (hburst.left (by rw [length_encodeHeader, hheader]) hne).not_sealed
      (sealed_withChecksum _) (sealed_of_decodeHeader hdh)
  have henv : env = segmentEnvelope blocks := by
    have := decodeHeader_encodeHeader hacc.envelope_fits hacc.length_ne_zero hacc.length_le
    rw [hheader_eq, hdh] at this
    exact Except.ok.inj this
  rw [henv] at hdh
  cases hdf : decodeFooter footer with
  | error e =>
    obtain ⟨what, rfl⟩ := decodeFooter_formatErrorsOnly footer e hdf
    refine Or.inl ⟨what, ?_⟩
    simp only [openContent, SegmentReader.open, bind, Except.bind, hsmall, if_false, hread₁, hread₂,
      liftM, monadLift, hdh, hdf]
  | ok env' =>
  have hfooter_eq : encodeFooter (segmentEnvelope blocks) = footer := by
    by_contra hne
    have hrear := hburst.right (by rw [length_encodeHeader, hheader])
      fun heq ↦ hne (List.append_inj (List.append_inj heq hreg.symm).2 hidx.symm).2
    have hrear' := hrear.right hreg.symm fun heq ↦ hne (List.append_inj heq hidx.symm).2
    exact (hrear'.right hidx.symm hne).not_sealed (sealed_withChecksum _)
      (sealed_of_decodeFooter hdf)
  have henv' : env' = segmentEnvelope blocks := by
    have := decodeFooter_encodeFooter hacc.envelope_fits
    rw [hfooter_eq, hdf] at this
    exact Except.ok.inj this
  rw [henv'] at hdf
  have hbounds := hacc.envelope_bounds
  rw [← hdlen] at hbounds
  cases hdi : decodeIndex index (segmentEnvelope blocks).blockCount
      (segmentEnvelope blocks).indexOffset with
  | error e =>
    obtain ⟨what, rfl⟩ := decodeIndex_formatErrorsOnly _ _ _ e hdi
    refine Or.inl ⟨what, ?_⟩
    simp only [openContent, SegmentReader.open, bind, Except.bind, hsmall, if_false, hread₁, hread₂,
      hread₃, liftM, monadLift, hdh, hdf, hdi, ne_eq, not_true_eq_false, or_self, hbounds]
  | ok entries =>
  have hindex_eq : indexRegion blocks = index := by
    by_contra hne
    have hrear := hburst.right (by rw [length_encodeHeader, hheader])
      fun heq ↦ hne (List.append_inj (List.append_inj heq hreg.symm).2 hidx.symm).1
    exact (hrear.middle hreg.symm hidx.symm hne).not_sealed (sealed_withChecksum _)
      (sealed_of_decodeIndex hdi)
  refine Or.inr ⟨?_, region, by rw [hd, hheader_eq, hindex_eq, hfooter_eq]⟩
  have hentries : entries = segmentIndex blocks := by
    have := decodeIndex_indexRegion hacc
    rw [hindex_eq, hdi] at this
    exact Except.ok.inj this
  have hcounts := sum_sampleCount_segmentIndex blocks
  rw [hentries] at hdi
  simp only [openContent, SegmentReader.open, bind, Except.bind, hsmall, if_false, hread₁, hread₂,
    hread₃, liftM, monadLift, hdh, hdf, hdi, ne_eq, not_true_eq_false, or_self, hbounds, pure,
    Except.pure, hcounts, SegmentReader.of]
  rw [hdlen]

/-- **Corruption of segments and manifests is fail-stop.** A segment file that is damaged inside one
window of at most four bytes does not open, or opens with the index it had, `blocks()` throws, and
every query has the outcome it had or throws a segment format error. A manifest damaged in this way
does not decode. -/
theorem corruption_fail_stop :
    (∀ (blocks : List SegmentBlock) (file : Bytes) (metadata : SegmentFileMetadata),
      encodeSegmentFile blocks = .ok (file, metadata) → ∀ damaged, Burst file damaged → ∀ path,
      (∃ what, openContent path damaged = .error (.segmentFormatError what)) ∨
      ∃ reader reader', openContent path file = .ok reader ∧
      openContent path damaged = .ok reader' ∧
        reader'.index = reader.index ∧
        (∃ what, reader'.blocks (readFileRange damaged) = .error (.segmentFormatError what)) ∧
        ∀ series,
          (∀ t, Degrades (reader'.get (readFileRange damaged) series t)
            (reader.get (readFileRange file) series t)) ∧
          Degrades (reader'.latest (readFileRange damaged) series)
            (reader.latest (readFileRange file) series) ∧
          ∀ start stop, Degrades (reader'.range (readFileRange damaged) series start stop)
            (reader.range (readFileRange file) series start stop)) ∧
    ∀ (state : ManifestState) (file : Bytes), encodeManifest state = .ok file →
      ∀ damaged, Burst file damaged →
        ∃ what, decodeManifest damaged = .error (.manifestFormatError what) := by
  refine ⟨fun blocks file metadata henc damaged hb path ↦ ?_, fun state file henc damaged hb ↦ ?_⟩
  · obtain ⟨hacc, rfl, -⟩ := encodeSegmentFile_eq_ok_iff.1 henc
    rcases openContent_of_burst hacc hb path with hfail | ⟨hopen, region, hd⟩
    · exact Or.inl hfail
    · have hne : region ≠ blockRegion blocks := by
        rintro rfl
        exact hb.2.1 hd.symm
      have hregion : (blockRegion blocks).length = region.length := by
        have := hb.1
        rw [hd, segmentBytes] at this
        simp only [List.length_append] at this
        omega
      have hsizes := hacc.sizes.region_le
      have hreads := readBlocks_of_burst hb hacc.blocks_accepted
        (encodeHeader (segmentEnvelope blocks)) _ _ rfl hd rfl hregion
        (by rw [length_encodeHeader]; unfold segmentHeaderSize; omega)
      rw [length_encodeHeader] at hreads
      have hdegrade : ∀ e ∈ segmentIndex blocks,
          Degrades (SegmentReader.readBlock (readFileRange damaged) e)
            (SegmentReader.readBlock (readFileRange (segmentBytes blocks)) e) := by
        have hboth := List.Forall₂.mp (S := fun e _ ↦
          Degrades (SegmentReader.readBlock (readFileRange damaged) e)
            (SegmentReader.readBlock (readFileRange (segmentBytes blocks)) e))
          (fun e b h k ↦ by rw [k.readBlock_eq]; exact h) hreads.1 (describes_segmentBytes hacc)
        exact forall_mem_of_forall₂ hboth
      refine Or.inr ⟨_, _, open_segmentBytes hacc path, hopen, rfl, hreads.2 hne, fun series ↦
        ⟨fun t ↦ degrades_get hdegrade t, degrades_latest hdegrade,
          fun start stop ↦ degrades_range hdegrade start stop⟩⟩
  · obtain ⟨-, rfl⟩ := encodeManifest_eq_ok_iff.1 henc
    cases hdec : decodeManifest damaged with
    | ok found =>
      exact absurd (sealed_of_decodeManifest hdec) (hb.not_sealed (sealed_withChecksum _))
    | error e =>
      obtain ⟨what, rfl⟩ := decodeManifest_error hdec
      exact ⟨what, rfl⟩

/-- The first byte of the last of three blocks, and a byte of a manifest with two names. -/
theorem corruption_fail_stop_storedBlocks :
    ((∃ what, openContent [] ((segmentBytes storedBlocks).set 134 7) =
        .error (.segmentFormatError what)) ∨
      ∃ reader reader', openContent [] (segmentBytes storedBlocks) = .ok reader ∧
        openContent [] ((segmentBytes storedBlocks).set 134 7) = .ok reader' ∧
        (∃ what, reader'.blocks (readFileRange ((segmentBytes storedBlocks).set 134 7)) =
          .error (.segmentFormatError what)) ∧
        Degrades (reader'.latest (readFileRange ((segmentBytes storedBlocks).set 134 7)) memSeries)
          (reader.latest (readFileRange (segmentBytes storedBlocks)) memSeries)) ∧
    ∃ what, decodeManifest ((manifestBytes ⟨2, 4,
      [segmentFilename 1, segmentFilename 2]⟩).set 40 7) =
      .error (.manifestFormatError what) := by
  obtain ⟨hsegment, hmanifest⟩ := corruption_fail_stop
  constructor
  · have henc := encodeSegmentFile_eq_ok_iff.2 ⟨segmentAccepts_storedBlocks, rfl, rfl⟩
    have hbyte : (segmentBytes storedBlocks)[134]? = some 0x43 := by decide +kernel
    refine (hsegment _ _ _ henc _ (.set_of_ne hbyte (by decide)) []).imp_right ?_
    rintro ⟨reader, reader', hopen, hopen', -, hblocks, hqueries⟩
    exact ⟨reader, reader', hopen, hopen', hblocks, (hqueries memSeries).2.1⟩
  · have hacc : ManifestAccepts ⟨2, 4, [segmentFilename 1, segmentFilename 2]⟩ :=
      ⟨by decide, by decide +kernel, by decide +kernel, by decide +kernel⟩
    have hbyte : (manifestBytes ⟨2, 4, [segmentFilename 1, segmentFilename 2]⟩)[40]? =
        some 0x73 := by
      decide +kernel
    exact hmanifest _ _ (encodeManifest_eq_ok_iff.2 ⟨hacc, rfl⟩) _ (.set_of_ne hbyte (by decide))

end ChronoStore
