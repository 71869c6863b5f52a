import ChronoStore.Tools.CommandLine

/-!
# Which series the command-line client can address

An argument of a process is a C string: it ends at its first NUL. A tag among the arguments ends its
key at the first equals sign. So there are series that no command line addresses, although the store
accepts them from a program (`addressable_iff`).

`series` prints each series as a line of fields: the measurement and the tags, as the command line
has them, with tabs between them. A script that splits the output into lines and the lines at their
tabs has the arguments that address the series, unless one of the texts holds a tab or a newline.
The same script reads the samples that are printed, whatever they are (`parse_printSample`).
-/

namespace ChronoStore.CommandLine

/-- `'\\0'`. -/
def nul : UInt8 := 0

/-- What may stand on a command line. -/
def IsArgument (text : Bytes) : Prop := nul ∉ text

instance (text : Bytes) : Decidable (IsArgument text) := inferInstanceAs (Decidable (nul ∉ text))

/-- The arguments address the series: the measurement comes first and the tags behind it. -/
def Addresses (arguments : List Bytes) (series : SeriesKey) : Prop :=
  (∀ text ∈ arguments, IsArgument text) ∧
    ∃ measurement tags, arguments = measurement :: tags ∧ makeSeries measurement tags = .ok series

/-- The texts of a series. -/
def textsOf (series : SeriesKey) : List Bytes :=
  series.measurement :: series.tags.flatMap fun tag ↦ [tag.key, tag.value]

variable {series : SeriesKey} {measurement text : Bytes} {tags : List Bytes} {tag : Tag} {b : UInt8}

/-! ### Arguments as they are read -/

/-- What is read as a tag is the text of the tag, and no equals sign stands in its key. -/
theorem parseTag_eq_ok_iff :
    parseTag text = .ok tag ↔ text = printTag tag ∧ equalsSign ∉ tag.key := by
  constructor
  · intro h
    have hkey : equalsSign ∉ text.takeWhile (· ≠ equalsSign) := fun hmem ↦ by
      simpa using List.mem_takeWhile_imp hmem
    rw [parseTag] at h
    cases hrest : text.dropWhile (· ≠ equalsSign) with
    | nil =>
      rw [hrest] at h
      cases h
    | cons sign value =>
      obtain rfl : sign = equalsSign := by
        have hhead := List.head?_dropWhile_not (· ≠ equalsSign) text
        rw [hrest] at hhead
        simpa using hhead
      have hsplit : text = text.takeWhile (· ≠ equalsSign) ++ equalsSign :: value := by
        rw [← hrest, List.takeWhile_append_dropWhile]
      rw [hrest] at h
      dsimp only at h
      split at h
      · cases h
      · rename_i hne
        rw [Tag.make, dif_neg hne] at h
        obtain rfl := Except.ok.inj h
        exact ⟨hsplit, hkey⟩
  · rintro ⟨rfl, hkey⟩
    rw [parseTag, printTag, dropWhile_append_equalsSign hkey, takeWhile_append_equalsSign hkey]
    dsimp only
    rw [if_neg tag.key_ne_nil, Tag.make_key_value]

/-- **Which arguments address a series**: its measurement, and the texts of its tags in any order.
-/
theorem makeSeries_eq_ok_iff : makeSeries measurement tags = .ok series ↔
    measurement = series.measurement ∧ tags.Perm (series.tags.map printTag) ∧
      ∀ tag ∈ series.tags, equalsSign ∉ tag.key := by
  constructor
  · intro h
    obtain ⟨parsed, hparsed, hmake⟩ := bind_eq_ok.1 h
    have hperm := SeriesKey.perm_of_make hmake
    have hall := mapM'_eq_ok_iff.1 hparsed
    have htags : tags = parsed.map printTag := by
      rw [← List.forall₂_eq_eq_eq, List.forall₂_map_right_iff]
      exact hall.imp fun _ _ h ↦ (parseTag_eq_ok_iff.1 h).1
    refine ⟨(SeriesKey.of_make hmake).1.symm, htags ▸ (hperm.map printTag).symm, fun tag htag ↦ ?_⟩
    rw [htags, List.forall₂_map_left_iff] at hall
    exact (parseTag_eq_ok_iff.1 (List.forall₂_same.1 hall tag (hperm.mem_iff.1 htag))).2
  · rintro ⟨rfl, hperm, hkeys⟩
    have hall : List.Forall₂ (fun text tag ↦ parseTag text = .ok tag) (series.tags.map printTag)
        series.tags := by
      rw [List.forall₂_map_left_iff]
      exact List.forall₂_same.2 fun tag htag ↦ parseTag_eq_ok_iff.2 ⟨rfl, hkeys tag htag⟩
    obtain ⟨parsed, hparsed, hperm'⟩ := List.perm_comp_forall₂ hperm hall
    refine bind_eq_ok.2 ⟨parsed, mapM'_eq_ok_iff.2 hparsed, ?_⟩
    rw [SeriesKey.make_perm _ hperm']
    exact series.make_measurement_tags

/-- A byte other than the equals sign is missing in a printed tag if key and value do not hold it.
-/
theorem notMem_printTag_iff (hb : b ≠ equalsSign) :
    b ∉ printTag tag ↔ b ∉ tag.key ∧ b ∉ tag.value := by
  rw [printTag, List.mem_append, List.mem_cons, not_or, not_or]
  exact and_congr_right fun _ ↦ and_iff_right hb

/-- The words of a series hold a byte other than the equals sign where its texts do. -/
theorem notMem_words_iff (hb : b ≠ equalsSign) :
    (∀ word ∈ series.measurement :: series.tags.map printTag, b ∉ word) ↔
      ∀ text ∈ textsOf series, b ∉ text := by
  have htag : ∀ tag, b ∉ printTag tag ↔ ∀ text ∈ [tag.key, tag.value], b ∉ text := fun tag ↦ by
    rw [notMem_printTag_iff hb]
    simp
  rw [textsOf, List.forall_mem_cons, List.forall_mem_cons, List.forall_mem_map,
    List.forall_mem_flatMap]
  simp only [htag]

/-- Arguments that address a series are its words. -/
theorem Addresses.perm {arguments : List Bytes} (h : Addresses arguments series) :
    arguments.Perm (series.measurement :: series.tags.map printTag) := by
  obtain ⟨-, measurement, tags, rfl, h⟩ := h
  obtain ⟨rfl, hperm, -⟩ := makeSeries_eq_ok_iff.1 h
  exact hperm.cons _

/-- **Which series can be addressed**: those without a NUL in a text and without an equals sign in a
key. -/
theorem exists_addresses_iff : (∃ arguments, Addresses arguments series) ↔
    (∀ text ∈ textsOf series, nul ∉ text) ∧ ∀ tag ∈ series.tags, equalsSign ∉ tag.key := by
  have hnul : nul ≠ equalsSign := by decide
  rw [← notMem_words_iff hnul]
  constructor
  · rintro ⟨arguments, h⟩
    refine ⟨fun word hword ↦ h.1 word (h.perm.mem_iff.2 hword), ?_⟩
    obtain ⟨-, measurement, tags, -, h⟩ := h
    exact (makeSeries_eq_ok_iff.1 h).2.2
  · rintro ⟨hall, hkeys⟩
    exact ⟨_, hall, _, _, rfl, makeSeries_eq_ok_iff.2 ⟨rfl, .refl _, hkeys⟩⟩

/-! ### The output of `series` -/

/-- The fields of the lines of a text, as a script splits them. -/
def fieldsOf (text : Bytes) : List (List Bytes) :=
  (text.splitOn newline).dropLast.map (·.splitOn tab)

/-- The pieces of a text hold no separator, and nothing that the text does not hold. -/
theorem of_mem_splitOn {word : Bytes} (h : word ∈ text.splitOn b) : b ∉ word ∧ word ⊆ text := by
  induction text generalizing word with
  | nil =>
    obtain rfl : word = [] := by simpa using h
    exact ⟨List.not_mem_nil, List.nil_subset _⟩
  | cons c text ih =>
    rw [List.splitOn_cons_eq_if_modifyHead] at h
    split at h
    · rcases List.mem_cons.1 h with rfl | h
      · exact ⟨List.not_mem_nil, List.nil_subset _⟩
      · exact ⟨(ih h).1, List.Subset.trans (ih h).2 (List.subset_cons_self _ _)⟩
    · rename_i hne
      obtain ⟨first, rest, hsplit⟩ := List.exists_cons_of_ne_nil (List.splitOn_ne_nil b text)
      rw [hsplit, List.modifyHead_cons] at h
      rcases List.mem_cons.1 h with rfl | h
      · obtain ⟨hb, hsub⟩ := ih (hsplit ▸ List.mem_cons_self)
        exact ⟨List.not_mem_cons_of_ne_of_not_mem (fun heq ↦ hne (by simp [heq])) hb,
          List.cons_subset_cons c hsub⟩
      · obtain ⟨hb, hsub⟩ := ih (hsplit ▸ List.mem_cons_of_mem _ h)
        exact ⟨hb, List.Subset.trans hsub (List.subset_cons_self _ _)⟩

/-- No field of a line holds a tab or a newline. -/
theorem notMem_of_mem_fieldsOf {fields : List Bytes} (h : fields ∈ fieldsOf text) {word : Bytes}
    (hword : word ∈ fields) : tab ∉ word ∧ newline ∉ word := by
  obtain ⟨row, hrow, rfl⟩ := List.mem_map.1 h
  obtain ⟨htab, hsub⟩ := of_mem_splitOn hword
  exact ⟨htab, fun hmem ↦ (of_mem_splitOn (List.mem_of_mem_dropLast hrow)).1 (hsub hmem)⟩

/-- Lines are read as they were printed. -/
theorem splitOn_flatMap_line {texts : List Bytes} (h : ∀ text ∈ texts, newline ∉ text) :
    (texts.flatMap line).splitOn newline = texts ++ [[]] := by
  induction texts with
  | nil => rfl
  | cons text texts ih =>
    obtain ⟨htext, htexts⟩ := List.forall_mem_cons.1 h
    rw [List.flatMap_cons, line, List.append_assoc, List.singleton_append,
      List.splitOn_append_cons_self_of_not_mem htext, ih htexts, List.cons_append]

/-- Fields are read as they were printed. -/
theorem splitOn_append_flatMap_tab {first : Bytes} {words : List Bytes}
    (h : ∀ word ∈ first :: words, tab ∉ word) :
    (first ++ words.flatMap fun word ↦ tab :: word).splitOn tab = first :: words := by
  induction words generalizing first with
  | nil =>
    rw [List.flatMap_nil, List.append_nil]
    exact List.splitOn_eq_singleton (h first List.mem_cons_self)
  | cons word words ih =>
    obtain ⟨hfirst, hwords⟩ := List.forall_mem_cons.1 h
    rw [List.flatMap_cons, List.cons_append, List.splitOn_append_cons_self_of_not_mem hfirst,
      ih hwords]

/-- **The fields of printed lines**, if none of them holds a tab or a newline. -/
theorem fieldsOf_lines {rows : List (Bytes × List Bytes)}
    (h : ∀ row ∈ rows, ∀ word ∈ row.1 :: row.2, tab ∉ word ∧ newline ∉ word) :
    fieldsOf (rows.flatMap fun row ↦ line (row.1 ++ row.2.flatMap fun word ↦ tab :: word)) =
      rows.map fun row ↦ row.1 :: row.2 := by
  have hrows : (rows.flatMap fun row ↦ line (row.1 ++ row.2.flatMap fun word ↦ tab :: word)) =
      (rows.map fun row ↦ row.1 ++ row.2.flatMap fun word ↦ tab :: word).flatMap line := by
    rw [List.flatMap_map]
  have hnewline : ∀ text ∈ rows.map fun row ↦ row.1 ++ row.2.flatMap fun word ↦ tab :: word,
      newline ∉ text := by
    rw [List.forall_mem_map]
    intro row hrow
    obtain ⟨hfirst, hrest⟩ := List.forall_mem_cons.1 (h row hrow)
    rw [List.mem_append, not_or, List.mem_flatMap]
    refine ⟨hfirst.2, ?_⟩
    rintro ⟨word, hword, hmem⟩
    exact (hrest word hword).2 ((List.mem_cons.1 hmem).resolve_left (by decide))
  rw [hrows, fieldsOf, splitOn_flatMap_line hnewline, List.dropLast_concat, List.map_map]
  exact List.map_congr_left fun row hrow ↦
    splitOn_append_flatMap_tab fun word hword ↦ (h row hrow word hword).1

/-- The fields of the lines that `run_series` prints. -/
theorem fieldsOf_printSeries {names : List SeriesKey}
    (h : ∀ series ∈ names, ∀ text ∈ textsOf series, tab ∉ text ∧ newline ∉ text) :
    fieldsOf (names.flatMap printSeries) =
      names.map fun series ↦ series.measurement :: series.tags.map printTag := by
  have hrows := @fieldsOf_lines (names.map fun series ↦ (series.measurement,
    series.tags.map printTag))
    (by
      rw [List.forall_mem_map]
      intro series hseries word hword
      exact ⟨(notMem_words_iff (by decide)).2 (fun text htext ↦
        (h series hseries text htext).1) word hword,
        (notMem_words_iff (by decide)).2
          (fun text htext ↦ (h series hseries text htext).2) word hword⟩)
  simp only [List.flatMap_map, List.map_map] at hrows
  exact hrows

/-- **Which series the client can address**: those without a NUL in a text and without an equals
sign in a key. And whatever series are printed, a script has the arguments that address each of them
exactly when each can be addressed and none of their texts holds a tab or a newline. -/
theorem addressable_iff :
    (∀ series, (∃ arguments, Addresses arguments series) ↔
      (∀ text ∈ textsOf series, nul ∉ text) ∧ ∀ tag ∈ series.tags, equalsSign ∉ tag.key) ∧
    ∀ names, List.Forall₂ Addresses (fieldsOf (answer (.names names)).out) names ↔
      ∀ series ∈ names, (∃ arguments, Addresses arguments series) ∧
        ∀ text ∈ textsOf series, tab ∉ text ∧ newline ∉ text := by
  refine ⟨fun series ↦ exists_addresses_iff, fun names ↦ ⟨fun h series hseries ↦ ?_, fun h ↦ ?_⟩⟩
  · obtain ⟨hlength, hget⟩ := List.forall₂_iff_get.1 h
    obtain ⟨⟨i, hi⟩, rfl⟩ := List.mem_iff_get.1 hseries
    have haddresses := hget i (hlength ▸ hi) hi
    refine ⟨⟨_, haddresses⟩, fun text htext ↦ ?_⟩
    -- the fields are the words of the series
    have hwords : ∀ word ∈ (names.get ⟨i, hi⟩).measurement :: (names.get ⟨i, hi⟩).tags.map printTag,
        tab ∉ word ∧ newline ∉ word := fun word hword ↦
      notMem_of_mem_fieldsOf (List.get_mem _ _) (haddresses.perm.mem_iff.2 hword)
    exact ⟨(notMem_words_iff (by decide)).1 (fun word hword ↦ (hwords word hword).1) text htext,
      (notMem_words_iff (by decide)).1 (fun word hword ↦ (hwords word hword).2) text htext⟩
  · have hfields := fieldsOf_printSeries fun series hseries ↦ (h series hseries).2
    rw [answer, hfields, List.forall₂_map_left_iff]
    refine List.forall₂_same.2 fun series hseries ↦ ?_
    obtain ⟨hnul, hkeys⟩ := exists_addresses_iff.1 (h series hseries).1
    exact ⟨(notMem_words_iff (by decide)).2 hnul, _, _, rfl,
      makeSeries_eq_ok_iff.2 ⟨rfl, .refl _, hkeys⟩⟩

/-! ### The output of `range` -/

/-- A printed number is one field. -/
theorem notMem_of_graphic (h : Graphic text) : tab ∉ text ∧ newline ∉ text :=
  ⟨fun hmem ↦ absurd (h _ hmem) (by decide), fun hmem ↦ absurd (h _ hmem) (by decide)⟩

/-- A printed timestamp is read back. -/
theorem parseTimestamp_printInt (t : Timestamp) :
    parseTimestamp (printInt t.nanosecondsSinceEpoch.toInt) = .ok t := by
  rw [parseTimestamp, fromCharsInt64_printInt]

/-- A printed value is read back, bit for bit. -/
theorem parseValue_printDouble (v : Value) : parseValue (printDouble v.bits) = .ok v.bits := by
  rw [parseValue, fromCharsDouble_printDouble]

/-- **Printed samples are read back.** Whatever samples are printed, a script has two fields for
each of them, which `parse_timestamp` and `parse_value` read as its timestamp and its value, bit for
bit. -/
theorem parse_printSample (found : List Sample) : List.Forall₂ (fun fields (sample : Sample) ↦
      ∃ timestamp value, fields = [timestamp, value] ∧
        parseTimestamp timestamp = .ok sample.timestamp ∧
        parseValue value = .ok sample.value.bits)
    (fieldsOf (found.flatMap printSample)) found := by
  let row : Sample → Bytes × List Bytes := fun sample ↦
    (printInt sample.timestamp.nanosecondsSinceEpoch.toInt, [printDouble sample.value.bits])
  have hfields : fieldsOf (found.flatMap printSample) = found.map fun sample ↦
      [(printInt sample.timestamp.nanosecondsSinceEpoch.toInt), printDouble sample.value.bits] := by
    have hrows := @fieldsOf_lines (found.map row) (by
      rw [List.forall_mem_map]
      intro sample _ word hword
      rcases List.mem_pair.1 hword with rfl | rfl
      · exact notMem_of_graphic (.printInt _)
      · exact notMem_of_graphic (.printDouble _))
    simp only [row, List.flatMap_map, List.map_map, List.flatMap_cons, List.flatMap_nil,
      List.append_nil] at hrows
    exact hrows
  rw [hfields, List.forall₂_map_left_iff]
  exact List.forall₂_same.2 fun sample _ ↦
    ⟨_, _, rfl, parseTimestamp_printInt _, parseValue_printDouble _⟩

/-- A printed line can be put again. -/
theorem read_put_printed {version program directory : Bytes}
    (h : makeSeries measurement tags = .ok series)
    (sample : Sample) :
    read version (program :: ascii "put" :: directory :: measurement ::
      printInt sample.timestamp.nanosecondsSinceEpoch.toInt ::
        printDouble sample.value.bits :: tags) =
        .inr (directory, .ok (.put series sample)) := by
  rw [read, if_neg (by decide), if_neg (by decide), if_pos rfl, readPut, h, parseTimestamp_printInt,
    parseValue_printDouble]
  show Sum.inr (directory, Sample.make sample.timestamp sample.value.bits >>= fun x ↦ _) = _
  rw [Sample.make_timestamp_bits]
  rfl

end ChronoStore.CommandLine
