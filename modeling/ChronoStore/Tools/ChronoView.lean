import ChronoStore.Foundation.Trimming
import ChronoStore.Protocol.Compaction
import ChronoStore.Tools.TagText

/-!
# Selecting a series in ChronoView

The inspector keeps the series that its queries and writes address as text: a field with the
measurement and a field with the tags, which a user may edit. Selecting a series from the list
writes both fields (`selectSeries`), and every operation reads them back (`currentSeries`). The tags
are joined by commas as `key=value` and split again at the commas, with the blanks around keys and
values trimmed away.

What is read back is the series that was selected exactly when no tag contains a character that this
text cannot carry (`selectSeries_addresses`). The store accepts any bytes in keys and values, so
there are series that cannot be addressed by selecting them: the tag `a` with the value `1,b=2` is
read back as two tags (`selectSeries_commaSeries`).
-/

namespace ChronoStore.ChronoView

open FaultyDisk Trimming WriteHistory

def measurementCapacity : ℕ := 256
def tagsCapacity : ℕ := 1024

/-! ### Text fields -/

/-- A character array of a given size that holds a text and the NUL behind it. -/
structure TextField (size : ℕ) where
  chars : Bytes
  length_eq : chars.length = size
  terminated : 0 ∈ chars

/-- `set_text`: the text has to leave room for a NUL; one that it holds itself is copied along. -/
def setText {size : ℕ} (source : Bytes) : Except Error (TextField size) :=
  if h : source.length ≥ size then
    .error (.lengthError "ChronoView text field exceeds its supported size")
  else .ok {
    chars := source ++ List.replicate (size - source.length) 0
    length_eq := by
      rw [List.length_append, List.length_replicate]
      omega
    terminated := List.mem_append_right _ (List.mem_replicate.2 ⟨by omega, rfl⟩) }

/-- The text of a field, as it is read through `data()`. -/
def TextField.text {size : ℕ} (field : TextField size) : Bytes := field.chars.takeWhile (· ≠ 0)

/-- A text without NUL that fits is read back. -/
theorem exists_setText {size : ℕ} {source : Bytes} (hfit : source.length < size)
    (hnul : 0 ∉ source) :
    ∃ field : TextField size, setText source = .ok field ∧ field.text = source := by
  refine ⟨_, dif_neg (not_le.2 hfit), ?_⟩
  obtain ⟨n, hn⟩ : ∃ n, size - source.length = n + 1 := ⟨size - source.length - 1, by omega⟩
  show (source ++ List.replicate (size - source.length) 0).takeWhile (· ≠ 0) = source
  rw [hn, List.replicate_succ, List.takeWhile_append_of_pos]
  · simp
  · intro b hb
    simpa using fun h : b = 0 ↦ hnul (h ▸ hb)

/-! ### Tags as text -/

/-- `','`. -/
def comma : UInt8 := 0x2C

/-- One of `" \\t\\r\\n"`. -/
def isBlank (b : UInt8) : Bool := b = 0x20 || b = 0x09 || b = 0x0D || b = 0x0A

/-- `trim`: blanks are dropped at both ends, and only there. -/
def trim (text : Bytes) : Bytes := (text.dropWhile isBlank).rdropWhile isBlank

/-- The body of the loop of `parse_tags`, for the text between two commas. -/
def parseItem (text : Bytes) : Except Error Tag :=
  let item := trim text
  match item.dropWhile (· ≠ equalsSign) with
  | [] => .error (.invalidArgument "tags must use comma-separated key=value pairs")
  | _ :: value =>
    let key := item.takeWhile (· ≠ equalsSign)
    if key = [] then .error (.invalidArgument "tags must use comma-separated key=value pairs") else
    if trim key = [] then .error (.invalidArgument "tag keys cannot be empty") else
    Tag.make (trim key) (trim value)

/-- The loop of `parse_tags`, over what is left of the text. -/
def parseItems : (fuel : ℕ) → (rest : Bytes) → Except Error (List Tag)
  | 0, _ => .ok []
  | fuel + 1, rest => do
    let tag ← parseItem (rest.takeWhile (· ≠ comma))
    match rest.dropWhile (· ≠ comma) with
    | [] => return [tag]
    | _ :: rest => do
      let tags ← parseItems fuel rest
      return tag :: tags

/-- `parse_tags`: the text is cut at its commas first and then at its equals signs, so a key or a
value with a comma in it does not come back. -/
def parseTags (encoded : Bytes) : Except Error (List Tag) :=
  let encoded := trim encoded
  if encoded = [] then .ok [] else parseItems (encoded.length + 1) encoded

/-- A tag as text. -/
def encodeTag (tag : Tag) : Bytes := tag.key ++ equalsSign :: tag.value

/-- `encode_tags`: a comma stands in front of every tag but the first. -/
def encodeTags : List Tag → Bytes
  | [] => []
  | tag :: tags => encodeTag tag ++ tags.flatMap fun tag ↦ comma :: encodeTag tag

/-! ### Reading tags back -/

/-- There is no comma in the text, and no blank at either end. -/
structure Clean (text : Bytes) : Prop where
  comma_notMem : comma ∉ text
  head : ∀ b ∈ text.head?, ¬isBlank b
  getLast : ∀ b ∈ text.getLast?, ¬isBlank b

theorem Clean.trim_eq {text : Bytes} (h : Clean text) : trim text = text :=
  trimBy_eq_self_iff.2 ⟨h.head, h.getLast⟩

/-- A text that is its own trimmed text is clean if there is no comma in it. -/
theorem clean_of_trim_eq {text : Bytes} (hcomma : comma ∉ text) (h : trim text = text) :
    Clean text :=
  ⟨hcomma, (trimBy_eq_self_iff.1 h).1, (trimBy_eq_self_iff.1 h).2⟩

/-- A tag that the text can carry. -/
structure Plain (tag : Tag) : Prop where
  key : Clean tag.key
  value : Clean tag.value
  equalsSign_notMem : equalsSign ∉ tag.key

/-- The loop over the commas visits the pieces between them. -/
theorem parseItems_eq {fuel : ℕ} {rest : Bytes} (hfuel : rest.length < fuel) :
    parseItems fuel rest = (rest.splitOn comma).mapM' parseItem := by
  induction fuel generalizing rest with
  | zero => omega
  | succ fuel ih =>
    have hsplit := List.takeWhile_append_dropWhile (p := (· ≠ comma)) (l := rest)
    have hfree : comma ∉ rest.takeWhile (· ≠ comma) := fun h ↦ by
      simpa using List.mem_takeWhile_imp h
    rw [parseItems]
    cases hrest : rest.dropWhile (· ≠ comma) with
    | nil =>
      rw [hrest, List.append_nil] at hsplit
      rw [hsplit] at hfree ⊢
      rw [List.splitOn_eq_singleton hfree]
      rfl
    | cons b later =>
      have hb : b = comma := by
        have hstop := List.head?_dropWhile_not (· ≠ comma) rest
        rw [hrest, List.head?_cons] at hstop
        simpa using hstop
      rw [hrest, hb] at hsplit
      have hlen := congrArg List.length hsplit
      rw [List.length_append, List.length_cons] at hlen
      conv_rhs => rw [← hsplit, List.splitOn_append_cons_self_of_not_mem hfree, List.mapM'_cons]
      show (parseItem _ >>= fun tag ↦ parseItems fuel later >>= fun tags ↦ pure (tag :: tags)) = _
      rw [ih (by omega)]

/-- Only the trimmed text matters. -/
theorem parseItem_congr {x y : Bytes} (h : trim x = trim y) : parseItem x = parseItem y := by
  rw [parseItem, parseItem, h]

/-- **What `parse_tags` does**: it parses the pieces between the commas. -/
theorem parseTags_eq {encoded : Bytes} (h : trim encoded ≠ []) :
    parseTags encoded = (encoded.splitOn comma).mapM' parseItem := by
  have hmap : ∀ pieces pieces' : List Bytes, pieces.map trim = pieces'.map trim →
      pieces.mapM' parseItem = pieces'.mapM' parseItem := by
    intro pieces
    induction pieces with
    | nil =>
      intro pieces' heq
      rw [List.map_eq_nil_iff.1 heq.symm]
    | cons x pieces ih =>
      intro pieces' heq
      obtain ⟨y, later, rfl, hy, hlater⟩ := List.map_eq_cons_iff.1 heq.symm
      rw [List.mapM'_cons, List.mapM'_cons, parseItem_congr hy.symm, ih _ hlater.symm]
  rw [parseTags, if_neg h, parseItems_eq (Nat.lt_succ_self _)]
  exact hmap _ _ (map_trimBy_splitOn (by decide) encoded)

/-! ### One tag -/

/-- The first equals sign separates the key from the value, and both are trimmed. -/
theorem parseItem_append {key : Bytes} (h : equalsSign ∉ key) (value : Bytes) :
    parseItem (key ++ equalsSign :: value) =
      if key.dropWhile isBlank = [] then
        .error (.invalidArgument "tags must use comma-separated key=value pairs")
      else if trim key = [] then .error (.invalidArgument "tag keys cannot be empty")
      else Tag.make (trim key) (trim value) := by
  have hkey : equalsSign ∉ key.dropWhile isBlank :=
    fun hmem ↦ h ((List.dropWhile_suffix _).subset hmem)
  have hitem : trim (key ++ equalsSign :: value) =
      key.dropWhile isBlank ++ equalsSign :: value.rdropWhile isBlank :=
    trimBy_append_cons (by decide) _ _
  have hkeyTrim : trim (key.dropWhile isBlank) = trim key := by
    conv_rhs => rw [← List.takeWhile_append_dropWhile (p := isBlank) (l := key)]
    exact (trimBy_append_left (fun b hb ↦ List.mem_takeWhile_imp hb) _).symm
  have hvalueTrim : trim (value.rdropWhile isBlank) = trim value := by
    conv_rhs => rw [← List.rdropWhile_append_rtakeWhile (p := isBlank) (l := value)]
    exact (trimBy_append_right (fun b hb ↦ List.mem_rtakeWhile_imp hb) _).symm
  rw [parseItem, hitem, dropWhile_append_equalsSign hkey, takeWhile_append_equalsSign hkey]
  simp only [hkeyTrim, hvalueTrim]

/-- What a piece that is accepted becomes. -/
theorem of_parseItem_append {key value : Bytes} {tag : Tag} (h : equalsSign ∉ key)
    (hparse : parseItem (key ++ equalsSign :: value) = .ok tag) :
    tag.key = trim key ∧ tag.value = trim value := by
  rw [parseItem_append h] at hparse
  split at hparse
  · cases hparse
  · split at hparse
    · cases hparse
    · rename_i hne
      rw [Tag.make, dif_neg hne] at hparse
      obtain rfl := Except.ok.inj hparse
      exact ⟨rfl, rfl⟩

/-- A plain tag is read back. -/
theorem parseItem_encodeTag {tag : Tag} (h : Plain tag) : parseItem (encodeTag tag) = .ok tag := by
  have hdrop : tag.key.dropWhile isBlank ≠ [] := by
    intro hnil
    refine tag.key_ne_nil (h.key.trim_eq.symm.trans ?_)
    rw [trim, hnil, List.rdropWhile_nil]
  rw [encodeTag, parseItem_append h.equalsSign_notMem, if_neg hdrop, h.key.trim_eq, h.value.trim_eq,
    if_neg tag.key_ne_nil, Tag.make_key_value]

/-- An equals sign in the key makes the key that is read back shorter. -/
theorem length_key_lt_of_parseItem {tag tag' : Tag} (h : equalsSign ∈ tag.key)
    (hparse : parseItem (encodeTag tag) = .ok tag') : tag'.key.length < tag.key.length := by
  obtain ⟨front, back, hkey, hfront⟩ := List.eq_append_cons_of_mem h
  rw [encodeTag, hkey, List.append_assoc, List.cons_append] at hparse
  have hle := length_trimBy_le isBlank front
  rw [(of_parseItem_append hfront hparse).1, hkey, List.length_append, List.length_cons]
  exact Nat.lt_of_le_of_lt hle (by omega)

/-- Parsing does not make a key longer. -/
theorem length_key_le_of_parseItem {tag tag' : Tag}
    (hparse : parseItem (encodeTag tag) = .ok tag') :
    tag'.key.length ≤ tag.key.length := by
  by_cases h : equalsSign ∈ tag.key
  · exact (length_key_lt_of_parseItem h hparse).le
  · rw [(of_parseItem_append h hparse).1]
    exact length_trimBy_le _ _

/-- No key is longer than the one that was written, so a key of the same length is the same key. -/
theorem key_of_parseItem {tag tag' : Tag} (hparse : parseItem (encodeTag tag) = .ok tag')
    (hlen : tag'.key.length = tag.key.length) :
    equalsSign ∉ tag.key ∧ trim tag.key = tag.key ∧ tag'.value = trim tag.value := by
  have h : equalsSign ∉ tag.key := fun h ↦ (length_key_lt_of_parseItem h hparse).ne hlen
  obtain ⟨hkey, hvalue⟩ := of_parseItem_append h hparse
  rw [hkey] at hlen
  exact ⟨h, trimBy_eq_self_of_length hlen, hvalue⟩

/-! ### All tags -/

/-- A comma stands between two tags. -/
theorem encodeTags_cons_cons (tag tag' : Tag) (tags : List Tag) :
    encodeTags (tag :: tag' :: tags) = encodeTag tag ++ comma :: encodeTags (tag' :: tags) := by
  simp [encodeTags]

/-- There is a comma between two tags, besides those in the tags. -/
theorem count_comma_encodeTags (tag : Tag) (tags : List Tag) :
    (encodeTags (tag :: tags)).count comma =
      tags.length + ((tag :: tags).map fun tag ↦ (encodeTag tag).count comma).sum := by
  induction tags generalizing tag with
  | nil => simp [encodeTags]
  | cons tag' tags ih =>
    rw [encodeTags_cons_cons, List.count_append, List.count_cons_self, ih, List.length_cons,
      List.map_cons (l := tag' :: tags), List.sum_cons]
    omega

/-- Without commas in the tags, the pieces are the tags. -/
theorem splitOn_encodeTags {tag : Tag} {tags : List Tag}
    (h : ∀ t ∈ tag :: tags, comma ∉ encodeTag t) :
    (encodeTags (tag :: tags)).splitOn comma = (tag :: tags).map encodeTag := by
  induction tags generalizing tag with
  | nil =>
    rw [encodeTags, List.flatMap_nil, List.append_nil]
    exact List.splitOn_eq_singleton (h tag List.mem_cons_self)
  | cons tag' tags ih =>
    rw [encodeTags_cons_cons, List.splitOn_append_cons_self_of_not_mem (h tag List.mem_cons_self),
      ih fun t ht ↦ h t (List.mem_cons_of_mem _ ht)]
    rfl

/-- The text of tags is not blank. -/
theorem trim_encodeTags_ne_nil (tag : Tag) (tags : List Tag) :
    trim (encodeTags (tag :: tags)) ≠ [] := by
  intro hnil
  have hcount : (encodeTags (tag :: tags)).count equalsSign = 0 := by
    rw [← count_trimBy (p := isBlank) (by decide)]
    exact congrArg (List.count equalsSign) hnil
  exact List.count_eq_zero.1 hcount (by simp [encodeTags, encodeTag])

/-- Plain tags are read back. -/
theorem parseTags_encodeTags {tags : List Tag} (h : ∀ tag ∈ tags, Plain tag) :
    parseTags (encodeTags tags) = .ok tags := by
  cases tags with
  | nil => rfl
  | cons tag tags =>
    have hcomma : ∀ t ∈ tag :: tags, comma ∉ encodeTag t := by
      intro t ht hmem
      obtain hmem | hmem := List.mem_append.1 hmem
      · exact (h t ht).key.comma_notMem hmem
      · exact (h t ht).value.comma_notMem (List.mem_of_ne_of_mem (by decide) hmem)
    rw [parseTags_eq (trim_encodeTags_ne_nil tag tags), splitOn_encodeTags hcomma, mapM'_eq_ok_iff,
      List.forall₂_map_left_iff, List.forall₂_same]
    exact fun t ht ↦ parseItem_encodeTag (h t ht)

/-- Where nothing grows and the sums agree, nothing shrinks. -/
theorem forall₂_eq_of_sum_eq {α : Type} {R : α → α → Prop} {f : α → ℕ} (hle : ∀ a b, R a b →
    f b ≤ f a)
    {l l' : List α} (h : List.Forall₂ R l l') (hsum : (l.map f).sum = (l'.map f).sum) :
    List.Forall₂ (fun a b ↦ R a b ∧ f b = f a) l l' := by
  have hsums : ∀ {l l' : List α}, List.Forall₂ R l l' → (l'.map f).sum ≤ (l.map f).sum := by
    intro l l' h
    induction h with
    | nil => exact le_rfl
    | cons hab _ ih => exact Nat.add_le_add (hle _ _ hab) ih
  induction h with
  | nil => exact .nil
  | cons hab h ih =>
    have hhead := hle _ _ hab
    have htail := hsums h
    rw [List.map_cons, List.map_cons, List.sum_cons, List.sum_cons] at hsum
    exact .cons ⟨hab, by omega⟩ (ih (by omega))

/-- Tags that are read back in any order are plain. -/
theorem plain_of_parseTags {tags tags' : List Tag} (h : parseTags (encodeTags tags) = .ok tags')
    (hperm : tags'.Perm tags) : ∀ tag ∈ tags, Plain tag := by
  cases tags with
  | nil => simp
  | cons tag tags =>
    rw [parseTags_eq (trim_encodeTags_ne_nil tag tags), mapM'_eq_ok_iff] at h
    -- There are as many pieces as tags, so no comma stands in a tag.
    have hsum : ((tag :: tags).map fun tag ↦ (encodeTag tag).count comma).sum = 0 := by
      have hlen := h.length_eq.trans hperm.length_eq
      rw [length_splitOn, count_comma_encodeTags, List.length_cons] at hlen
      omega
    have hcomma : ∀ t ∈ tag :: tags, comma ∉ encodeTag t := fun t ht ↦
      List.count_eq_zero.1 (List.sum_eq_zero_iff.1 hsum _ (List.mem_map_of_mem ht))
    rw [splitOn_encodeTags hcomma, List.forall₂_map_left_iff] at h
    -- Keys and then values cannot have become shorter.
    have hkeys := forall₂_eq_of_sum_eq (f := fun tag ↦ tag.key.length)
      (fun _ _ ↦ length_key_le_of_parseItem) h (hperm.symm.map _).sum_eq
    have hvalues := forall₂_eq_of_sum_eq (f := fun tag ↦ tag.value.length)
      (fun a b hab ↦ by
        rw [(key_of_parseItem hab.1 hab.2).2.2]
        exact length_trimBy_le _ _) hkeys (hperm.symm.map _).sum_eq
    have hread : List.Forall₂ (fun t _ ↦ (equalsSign ∉ t.key ∧ trim t.key = t.key ∧
        trim t.value = t.value) ∧ True) (tag :: tags) tags' := by
      refine hvalues.imp fun t t' ⟨⟨hparse, hkey⟩, hvalue⟩ ↦ ?_
      obtain ⟨hequals, htrim, hread⟩ := key_of_parseItem hparse hkey
      rw [hread] at hvalue
      exact ⟨⟨hequals, htrim, trimBy_eq_self_of_length hvalue⟩, trivial⟩
    intro t ht
    obtain ⟨hequals, hkey, hvalue⟩ := ((List.forall₂_and_left _ _).1 hread).1 t ht
    exact {
      key := clean_of_trim_eq (fun hmem ↦ hcomma t ht (List.mem_append_left _ hmem)) hkey
      value := clean_of_trim_eq
        (fun hmem ↦ hcomma t ht (List.mem_append_right _ (List.mem_cons_of_mem _ hmem))) hvalue
      equalsSign_notMem := hequals }

/-! ### The state of the inspector -/

inductive QueryKind
  | none
  | point
  | latest
  | range
deriving DecidableEq

/-- What selecting a series and reading the fields back concern. -/
structure GuiState where
  measurement : TextField measurementCapacity
  tags : TextField tagsCapacity
  knownSeries : List SeriesKey
  selectedSeries : Int32 := -1
  queryKind : QueryKind := .none
  singleResult : Option Sample := none
  rangeResult : List Sample := []
  plotX : List Value := []
  plotY : List Value := []

namespace GuiState

/-- The constructor. -/
def make : Except Error GuiState := do
  let measurement ← setText (ascii "temperature")
  let tags ← setText (ascii "room=lab")
  return { measurement, tags, knownSeries := [] }

/-- `GuiState::refresh_metadata`, given what `database_->series()` returns. -/
def refreshMetadata (series : List SeriesKey) (state : GuiState) : GuiState :=
  { state with
    knownSeries := series
    selectedSeries :=
      if state.selectedSeries ≥ Int32.ofNat series.length then -1 else state.selectedSeries }

/-- `GuiState::clear_results`: what an earlier query has shown is gone. -/
def clearResults (state : GuiState) : GuiState :=
  { state with
    queryKind := .none
    singleResult := none
    rangeResult := []
    plotX := []
    plotY := [] }

/-- `GuiState::select_series`; an exception leaves behind what has been set before it. -/
def selectSeries (index : ℕ) : EStateM Error GuiState Unit := do
  match (← get).knownSeries[index]? with
  | none => return ()
  | some series => do
    modify fun state ↦ { state with selectedSeries := Int32.ofNat index }
    let measurement ← MonadExcept.ofExcept (setText series.measurement)
    modify fun state ↦ { state with measurement }
    let tags ← MonadExcept.ofExcept (setText (encodeTags series.tags))
    modify fun state ↦ { state with tags }
    modify clearResults

/-- `GuiState::current_series`: a query asks for the series that the texts name, not for the one
that has been selected. -/
def currentSeries (state : GuiState) : Except Error SeriesKey := do
  let tags ← parseTags state.tags.text
  SeriesKey.make state.measurement.text tags

/-- **Selecting a series** whose texts fit fills the fields with them. -/
theorem exists_selectSeries {state : GuiState} {index : ℕ} {series : SeriesKey}
    (hknown : state.knownSeries[index]? = some series)
    (hmeasurement : series.measurement.length < measurementCapacity) (hnul : 0 ∉ series.measurement)
    (htags : (encodeTags series.tags).length < tagsCapacity) (hnul' : 0 ∉ encodeTags series.tags) :
    ∃ state', selectSeries index state = .ok () state' ∧
      state'.currentSeries = parseTags (encodeTags series.tags) >>=
        SeriesKey.make series.measurement := by
  obtain ⟨measurement, hset, htext⟩ := exists_setText hmeasurement hnul
  obtain ⟨tags, hset', htext'⟩ := exists_setText htags hnul'
  let selected : GuiState := { state with selectedSeries := Int32.ofNat index, measurement, tags }
  refine ⟨clearResults selected, ?_, ?_⟩
  · show (selectSeries index).run state = _
    rw [selectSeries, EStateM.run_bind, show EStateM.run get state = .ok state state from rfl]
    simp only [hknown, hset, hset']
    rfl
  · show (parseTags tags.text >>= SeriesKey.make measurement.text) = _
    rw [htext, htext']

/-- **Selecting a series.** The text of any list of tags is read back exactly when all of them are
plain; and where a series with these tags is selected, whose texts fit the fields and contain no
NUL, it is the series that is addressed exactly when all of them are plain. -/
theorem selectSeries_addresses (tags : List Tag) :
    (parseTags (encodeTags tags) = .ok tags ↔ ∀ tag ∈ tags, Plain tag) ∧
      ∀ (state : GuiState) (index : ℕ) (series : SeriesKey), series.tags = tags →
        state.knownSeries[index]? = some series →
        series.measurement.length < measurementCapacity → 0 ∉ series.measurement →
        (encodeTags tags).length < tagsCapacity → 0 ∉ encodeTags tags →
          ∃ state', selectSeries index state = .ok () state' ∧
            (state'.currentSeries = .ok series ↔ ∀ tag ∈ tags, Plain tag) := by
  refine ⟨⟨fun h ↦ plain_of_parseTags h (.refl _), parseTags_encodeTags⟩,
    fun state index series heq hknown hmeasurement hnul htags hnul' ↦ ?_⟩
  subst heq
  obtain ⟨state', hrun, hcurrent⟩ := exists_selectSeries hknown hmeasurement hnul htags hnul'
  refine ⟨state', hrun, ?_⟩
  rw [hcurrent]
  constructor
  · intro h
    obtain ⟨tags, htags, hmake⟩ := bind_eq_ok.1 h
    exact plain_of_parseTags htags (SeriesKey.perm_of_make hmake).symm
  · intro h
    rw [parseTags_encodeTags h]
    exact series.make_measurement_tags

/-- The series that a new inspector addresses. -/
def roomSeries : SeriesKey where
  measurement := ascii "temperature"
  tags := [⟨ascii "room", ascii "lab", by decide⟩]
  measurement_ne_nil := by decide
  tags_sorted := List.pairwise_singleton _ _

theorem plain_of_mem_roomSeries : ∀ tag ∈ roomSeries.tags, Plain tag := by
  intro tag htag
  rw [List.mem_singleton.1 htag]
  exact ⟨clean_of_trim_eq (by decide) (by decide), clean_of_trim_eq (by decide) (by decide),
    by decide⟩

/-- The window opens with the series of the defaults. -/
theorem exists_make : ∃ state, make = .ok state ∧ state.currentSeries = .ok roomSeries := by
  obtain ⟨measurement, hset, htext⟩ : ∃ field : TextField measurementCapacity,
    setText roomSeries.measurement = .ok field ∧ field.text = roomSeries.measurement :=
    exists_setText (by decide) (by decide)
  obtain ⟨tags, hset', htext'⟩ : ∃ field : TextField tagsCapacity,
    setText (ascii "room=lab") = .ok field ∧ field.text = ascii "room=lab" :=
    exists_setText (by decide) (by decide)
  refine ⟨_, bind_eq_ok.2 ⟨_, hset, bind_eq_ok.2 ⟨_, hset', rfl⟩⟩, ?_⟩
  show (parseTags tags.text >>= SeriesKey.make measurement.text) = _
  rw [htext, htext', show ascii "room=lab" = encodeTags roomSeries.tags by decide,
    parseTags_encodeTags plain_of_mem_roomSeries]
  exact roomSeries.make_measurement_tags

/-- The statement on the window as it opens, with one series to select. -/
theorem selectSeries_addresses_room : ∃ state state', make = .ok state ∧
    selectSeries 0 (state.refreshMetadata [roomSeries]) = .ok () state' ∧
      state'.currentSeries = .ok roomSeries := by
  obtain ⟨state, hmake, -⟩ := exists_make
  obtain ⟨state', hrun, hiff⟩ := (selectSeries_addresses roomSeries.tags).2
    (state.refreshMetadata [roomSeries]) 0 roomSeries rfl rfl (by decide) (by decide) (by decide)
    (by decide)
  exact ⟨state, state', hmake, hrun, hiff.2 plain_of_mem_roomSeries⟩

/-- A series with the tag `a`, whose value `1,b=2` contains a comma. -/
def commaSeries : SeriesKey where
  measurement := ascii "m"
  tags := [⟨ascii "a", ascii "1,b=2", by decide⟩]
  measurement_ne_nil := by decide
  tags_sorted := List.pairwise_singleton _ _

/-- A series with the tags `a` and `b`. -/
def twoTagSeries : SeriesKey where
  measurement := ascii "m"
  tags := [⟨ascii "a", ascii "1", by decide⟩, ⟨ascii "b", ascii "2", by decide⟩]
  measurement_ne_nil := by decide
  tags_sorted := by
    simp only [List.pairwise_cons]
    decide

/-- **A series that cannot be selected.** It is the only series of a store, its texts fit the fields
and contain no NUL, and after it has been selected the inspector addresses another series, which the
store does not hold. -/
theorem selectSeries_commaSeries : ∃ e d,
    Session OrderedMap.empty [openCall, putCall ⟨commaSeries, cpuSample⟩] ⟨some e, d⟩ ∧
      Returns StorageEngine.series e d [commaSeries] ∧
      commaSeries.measurement.length < measurementCapacity ∧ 0 ∉ commaSeries.measurement ∧
      (encodeTags commaSeries.tags).length < tagsCapacity ∧ 0 ∉ encodeTags commaSeries.tags ∧
      ∃ state state', make = .ok state ∧
        selectSeries 0 (state.refreshMetadata [commaSeries]) = .ok () state' ∧
          state'.currentSeries = .ok twoTagSeries ∧ twoTagSeries ≠ commaSeries := by
  obtain ⟨e, d, durability, hsession, husable, -⟩ := exists_puts [⟨commaSeries, cpuSample⟩] (by
    intro r hr
    rw [List.mem_singleton.1 hr]
    decide +kernel) (by decide +kernel)
  obtain ⟨series, hreturns, hseries⟩ := husable.answers.series
  obtain rfl : series = [commaSeries] := hseries.unique (isSeries_singleton _ _)
  obtain ⟨state, hmake, -⟩ := exists_make
  have hknown : (state.refreshMetadata [commaSeries]).knownSeries[0]? = some commaSeries := rfl
  obtain ⟨state', hrun, hcurrent⟩ :=
    exists_selectSeries hknown (by decide) (by decide) (by decide) (by decide)
  refine ⟨e, d, hsession, hreturns,
    by decide, by decide, by decide, by decide, state, state', hmake,
    hrun, ?_, by decide⟩
  -- The text `a=1,b=2` is also that of the two tags, and these are plain.
  rw [hcurrent, show encodeTags commaSeries.tags = encodeTags twoTagSeries.tags by decide,
    parseTags_encodeTags]
  · exact twoTagSeries.make_measurement_tags
  · intro tag htag
    simp only [twoTagSeries, List.mem_cons, List.not_mem_nil, or_false] at htag
    rcases htag with rfl | rfl <;>
      exact ⟨clean_of_trim_eq (by decide) (by decide), clean_of_trim_eq (by decide) (by decide),
        by decide⟩

end GuiState

end ChronoStore.ChronoView
