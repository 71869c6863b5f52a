import ChronoStore.Foundation.FaultyDisk
import Mathlib.Data.List.Induction
import Mathlib.Logic.Function.Basic

/-!
# What a loss of power leaves of a directory

A reader of the running system finds the files as they are (`Step.apply`). After a loss of power
only what was made durable is certain, and there are two layers of it.

* The bytes and the length of a **file** are durable after a synchronization of the file. Before
  that, the file may be found as it was at any moment since the last one, and a write may have been
  done in part.
* What a **name** stands for is durable after a synchronization of the directory. Before that, a
  name that was created, renamed or removed may be found in any of its forms since the last one,
  each name independently of the others.

A `Medium` keeps, for each name, the file with all that may be found in it, and all that the name's
older forms may show. `Leaves M g` says that `g` is a directory that a loss of power may leave.
-/

namespace FaultyDisk

variable {N B : Type} [LinearOrder N]

/-- A file: what a reader finds in it now, and what may be found in it after a loss. -/
structure Stored (B : Type) where
  content : List B
  found : List B → Prop

namespace Stored

/-- A new file is empty. -/
def new : Stored B := ⟨[], fun c ↦ c = []⟩

/-- A write may be done in part. -/
def append (f : Stored B) (bytes : List B) : Stored B :=
  ⟨f.content ++ bytes, fun c ↦ f.found c ∨ ∃ p, p <+: bytes ∧ c = f.content ++ p⟩

def truncate (f : Stored B) (size : ℕ) : Stored B :=
  ⟨f.content.take size, fun c ↦ f.found c ∨ c = f.content.take size⟩

/-- After a synchronization there is one possibility. -/
def sync (f : Stored B) : Stored B := ⟨f.content, fun c ↦ c = f.content⟩

end Stored

/-- A name: the file it stands for, and what its older forms may show. -/
structure Slot (B : Type) where
  file : Option (Stored B)
  older : Option (List B) → Prop

namespace Slot

/-- What may be found under the name if it keeps its present form. -/
def Current (s : Slot B) (x : Option (List B)) : Prop :=
  (s.file = none ∧ x = none) ∨ ∃ f c, s.file = some f ∧ f.found c ∧ x = some c

/-- What may be found under the name. -/
def Shows (s : Slot B) (x : Option (List B)) : Prop := s.older x ∨ s.Current x

/-- The name now stands for something else. -/
def relink (s : Slot B) (file : Option (Stored B)) : Slot B := ⟨file, s.Shows⟩

/-- The file was changed. -/
def rewrite (s : Slot B) (f : Stored B → Stored B) : Slot B := ⟨s.file.map f, s.older⟩

/-- The name was made durable. -/
def settle (s : Slot B) : Slot B := ⟨s.file, fun _ ↦ False⟩

theorem current_of_file {s : Slot B} {f : Stored B} (h : s.file = some f) {x : Option (List B)} :
    s.Current x ↔ ∃ c, f.found c ∧ x = some c := by
  constructor
  · rintro (⟨hnone, -⟩ | ⟨f', c, hsome, hfound, hx⟩)
    · rw [h] at hnone
      cases hnone
    · obtain rfl := Option.some.inj (h.symm.trans hsome)
      exact ⟨c, hfound, hx⟩
  · rintro ⟨c, hfound, hx⟩
    exact Or.inr ⟨f, c, h, hfound, hx⟩

/-- A process finds no file under a name that has none. -/
theorem current_of_no_file {s : Slot B} (h : s.file = none) {x : Option (List B)} :
    s.Current x ↔ x = none := by
  constructor
  · rintro (⟨-, hx⟩ | ⟨f, c, hsome, -⟩)
    · exact hx
    · rw [h] at hsome
      cases hsome
  · exact fun hx ↦ Or.inl ⟨h, hx⟩

/-- A process finds a content if it is one that the file may have. -/
theorem current_some {s : Slot B} {c : List B} :
    s.Current (some c) ↔ ∃ f, s.file = some f ∧ f.found c := by
  constructor
  · rintro (⟨-, hx⟩ | ⟨f, c', hfile, hfound, hx⟩)
    · cases hx
    · obtain rfl := Option.some.inj hx
      exact ⟨f, hfile, hfound⟩
  · rintro ⟨f, hfile, hfound⟩
    exact Or.inr ⟨f, c, hfile, hfound, rfl⟩

/-- What a process finds in a file that has been changed. -/
theorem current_rewrite {s : Slot B} {g : Stored B → Stored B} {c : List B} :
    (s.rewrite g).Current (some c) ↔ ∃ f, s.file = some f ∧ (g f).found c := by
  rw [current_some]
  constructor
  · rintro ⟨f, hfile, hfound⟩
    obtain ⟨f', hfile', rfl⟩ := Option.map_eq_some_iff.1 hfile
    exact ⟨f', hfile', hfound⟩
  · rintro ⟨f, hfile, hfound⟩
    exact ⟨g f, by rw [rewrite, hfile, Option.map_some], hfound⟩

/-- On a settled slot a loss of power changes nothing. -/
theorem shows_settle {s : Slot B} {x : Option (List B)} : s.settle.Shows x ↔ s.Current x :=
  ⟨fun h ↦ h.resolve_left id, Or.inr⟩

end Slot

/-- What is on the medium, name by name. -/
abbrev Medium (N B : Type) := N → Slot B

namespace Medium

/-- A directory that is durable as it is. -/
def ofFiles (files : Files N B) : Medium N B := fun name ↦
  ⟨(files.find? name).map fun c ↦ ⟨c, fun x ↦ x = c⟩, fun _ ↦ False⟩

/-- The medium after a step. -/
def apply (M : Medium N B) : Step N B → Medium N B
  | .create name =>
    if (M name).file.isSome then M else Function.update M name ((M name).relink (some .new))
  | .createTrunc name =>
    if (M name).file.isSome then Function.update M name ((M name).rewrite fun f ↦ f.truncate 0)
    else Function.update M name ((M name).relink (some .new))
  | .append name bytes => Function.update M name ((M name).rewrite fun f ↦ f.append bytes)
  | .truncate name size => Function.update M name ((M name).rewrite fun f ↦ f.truncate size)
  | .rename source target =>
    match (M source).file with
    | none => M
    | some f =>
      let unlinked := Function.update M source ((M source).relink none)
      Function.update unlinked target ((unlinked target).relink (some f))
  | .remove name => Function.update M name ((M name).relink none)
  | .fsync name => Function.update M name ((M name).rewrite Stored.sync)
  | .fsyncDir => fun name ↦ (M name).settle

/-- The medium after steps. -/
def applyAll (M : Medium N B) (steps : List (Step N B)) : Medium N B := steps.foldl apply M

theorem applyAll_concat (M : Medium N B) (steps : List (Step N B)) (t : Step N B) :
    M.applyAll (steps ++ [t]) = (M.applyAll steps).apply t := by
  simp [applyAll]

/-- A directory that a loss of power may leave. -/
def Leaves (M : Medium N B) (g : Files N B) : Prop := ∀ name, (M name).Shows (g.find? name)

/-- The files of the medium are those that a reader finds. -/
def Matches (M : Medium N B) (files : Files N B) : Prop :=
  ∀ name, (M name).file.map Stored.content = files.find? name

/-- A file that a process sees is on the medium, with its content. -/
theorem Matches.exists_file {M : Medium N B} {files : Files N B} (h : M.Matches files) {name : N}
    {content : List B} (hfile : files.find? name = some content) :
    ∃ f, (M name).file = some f ∧ f.content = content :=
  Option.map_eq_some_iff.1 ((h name).trans hfile)

/-- A medium made from files matches them. -/
theorem matches_ofFiles (files : Files N B) : (ofFiles files).Matches files := by
  intro name
  rw [ofFiles, Option.map_map]
  exact Option.map_id'

/-- Appended bytes go to the file of the name, if there is one. -/
theorem apply_append_self (M : Medium N B) (name : N) (bytes : List B) :
    M.apply (.append name bytes) name = (M name).rewrite fun f ↦ f.append bytes :=
  Function.update_self ..

/-- **The last append may be found in part.** -/
theorem shows_append {M : Medium N B} {name : N} {f : Stored B} (hfile : (M name).file = some f)
    {bytes p : List B} (hp : p <+: bytes) :
    (M.apply (.append name bytes) name).Shows (some (f.content ++ p)) := by
  rw [apply_append_self]
  exact Or.inr (Slot.current_rewrite.2 ⟨f, hfile, Or.inr ⟨p, hp, rfl⟩⟩)

/-- **Frame.** A step leaves the names alone that it neither touches nor synchronizes. -/
theorem apply_of_notMem {M : Medium N B} {t : Step N B} {name : N} (h : name ∉ t.touches)
    (hsync : t ≠ .fsync name) (hdir : t ≠ .fsyncDir) : M.apply t name = M name := by
  cases t with
  | create n =>
    have hne : name ≠ n := by simpa [Step.touches] using h
    rw [apply]
    split
    · rfl
    · exact Function.update_of_ne hne _ _
  | createTrunc n =>
    have hne : name ≠ n := by simpa [Step.touches] using h
    rw [apply]
    split
    · exact Function.update_of_ne hne _ _
    · exact Function.update_of_ne hne _ _
  | append n | truncate n | remove n =>
    exact Function.update_of_ne (by simpa [Step.touches] using h) _ _
  | rename a b =>
    simp only [Step.touches, List.mem_cons, List.not_mem_nil, or_false, not_or] at h
    rw [apply]
    cases (M a).file with
    | none => rfl
    | some f =>
      dsimp only
      rw [Function.update_of_ne h.2, Function.update_of_ne h.1]
  | fsync n =>
    exact Function.update_of_ne (fun heq ↦ hsync (by rw [heq])) _ _
  | fsyncDir => exact absurd rfl hdir

/-- A step on one name leaves the others alone. -/
theorem apply_of_ne {M : Medium N B} {t : Step N B} {name : N} (htouch : ∀ n ∈ t.touches, n = name)
    (hsync : ∀ n, t = .fsync n → n = name) (hdir : t ≠ .fsyncDir) (other : N) (hne : other ≠ name) :
    M.apply t other = M other :=
  apply_of_notMem (fun hmem ↦ hne (htouch other hmem)) (fun heq ↦ hne (hsync other heq)) hdir

section Self

variable (M : Medium N B) (name : N)

/-- A file that is created is linked under a name that the directory on the disk may not have. -/
theorem apply_create {M : Medium N B} {name : N} (h : (M name).file = none) :
    M.apply (.create name) name = (M name).relink (some .new) := by
  rw [apply, if_neg (by simp [h]), Function.update_self]

theorem apply_append (bytes : List B) :
    M.apply (.append name bytes) name = (M name).rewrite fun f ↦ f.append bytes :=
  Function.update_self _ _ _

theorem apply_truncate (size : ℕ) :
    M.apply (.truncate name size) name = (M name).rewrite fun f ↦ f.truncate size :=
  Function.update_self _ _ _

theorem apply_remove : M.apply (.remove name) name = (M name).relink none :=
  Function.update_self _ _ _

/-- A sync settles the content, not the name. -/
theorem apply_fsync : M.apply (.fsync name) name = (M name).rewrite Stored.sync :=
  Function.update_self _ _ _

/-- The file of the one name is linked under the other. -/
theorem apply_rename {M : Medium N B} {a b : N} {f : Stored B} (h : (M a).file = some f)
    (hne : b ≠ a) :
    M.apply (.rename a b) b = (M b).relink (some f) := by
  rw [apply, h]
  dsimp only
  rw [Function.update_self, Function.update_of_ne hne]

end Self

/-- A change of one slot is matched by a change of one file. -/
theorem Matches.update {M : Medium N B} {files : Files N B} (h : M.Matches files) (name : N)
    {s : Slot B}
    {files' : Files N B} (hname : s.file.map Stored.content = files'.find? name)
    (hother : ∀ n, n ≠ name → files'.find? n = files.find? n) :
    Medium.Matches (Function.update M name s) files' := by
  intro n
  by_cases hn : n = name
  · subst hn
    rwa [Function.update_self]
  · rw [Function.update_of_ne hn, hother n hn]
    exact h n

/-- **The medium follows the directory.** -/
theorem Matches.apply {M : Medium N B} {files : Files N B} (h : M.Matches files) (t : Step N B) :
    (M.apply t).Matches (t.apply files) := by
  have hinsert : ∀ (name : N) (c : List B) (n : N), n ≠ name →
      (files.insert name c).find? n = files.find? n := fun name c n hn ↦ by
    rw [OrderedMap.find?_insert, if_neg hn]
  have hself : ∀ (name : N) (c : List B), (files.insert name c).find? name = some c :=
    fun name c ↦ by
    rw [OrderedMap.find?_insert, if_pos rfl]
  cases t with
  | create name =>
    have hname := h name
    rw [Medium.apply, Step.apply, ← hname, Option.isSome_map]
    split
    · exact h
    · exact h.update name (hself name []).symm (hinsert name [])
  | createTrunc name =>
    have hname := h name
    rw [Medium.apply, Step.apply]
    split
    · rename_i hsome
      obtain ⟨f, hf⟩ := Option.isSome_iff_exists.1 hsome
      refine h.update name ?_ (hinsert name [])
      rw [hself, Slot.rewrite, hf]
      rfl
    · exact h.update name (hself name []).symm (hinsert name [])
  | append name bytes =>
    have hname := h name
    rw [Medium.apply, Step.apply]
    cases hf : (M name).file with
    | none =>
      rw [hf] at hname
      rw [← hname]
      exact h.update name (by simp only [Slot.rewrite, hf]; exact hname) fun _ _ ↦ rfl
    | some f =>
      rw [hf] at hname
      simp only [← hname, Option.map_some]
      refine h.update name ?_ (hinsert name _)
      simp only [Slot.rewrite, hf, hself, Option.map_some]
      rfl
  | truncate name size =>
    have hname := h name
    rw [Medium.apply, Step.apply]
    cases hf : (M name).file with
    | none =>
      rw [hf] at hname
      rw [← hname]
      exact h.update name (by simp only [Slot.rewrite, hf]; exact hname) fun _ _ ↦ rfl
    | some f =>
      rw [hf] at hname
      simp only [← hname, Option.map_some]
      refine h.update name ?_ (hinsert name _)
      simp only [Slot.rewrite, hf, hself, Option.map_some]
      rfl
  | rename a b =>
    have hname := h a
    rw [Medium.apply, Step.apply]
    cases hf : (M a).file with
    | none =>
      rw [hf] at hname
      rw [← hname]
      exact h
    | some f =>
      rw [hf] at hname
      simp only [← hname, Option.map_some]
      have herase : Medium.Matches (Function.update M a ((M a).relink none)) (files.erase a) :=
        h.update a (by rw [OrderedMap.find?_erase, if_pos rfl]; rfl) fun n hn ↦ by
          rw [OrderedMap.find?_erase, if_neg hn]
      refine herase.update b ?_ fun n hn ↦ ?_
      · rw [OrderedMap.find?_insert, if_pos rfl]
        rfl
      · rw [OrderedMap.find?_insert, if_neg hn]
  | remove name =>
    exact h.update name (by rw [Step.apply, OrderedMap.find?_erase, if_pos rfl]; rfl) fun n hn ↦ by
      rw [Step.apply, OrderedMap.find?_erase, if_neg hn]
  | fsync name =>
    refine h.update name ?_ fun _ _ ↦ rfl
    rw [Slot.rewrite, Option.map_map]
    exact h name
  | fsyncDir => exact h

/-- Medium and files change in step. -/
theorem Matches.applyAll {M : Medium N B} {files : Files N B} (h : M.Matches files)
    (steps : List (Step N B)) : (M.applyAll steps).Matches (FaultyDisk.applyAll files steps) := by
  induction steps using List.reverseRecOn with
  | nil => exact h
  | append_singleton steps t ih =>
    rw [applyAll_concat, applyAll_append]
    exact ih.apply t

/-! ### What may be left -/

/-- The file as a reader finds it is among what may be found. -/
def Sound (M : Medium N B) : Prop := ∀ name f, (M name).file = some f → f.found f.content

/-- A slot whose content is one that can be found is sound. -/
theorem Sound.update {M : Medium N B} (h : M.Sound) {name : N} {s : Slot B}
    (hname : ∀ f, s.file = some f → f.found f.content) :
    Medium.Sound (Function.update M name s) := by
  intro n f hf
  by_cases hn : n = name
  · subst hn
    rw [Function.update_self] at hf
    exact hname f hf
  · rw [Function.update_of_ne hn] at hf
    exact h n f hf

/-- A step keeps the medium sound. -/
theorem Sound.apply {M : Medium N B} (h : M.Sound) (t : Step N B) : (M.apply t).Sound := by
  have hrewrite : ∀ (name : N) (g : Stored B → Stored B),
      (∀ f, f.found f.content → (g f).found (g f).content) →
      Medium.Sound (Function.update M name ((M name).rewrite g)) := by
    refine fun name g hg ↦ h.update fun f hf ↦ ?_
    obtain ⟨f', hf', rfl⟩ := Option.map_eq_some_iff.1 hf
    exact hg f' (h name f' hf')
  have hnew : ∀ name : N, Medium.Sound (Function.update M name ((M name).relink (some .new))) :=
    fun name ↦ h.update fun f hf ↦ by
      obtain rfl : Stored.new = f := Option.some.inj hf
      rfl
  have hunlink : ∀ name : N, Medium.Sound (Function.update M name ((M name).relink none)) :=
    fun name ↦ h.update fun f hf ↦ nomatch hf
  cases t with
  | create name =>
    rw [Medium.apply]
    split
    · exact h
    · exact hnew name
  | createTrunc name =>
    rw [Medium.apply]
    split
    · exact hrewrite name _ fun f _ ↦ Or.inr rfl
    · exact hnew name
  | append name bytes => exact hrewrite name _ fun f _ ↦ Or.inr ⟨bytes, List.prefix_refl _, rfl⟩
  | truncate name size => exact hrewrite name _ fun f _ ↦ Or.inr rfl
  | rename a b =>
    rw [Medium.apply]
    cases hf : (M a).file with
    | none => exact h
    | some f =>
      refine (hunlink a).update fun f' hf' ↦ ?_
      obtain rfl : f = f' := Option.some.inj hf'
      exact h a f hf
  | remove name => exact hunlink name
  | fsync name => exact hrewrite name _ fun f _ ↦ rfl
  | fsyncDir => exact h

theorem Sound.applyAll {M : Medium N B} (h : M.Sound) (steps : List (Step N B)) :
    (M.applyAll steps).Sound := by
  induction steps using List.reverseRecOn with
  | nil => exact h
  | append_singleton steps t ih =>
    rw [applyAll_concat]
    exact ih.apply t

/-- **Nothing need be lost.** -/
theorem Sound.leaves {M : Medium N B} (h : M.Sound) {files : Files N B} (hmatch : M.Matches files) :
    M.Leaves files := by
  intro name
  rw [← hmatch name]
  cases hf : (M name).file with
  | none => exact Or.inr (Or.inl ⟨hf, rfl⟩)
  | some f => exact Or.inr (Or.inr ⟨f, f.content, hf, h name f hf, rfl⟩)

/-- A medium made from files is sound. -/
theorem sound_ofFiles (files : Files N B) : (ofFiles files).Sound := by
  intro name f hf
  obtain ⟨c, -, rfl⟩ := Option.map_eq_some_iff.1 hf
  rfl

/-- **Everything new may be lost** until the directory is synchronized. -/
theorem shows_none_apply {M : Medium N B} (h : ∀ name, (M name).Shows none) {t : Step N B}
    (ht : t ≠ .fsyncDir) (name : N) : (M.apply t name).Shows none := by
  have hrelink : ∀ (M' : Medium N B), (∀ name, (M' name).Shows none) →
    ∀ (n : N) (file : Option (Stored B)),
      ∀ name, (Function.update M' n ((M' n).relink file) name).Shows none := by
    intro M' h' n file name
    by_cases hn : name = n
    · subst hn
      rw [Function.update_self]
      exact Or.inl (h' name)
    · rw [Function.update_of_ne hn]
      exact h' name
  have hrewrite : ∀ (n : N) (g : Stored B → Stored B),
      (Function.update M n ((M n).rewrite g) name).Shows none := by
    intro n g
    by_cases hn : name = n
    · subst hn
      rw [Function.update_self]
      rcases h name with holder | ⟨hfile, -⟩ | ⟨f, c, -, -, hx⟩
      · exact Or.inl holder
      · exact Or.inr (Or.inl ⟨by rw [Slot.rewrite, hfile, Option.map_none], rfl⟩)
      · cases hx
    · rw [Function.update_of_ne hn]
      exact h name
  cases t with
  | create n =>
    rw [Medium.apply]
    split
    · exact h name
    · exact hrelink M h n _ name
  | createTrunc n =>
    rw [Medium.apply]
    split
    · exact hrewrite n _
    · exact hrelink M h n _ name
  | append n bytes => exact hrewrite n _
  | truncate n size => exact hrewrite n _
  | rename a b =>
    rw [Medium.apply]
    cases (M a).file with
    | none => exact h name
    | some f => exact hrelink _ (hrelink M h a none) b _ name
  | remove n => exact hrelink M h n none name
  | fsync n => exact hrewrite n _
  | fsyncDir => exact absurd rfl ht

/-- As long as no directory has been synced, a loss of power may leave nothing. -/
theorem leaves_empty {steps : List (Step N B)} (h : .fsyncDir ∉ steps) :
    ((ofFiles (OrderedMap.empty : Files N B)).applyAll steps).Leaves OrderedMap.empty := by
  suffices hnone : ∀ name,
      ((ofFiles (OrderedMap.empty : Files N B)).applyAll steps name).Shows none from
    fun name ↦ hnone name
  induction steps using List.reverseRecOn with
  | nil => exact fun name ↦ Or.inr (Or.inl ⟨rfl, rfl⟩)
  | append_singleton steps t ih =>
    rw [List.mem_append, not_or, List.mem_singleton] at h
    rw [applyAll_concat]
    exact shows_none_apply (ih h.1) fun heq ↦ h.2 heq.symm

end Medium

end FaultyDisk
