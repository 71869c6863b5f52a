import ChronoStore.Codec.SegmentFormat
import ChronoStore.Codec.SeriesIdentity

/-!
# Tags as text

Both tools take tags as text, `key=value`, and both end the key at the first equals sign. They
differ in what surrounds a tag: ChronoView joins the tags of a series by commas and trims blanks
away, the command-line client takes each tag as an argument of its own, as it is.
-/

namespace ChronoStore

/-- `'='`. -/
def equalsSign : UInt8 := 0x3D

section Split

variable {key : Bytes} (h : equalsSign ∉ key) (value : Bytes)

include h

theorem ne_equalsSign_of_mem : ∀ b ∈ key, decide (b ≠ equalsSign) = true := fun b hb ↦ by
  simpa using fun heq : b = equalsSign ↦ h (heq ▸ hb)

/-- The key ends at the first equals sign, if it holds none itself. -/
theorem takeWhile_append_equalsSign :
    (key ++ equalsSign :: value).takeWhile (· ≠ equalsSign) = key := by
  rw [List.takeWhile_append_of_pos (ne_equalsSign_of_mem h),
    List.takeWhile_cons_of_neg (by simp), List.append_nil]

/-- The value comes after the equals sign of the key. -/
theorem dropWhile_append_equalsSign :
    (key ++ equalsSign :: value).dropWhile (· ≠ equalsSign) = equalsSign :: value := by
  rw [List.dropWhile_append_of_pos (ne_equalsSign_of_mem h),
    List.dropWhile_cons_of_neg (by simp)]

end Split

/-- A loop that parses one text after the other succeeds if all of them can be parsed. -/
theorem mapM'_eq_ok_iff {α β : Type} {g : α → Except Error β} {l : List α} {l' : List β} :
    l.mapM' g = .ok l' ↔ List.Forall₂ (fun a b ↦ g a = .ok b) l l' := by
  induction l generalizing l' with
  | nil =>
    rw [List.forall₂_nil_left_iff]
    exact ⟨fun h ↦ (Except.ok.inj h).symm, fun h ↦ h ▸ rfl⟩
  | cons a l ih =>
    rw [List.mapM'_cons, bind_eq_ok, List.forall₂_cons_left_iff]
    constructor
    · rintro ⟨b, hb, h⟩
      obtain ⟨bs, hbs, h⟩ := bind_eq_ok.1 h
      exact ⟨b, bs, hb, ih.1 hbs, (Except.ok.inj h).symm⟩
    · rintro ⟨b, bs, hb, hbs, rfl⟩
      exact ⟨b, hb, bind_eq_ok.2 ⟨bs, ih.2 hbs, rfl⟩⟩

end ChronoStore
