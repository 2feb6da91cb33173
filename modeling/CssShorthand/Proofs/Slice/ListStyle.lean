/-
  SLICING A LIST STYLE THAT WAS JOINED.

  Type and position are keywords and found where they stand; the image stands last and is found to its
  end (`slice_joined`).  An image may have blanks in it, and so words that are types or positions: if
  no type (or no position) stands before the image, such a word is taken out of it
  (`isSome_get?_type`, `isSome_get?_position`).

  The keywords of type and position are looked for in the whole value, also in the url of the image, and
  before it is taken. This is why `OfListStyle` asks for both when there is an image with blanks; the module
  says what happens if one of the two is missing.
-/
import CssShorthand.Proofs.Slice.Image

namespace CssShorthand

open List

namespace Part

/-- The type of a list style. -/
def listType : Part := plain "-type" (.keyword listStyleTypes)

/-- The position of a list style. -/
def listPosition : Part := plain "-position" (.keyword listStylePositions)

/-- The image of a list style. -/
def listImage : Part := plain "-image" .listImage

/-- The parts of a list style in the order in which they are taken. The type is first, so its keyword is also
    cut out of a quoted image. -/
theorem listStyle_eq : listStyle = [listType, listPosition, listImage] := rfl

variable {u : Text}

/-- A type is a keyword. -/
theorem opens_listType : listType.Opens (Pattern.Matches listType.pattern) :=
  opens_of_plain rfl (Pattern.usesPlain_keyword (by decide +kernel)) fun _ =>
    ne_nil_of_matches_keyword (by decide)

/-- A position is a keyword. -/
theorem opens_listPosition : listPosition.Opens (Pattern.Matches listPosition.pattern) :=
  opens_of_plain rfl (Pattern.usesPlain_keyword (by decide +kernel)) fun _ =>
    ne_nil_of_matches_keyword (by decide)

/-- An image of a list is a url or `none`. -/
theorem isWord_listImage : listImage.IsWord where
  followsSlash := rfl
  starts u hu := by
    obtain ⟨c, v, rfl, hc⟩ := Pattern.exists_cons_of_matches_image (Pattern.matches_image_of_listImage hu)
    exact ⟨c, v, rfl, Text.isBlank_of_isPlain hc⟩

/-- A keyword is its only word. -/
theorem words_of_matches_keyword {ks : List String} (hks : Pattern.UsesPlain (.keyword ks))
    (hne : "" ∉ ks) (h : Pattern.Matches (.keyword ks) u) : Text.words u = [u] :=
  Text.words_of_word (ne_nil_of_matches_keyword hne h) (Pattern.isBlank_of_isPlain_of_matches h hks)

end Part

open CssShorthand.Part (listType listPosition listImage)

namespace Slices

variable {t p i : Option Text}

/-- The values that a list style is joined from. -/
structure OfListStyle (t p i : Option Text) : Prop where
  type : ∀ u ∈ t, Pattern.Matches listType.pattern u
  position : ∀ u ∈ p, Pattern.Matches listPosition.pattern u
  image : ∀ u ∈ i, Pattern.Matches listImage.pattern u

namespace OfListStyle

/-- **The type is taken out first.** -/
theorem takePart_type (h : OfListStyle t p i)
    (hwords : t = none → ∀ u ∈ i, ∀ w ∈ Text.words u, ¬Pattern.Matches listType.pattern w) :
    takePart (Text.join [' '] (t.toList ++ (p.toList ++ i.toList))) listType =
      (t, Text.join [' '] ((t.map fun _ => [' ']).toList ++ (p.toList ++ i.toList))) := by
  refine Part.takePart_option Part.opens_listType.isWord [] _ _ nofun (fun ht y hy => ?_)
    fun u hu => Part.locate_plain rfl rfl (Pattern.usesPlain_keyword (by decide +kernel))
      (fun _ => Part.ne_nil_of_matches_keyword (by decide)) (h.type u hu) (Part.atBreak_behind _)
  refine Part.opens_listType.misses fun w hw => ?_
  rcases mem_append.mp hy with hy | hy
  · -- No position is a type.
    have hposition := h.position y (Option.mem_toList.mp hy)
    rw [Part.words_of_matches_keyword (Pattern.usesPlain_keyword (by decide +kernel)) (by decide) hposition,
      mem_singleton] at hw
    subst hw
    intro htype
    obtain ⟨k, hk, hfold⟩ := Pattern.exists_of_matches_keyword htype
    obtain ⟨k', hk', hfold'⟩ := Pattern.exists_of_matches_keyword hposition
    exact (by decide : ∀ k ∈ listStyleTypes, ∀ k' ∈ listStylePositions,
      (Text.ofString k).map Text.foldCase ≠ (Text.ofString k').map Text.foldCase) k hk k' hk'
        (hfold.trans hfold'.symm)
  · exact hwords ht y (Option.mem_toList.mp hy) w hw

/-- **The position is taken out next.** -/
theorem takePart_position (h : OfListStyle t p i)
    (hwords : p = none → ∀ u ∈ i, ∀ w ∈ Text.words u, ¬Pattern.Matches listPosition.pattern w) :
    takePart (Text.join [' '] ((t.map fun _ => [' ']).toList ++ (p.toList ++ i.toList))) listPosition =
      (p, Text.join [' '] ((t.map fun _ => [' ']).toList ++
        ((p.map fun _ => [' ']).toList ++ i.toList))) :=
  Part.takePart_option Part.opens_listPosition.isWord _ _ _
    (misses_blanked Part.opens_listPosition.isWord t)
    (fun hp y hy => Part.opens_listPosition.misses (hwords hp y (Option.mem_toList.mp hy)))
    fun u hu => Part.locate_plain rfl rfl (Pattern.usesPlain_keyword (by decide +kernel))
      (fun _ => Part.ne_nil_of_matches_keyword (by decide)) (h.position u hu) (Part.atBreak_behind _)

/-- **The image is what is left.** -/
theorem takePart_image (h : OfListStyle t p i) :
    takePart (Text.join [' '] ((t.map fun _ => [' ']).toList ++
        ((p.map fun _ => [' ']).toList ++ i.toList))) listImage =
      (i, Text.join [' '] ((t.map fun _ => [' ']).toList ++
        ((p.map fun _ => [' ']).toList ++ (i.map fun _ => [' ']).toList))) := by
  have hblanks := forall_mem_append.mpr ⟨misses_blanked Part.isWord_listImage t,
    misses_blanked Part.isWord_listImage p⟩
  have htake := Part.takePart_option Part.isWord_listImage _ [] i hblanks (fun _ => nofun)
    fun u hu => Part.locate_of_find? Part.isWord_listImage rfl
      (Pattern.find?_ends_listImage (h.image u hu) rfl nofun)
  simpa only [append_nil, append_assoc] using htake

/-- **The values of a list style are found again**, if no word of the image stands for a type or a
    position that is not there. -/
theorem slice_joined (h : OfListStyle t p i)
    (htype : t = none → ∀ u ∈ i, ∀ w ∈ Text.words u, ¬Pattern.Matches listType.pattern w)
    (hposition : p = none → ∀ u ∈ i, ∀ w ∈ Text.words u, ¬Pattern.Matches listPosition.pattern w) :
    ∃ slices, slice (Text.join [' '] (t.toList ++ (p.toList ++ i.toList))) Part.listStyle = slices ∧
      slices.get? "-type" = t ∧ slices.get? "-position" = p ∧ slices.get? "-image" = i ∧
      slices.remaining = [] := by
  have hleft : Text.collapse (Text.join [' '] ((t.map fun _ => [' ']).toList ++
      ((p.map fun _ => [' ']).toList ++ (i.map fun _ => [' ']).toList))) = [] := by
    refine Text.collapse_of_blanks (blank_of_mem_join fun x hx => ?_)
    simp only [mem_append, Option.mem_toList, Option.map_eq_some_iff] at hx
    rcases hx with ⟨_, -, rfl⟩ | ⟨_, -, rfl⟩ | ⟨_, -, rfl⟩ <;> rfl
  have hslice : slice (Text.join [' '] (t.toList ++ (p.toList ++ i.toList))) Part.listStyle =
      ⟨(t.map ("-type", ·)).toList ++ ((p.map ("-position", ·)).toList ++
        ((i.map ("-image", ·)).toList ++ [])), []⟩ := by
    simp only [slice, Part.listStyle_eq, takeParts_cons, h.takePart_type htype,
      h.takePart_position hposition, h.takePart_image, takeParts_nil, hleft]
    rfl
  have hnil : ∀ name, get? ⟨[], []⟩ name = none := fun _ => rfl
  refine ⟨_, hslice, ?_, ?_, ?_, rfl⟩ <;> simp only [get?_option] <;> simp [hnil]

/-- **A word that stands for a type is taken**, if no type is there. -/
theorem isSome_get?_type {u w : Text} (hu : u ∈ i) (hw : w ∈ Text.words u)
    (hm : Pattern.Matches listType.pattern w) :
    ((slice (Text.join [' '] (t.toList ++ (p.toList ++ i.toList))) Part.listStyle).get? "-type").isSome =
      true := by
  have hmem : w ∈ Text.words (Text.join [' '] (t.toList ++ (p.toList ++ i.toList))) :=
    Part.mem_words_join (by simp [Option.mem_toList.mpr hu]) hw
  have hsome := Part.isSome_locate_of_mem_words Part.opens_listType.isWord rfl hmem hm
  obtain ⟨place, hplace⟩ := Option.isSome_iff_exists.mp hsome
  rw [slice, Part.listStyle_eq, takeParts_cons, takePart, hplace]
  rfl

/-- **A word that stands for a position is taken**, if no position is there. -/
theorem isSome_get?_position (h : OfListStyle t none i) {u w : Text} (ht : t.isSome = true) (hu : u ∈ i)
    (hw : w ∈ Text.words u) (hm : Pattern.Matches listPosition.pattern w) :
    ((slice (Text.join [' '] (t.toList ++ i.toList)) Part.listStyle).get? "-position").isSome = true := by
  have htype := h.takePart_type fun hnone => by
    rw [hnone] at ht
    contradiction
  have hmem : w ∈ Text.words (Text.join [' '] ((t.map fun _ => [' ']).toList ++ i.toList)) :=
    Part.mem_words_join (by simp [Option.mem_toList.mpr hu]) hw
  have hsome := Part.isSome_locate_of_mem_words Part.opens_listPosition.isWord rfl hmem hm
  obtain ⟨place, hplace⟩ := Option.isSome_iff_exists.mp hsome
  obtain ⟨v, rfl⟩ := Option.isSome_iff_exists.mp ht
  simp only [Option.toList_none, nil_append] at htype
  rw [slice, Part.listStyle_eq, takeParts_cons, htype, takeParts_cons, takePart, hplace]
  rfl

end OfListStyle

end Slices

end CssShorthand
