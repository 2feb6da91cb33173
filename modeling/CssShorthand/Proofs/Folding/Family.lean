/-
  THE FAMILY OF A FONT THAT IS FOLDED.

  The value of a font is what stands in front of the family (`Folding.fontFront`), a space and the family,
  with every run of white space in it collapsed, also one within a string, a URL or a name.  So if nothing
  of the front is still open where the family begins, the components of the font are those of the collapsed
  front and then those of the collapsed family (`Folding.significant_fontValue`).  The family stands there
  as it was declared exactly if collapsing leaves its components (`Folding.foldFont_family_iff`).  It does
  so in a family that is laid out of pieces, but not in a name with two spaces in it.
-/
import CssShorthand.Proofs.Folding.Font
import CssShorthand.Proofs.Slice.Laid

namespace CssShorthand

open List

open Component (Closed parse significant)

/-- **Texts with a space between them** have the components of the first one and then of the second one when
    they are collapsed, if nothing of the first one is still open at its end. -/
theorem Text.significant_collapse_append {x : Text} (hx : Closed (collapse x)) (t : Text) :
    significant (parse (collapse (x ++ ' ' :: t))) =
      significant (parse (collapse x)) ++ significant (parse (collapse t)) := by
  have hnil : significant (parse []) = [] := by
    rw [Component.parse_nil]
    rfl
  by_cases hwords : words x = []
  · have hleft : collapse (x ++ ' ' :: t) = collapse t := by
      rw [collapse, words_append_blank rfl, hwords, nil_append, collapse]
    rw [hleft, collapse_eq_nil_iff.mpr hwords, hnil, nil_append]
  · rw [collapse_append_blank rfl hwords]
    split
    · -- Behind a text of blanks no space is left.
      rename_i ht
      rw [ht, hnil, append_nil]
    · rw [hx _ rfl, Component.significant_append, Component.significant_parse_space rfl]

namespace Folding

variable {s : Store} {v : FontValues} {f : Text}

/-- What stands in front of the family of a font: style, variant and weight if they are not `normal`, and
    the size. -/
def fontFront (v : FontValues) : Text :=
  joined ([v.style, v.variant, v.weight].filter (· != normal) ++ [sizeText v])

/-- The value of a font is collapsed as a whole. -/
theorem fontValue_eq_collapse (v : FontValues) (f : Text) :
    fontValue v f = Text.collapse (fontFront v ++ ' ' :: f) := by
  have hfront : [v.style, v.variant, v.weight].filter (· != normal) ++ [sizeText v] ≠ [] := by simp
  have hjoin := Part.join_append_of_ne_nil hfront (cons_ne_nil f [])
  have hlast : Text.join [' '] [f] = f := joined_singleton f
  rw [append_assoc, hlast] at hjoin
  exact congrArg Text.collapse hjoin

/-- **The components of a font**: those in front of the family, and those of the family, both collapsed. -/
theorem significant_fontValue (hfront : Closed (Text.collapse (fontFront v))) :
    significant (parse (fontValue v f)) =
      significant (parse (Text.collapse (fontFront v))) ++ significant (parse (Text.collapse f)) := by
  rw [fontValue_eq_collapse, Text.significant_collapse_append hfront]

/-- **A folded font keeps its family** exactly if collapsing white space leaves the components of the family.
    A font that is folded, with values that are not one keyword for every property, is declared with the
    components of what is in front of its family, and then with the components of the family as it was
    declared, exactly if the family has the same components when it is collapsed; and a family that is laid
    out of pieces has.  This is so if nothing of the front is still open where the family begins, and if the
    value is declared as it is. -/
theorem foldFont_family_iff (s : Store) (v : FontValues) (f : Text)
    (hvalues : ∀ e ∈ fontEntries v f, s.get? e.1 = some ⟨e.2, false⟩)
    (hshared : sharedKeyword? [v.style, v.variant, v.weight, v.size, v.lineHeight, f] = none)
    (hfront : Closed (Text.collapse (fontFront v)))
    (hdeclared : Value.declarationOfText? (fontValue v f) false = some ⟨fontValue v f, false⟩) :
    ∃ t, (foldFont s).1.get? "font" = some ⟨t, false⟩ ∧
      (significant (parse t) = significant (parse (Text.collapse (fontFront v))) ++ significant (parse f) ↔
        significant (parse (Text.collapse f)) = significant (parse f)) ∧
      ∀ xs, Slices.Laid f xs → significant (parse f) <:+ significant (parse t) := by
  have hcomponents := significant_fontValue (f := f) hfront
  refine ⟨fontValue v f, ?_, ?_, fun xs hxs => ?_⟩
  · rw [get?_foldFont, fontText?_of_values hvalues hshared]
    exact hdeclared
  · rw [hcomponents]
    exact append_right_inj _
  · rw [hcomponents, hxs.significant_collapse]
    exact suffix_append _ _

/-- A family with more white space than is needed. -/
def wideSans : Text := "\"Open Sans\",\t  serif".toList

/-- A quoted name with two blanks in it: the folded font tells it apart, as the family is not what it was. -/
theorem slanted_foldFont_family_iff :
    (∀ e ∈ fontEntries slanted wideSans, (fontStore slanted wideSans).get? e.1 = some ⟨e.2, false⟩) ∧
    ∃ t, (foldFont (fontStore slanted wideSans)).1.get? "font" = some ⟨t, false⟩ ∧
      (significant (parse t) =
          significant (parse (Text.collapse (fontFront slanted))) ++ significant (parse wideSans) ↔
        significant (parse (Text.collapse wideSans)) = significant (parse wideSans)) ∧
      ∀ xs, Slices.Laid wideSans xs → significant (parse wideSans) <:+ significant (parse t) := by
  have hvalues : ∀ e ∈ fontEntries slanted wideSans,
      (fontStore slanted wideSans).get? e.1 = some ⟨e.2, false⟩ := by decide +kernel
  have hfront : Closed (Text.collapse (fontFront slanted)) :=
    Component.closed_of_settled (by decide +kernel) (by decide +kernel) (by decide +kernel) (by decide +kernel)
  exact ⟨hvalues, foldFont_family_iff _ slanted wideSans hvalues (by decide) hfront (by decide +kernel)⟩

/-- A font in which only the size is given. -/
def sizedOnly : FontValues := ⟨normal, normal, normal, "12px".toList, normal⟩

/-- The name of a family with two spaces in it. -/
def spacedName : Text := "\"Foo  Bar\"".toList

/-- **A folded font need not keep its family.**  One of the spaces in the name is lost, so that the font names
    another family. -/
theorem not_foldFont_family :
    ¬∀ (s : Store) (v : FontValues) (f : Text),
      (∀ e ∈ fontEntries v f, s.get? e.1 = some ⟨e.2, false⟩) →
      sharedKeyword? [v.style, v.variant, v.weight, v.size, v.lineHeight, f] = none →
      ∀ d, (foldFont s).1.get? "font" = some d → significant (parse f) <:+ significant (parse d.value) := by
  intro h
  have hfont : (foldFont (fontStore sizedOnly spacedName)).1.get? "font" =
      some ⟨"12px \"Foo Bar\"".toList, false⟩ := by decide +kernel
  have hsuffix := h (fontStore sizedOnly spacedName) sizedOnly spacedName (by decide +kernel) (by decide) _ hfont
  exact absurd (suffix_iff_eq_drop.mp (hsuffix.map Component.write)) (by decide +kernel)

end Folding

end CssShorthand
