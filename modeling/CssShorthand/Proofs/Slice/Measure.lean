/-
  LENGTHS, PERCENTAGES AND KEYWORDS.

  Sizes and positions of a background are lists of lengths, percentages and keywords, and its repetition
  is a list of keywords.  Each word of such a list is a keyword of its own, or it has a digit
  (`Ordinary`).  So no such word is a keyword of another list, begins an image, or is a color.

  The patterns of these parts overlap in the measures they take, as any number with a unit may be a size or
  a position; they do not overlap in their keywords. So a lemma about one of the parts speaks of the
  keywords of others, and says of measures only that they have a digit.
-/
import CssShorthand.Proofs.Slice.ColorWords

namespace CssShorthand

open List

/-- A digit has no other case. -/
theorem Text.foldCase_of_isDigit {c : Char} (h : isDigit c = true) : foldCase c = c := by
  have hne : ∀ d : Char, isDigit d = false → c ≠ d := by
    rintro d hd rfl
    rw [h] at hd
    contradiction
  have hlower : c.toLower = c := by
    unfold Char.toLower
    rw [dif_neg]
    intro hbounds
    have hupper : c.isUpper = true := by simpa [Char.isUpper] using hbounds
    rw [isDigit_of_isAlpha (by simp [Char.isAlpha, hupper])] at h
    contradiction
  have hspecial : isDigit '\u0130' = false ∧ isDigit '\u0131' = false ∧ isDigit '\u017F' = false ∧
      isDigit '\u212A' = false := by
    decide +kernel
  simp [foldCase, hne _ hspecial.1, hne _ hspecial.2.1, hne _ hspecial.2.2.1, hne _ hspecial.2.2.2, hlower]

namespace Pattern

variable {p : Pattern} {ks others : List String} {n : Nat} {u w : Text}

/-! ## Characters

  Which characters a measure has, from which it follows that it is one word.
-/

/-- The characters of lengths, percentages and keywords. -/
abbrev IsMeasureChar (c : Char) : Prop := Text.isPlain c = true ∨ c = '%'

/-- Neither a number nor a keyword holds white space. -/
theorem isBlank_of_isMeasureChar {c : Char} (h : IsMeasureChar c) : Text.isBlank c = false := by
  rcases h with h | rfl
  · exact Text.isBlank_of_isPlain h
  · decide

/-- A length, a percentage or one of these keywords. -/
def measure (ks : List String) : Pattern := .either lengthOrPercentage (keyword ks)

/-- A measure is a number with a unit or a keyword. -/
theorem uses_measure (hks : UsesPlain (.keyword ks)) : Uses IsMeasureChar (measure ks) := by
  have hplain : ∀ c, Text.isPlain c = true → IsMeasureChar c := fun _ => Or.inl
  refine ⟨⟨⟨usesPlain_number.mono hplain, fun c hc => Or.inr (beq_iff_eq.mp hc)⟩,
    usesPlain_length.mono hplain⟩, hks.mono hplain⟩

/-- A list uses what its members use, and white space. -/
theorem uses_listOf {Q : Char → Prop} (hp : Uses Q p) (hblank : ∀ c, Text.isBlank c = true → Q c) :
    Uses Q (listOf n p) := by
  refine ⟨hp, ?_⟩
  induction n with
  | zero => trivial
  | succ n ih => exact ⟨⟨⟨⟨hblank, hblank⟩, hp⟩, ih⟩, trivial⟩

/-! ## Words

  What tells the words of such a list from those of other parts.
-/

/-- A word of such a list: one of these keywords, or a word with a digit. -/
def Ordinary (ks : List String) (w : Text) : Prop :=
  Matches (keyword ks) w ∨ ∃ c ∈ w, Text.isDigit c = true

/-- A length, a percentage or a keyword is such a word. -/
theorem ordinary_of_matches (h : Matches (measure ks) w) : Ordinary ks w := by
  cases h with
  | left h =>
    refine Or.inr ?_
    cases h with
    | left h =>
      cases h with
      | seq hnumber _ =>
        obtain ⟨c, hc, hdigit⟩ := exists_isDigit_of_matches_number hnumber
        exact ⟨c, mem_append_left _ hc, hdigit⟩
    | right h => exact exists_isDigit_of_matches_length h
  | right h => exact Or.inl h

/-- A keyword is one word. -/
theorem ofWords_keyword (hks : UsesPlain (.keyword ks)) (hne : "" ∉ ks) : OfWords (keyword ks) :=
  fun _ h => ⟨Part.ne_nil_of_matches_keyword hne h, isBlank_of_isPlain_of_matches h hks⟩

/-- A measure is one word. -/
theorem ofWords_measure (hks : UsesPlain (.keyword ks)) (hne : "" ∉ ks) : OfWords (measure ks) := by
  refine fun u h => ⟨?_, fun c hc => isBlank_of_isMeasureChar (h.forall_mem (uses_measure hks) c hc)⟩
  rcases ordinary_of_matches h with h | ⟨c, hc, -⟩
  · exact Part.ne_nil_of_matches_keyword hne h
  · exact ne_nil_of_mem hc

/-- The characters of a number. -/
abbrev IsNumberChar (c : Char) : Prop := c = '+' ∨ c = '-' ∨ c = '.' ∨ Text.isDigit c = true

/-- A number consists of digits, a sign and a point. -/
theorem uses_number : Uses IsNumberChar number := by
  have hdigit : Uses IsNumberChar digit := fun c hc => Or.inr (Or.inr (Or.inr hc))
  refine ⟨⟨fun c hc => ?_, trivial⟩, ⟨hdigit, fun c hc => ?_, ⟨hdigit, hdigit⟩, trivial⟩, ⟨hdigit, hdigit⟩⟩
  · simp only [Bool.or_eq_true, beq_iff_eq] at hc
    exact hc.imp_right Or.inl
  · exact Or.inr (Or.inr (Or.inl (beq_iff_eq.mp hc)))

/-- A length or a percentage begins like a number, and any other such word like a keyword. -/
theorem exists_head_of_matches_measure (hne : "" ∉ ks) (h : Matches (measure ks) w) :
    ∃ c t, w = c :: t ∧ (IsNumberChar c ∨
      ∃ k ∈ ks, (Text.ofString k).head?.map Text.foldCase = some (Text.foldCase c)) := by
  have hnumber : ∀ {u x : Text}, Matches number u → ∃ c t, u ++ x = c :: t ∧ IsNumberChar c := by
    intro u x hu
    obtain ⟨d, hd, -⟩ := exists_isDigit_of_matches_number hu
    obtain ⟨c, t, rfl⟩ := exists_cons_of_ne_nil (ne_nil_of_mem hd)
    exact ⟨c, t ++ x, rfl, hu.forall_mem uses_number c mem_cons_self⟩
  -- A number with a unit, a number with a percent sign, zero, or a keyword.
  cases h with
  | left h =>
    suffices hhead : ∃ c t, w = c :: t ∧ IsNumberChar c from
      hhead.imp fun _ h => h.imp fun _ h => h.imp_right Or.inl
    cases h with
    | left h =>
      cases h with
      | seq hu _ => exact hnumber hu
    | right h =>
      cases h with
      | left h =>
        cases h with
        | seq hu _ => exact hnumber hu
      | right h => exact ⟨'0', [], eq_of_matches_just h, by decide⟩
  | right h =>
    obtain ⟨c, t, rfl⟩ := exists_cons_of_ne_nil (Part.ne_nil_of_matches_keyword hne h)
    obtain ⟨k, hk, hfold⟩ := exists_of_matches_keyword h
    refine ⟨c, t, rfl, Or.inr ⟨k, hk, ?_⟩⟩
    rw [← head?_map, hfold]
    rfl

/-- **What begins with such a word is no keyword for every property**, if no keyword of the list begins
    like one of these. -/
theorem leads_of_matches_measure {x : Text} (hks : UsesPlain (.keyword ks)) (hne : "" ∉ ks)
    (hapart : ∀ k ∈ ks, ∀ k' ∈ cssWideKeywords,
      (Text.ofString k').head?.map Text.foldCase ≠ (Text.ofString k).head?.map Text.foldCase)
    (h : Matches (measure ks) w) : Leads (w ++ x) := by
  obtain ⟨c, t, rfl, hhead⟩ := exists_head_of_matches_measure hne h
  have hchar : IsMeasureChar c := h.forall_mem (uses_measure hks) c mem_cons_self
  have hother : ∀ d, ¬IsMeasureChar d → c ≠ d := by
    rintro d hd rfl
    exact hd hchar
  refine .of_head (fun k' hk' => ?_) ⟨?_, ?_, ?_⟩ ?_ (hother _ (by decide)) (hother _ (by decide))
  · rcases hhead with hnumber | ⟨k, hk, hfold⟩
    · -- The keywords begin with letters.
      have hletter : ∀ k ∈ cssWideKeywords,
          ((Text.ofString k).head?.map Text.foldCase).all Char.isAlpha = true := by
        decide +kernel
      intro hfold
      have halpha := hletter k' hk'
      rcases hnumber with rfl | rfl | rfl | hdigit
      · simp [hfold, Text.foldCase] at halpha
      · simp [hfold, Text.foldCase] at halpha
      · simp [hfold, Text.foldCase] at halpha
      · rw [hfold, Text.foldCase_of_isDigit hdigit] at halpha
        rw [Text.isDigit_of_isAlpha halpha] at hdigit
        contradiction
    · exact hfold ▸ hapart k hk k' hk'
  · exact fun hm => hother _ (by decide) (mem_singleton.mp hm).symm
  · exact fun hm => hother _ (by decide) (mem_singleton.mp hm).symm
  · exact fun hm => hother _ (by decide) (mem_singleton.mp hm).symm
  · rcases hchar with hplain | rfl
    · exact Text.isCssBlank_of_isPlain hplain
    · decide

/-- **Such a word is no keyword of another list**, if the lists share none and the other has no digits. -/
theorem Ordinary.not_matches_keyword (hapart : ∀ k ∈ ks, ∀ k' ∈ others,
      (Text.ofString k).map Text.foldCase ≠ (Text.ofString k').map Text.foldCase)
    (hdigit : ∀ k ∈ others, (k.toList.all fun f => !Text.isDigit (Text.foldCase f)) = true)
    (h : Ordinary ks w) : ¬Matches (keyword others) w := by
  intro hw
  obtain ⟨k', hk', hfold'⟩ := exists_of_matches_keyword hw
  rcases h with h | ⟨c, hc, hcdigit⟩
  · obtain ⟨k, hk, hfold⟩ := exists_of_matches_keyword h
    exact hapart k hk k' hk' (hfold.trans hfold'.symm)
  · have hmem : Text.foldCase c ∈ (Text.ofString k').map Text.foldCase := hfold' ▸ mem_map_of_mem hc
    obtain ⟨f, hf, hfc⟩ := mem_map.mp hmem
    have hnot := all_eq_true.mp (hdigit k' hk') f hf
    rw [hfc, Text.foldCase_of_isDigit hcdigit, hcdigit] at hnot
    contradiction

/-- **Such a word begins no image**, if there is no bracket in it. -/
theorem Ordinary.not_imageWord (hapart : ∀ k ∈ ks, ∀ k' ∈ ["none"],
      (Text.ofString k).map Text.foldCase ≠ (Text.ofString k').map Text.foldCase)
    (h : Ordinary ks w) (hparen : '(' ∉ w) : ¬ImageWord w := by
  rintro ⟨name, y, rfl, -, ⟨z, rfl⟩ | ⟨rfl, hnone⟩⟩
  · exact hparen (by simp)
  · rw [append_nil] at h
    exact h.not_matches_keyword hapart (by decide +kernel) (.left hnone)

/-- **Such a word is no color**, if the keywords name none. -/
theorem Ordinary.not_isColor (hapart : ∀ k ∈ ks, ∀ k' ∈ Color.names,
      (Text.ofString k).map Text.foldCase ≠ (Text.ofString k').map Text.foldCase)
    (h : Ordinary ks w) (hchars : ∀ c ∈ w, IsMeasureChar c) (hw : Matches colorLike w) :
    Color.isColor w = false := by
  have hnot : ∀ c, ¬IsMeasureChar c → c ∉ w := fun c hc hm => hc (hchars c hm)
  by_contra hcolor
  cases Color.form_of_isColor hw (by simpa using hcolor) fun hwithin =>
      hnot '*' (by decide) (hwithin.subset (by simp)) with
  | name chars mem =>
    rcases h with h | ⟨c, hc, hdigit⟩
    · exact lower_not_mem_of_matches hapart h mem
    · have hletters := Color.all_isAlpha _ (mem_append_left _ mem)
      rw [Text.isDigit_of_isAlpha (Text.isAlpha_of_lower rfl hletters c hc)] at hdigit
      contradiction
  | hash => exact hnot '#' (by decide) mem_cons_self
  | call => exact hnot '(' (by decide) (by simp)

end Pattern

end CssShorthand
