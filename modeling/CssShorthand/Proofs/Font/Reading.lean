/-
  A FONT THAT WAS WRITTEN IS READ AGAIN.

  The value of a font has its style, variant and weight in front, but for those that are `normal`, then
  the size, the line height behind a slash, and the family.  It is parsed as these components
  (`OfFont.parse_eq`).  What stands in front is taken for the first field that accepts it, so it need not
  be taken for what it was (`OfFont.ofValue_eq`); size, line height and family are.
-/
import CssShorthand.Folding
import CssShorthand.Proofs.Font.Fields
import CssShorthand.Proofs.Font.Written

namespace CssShorthand

open List

open Component (Spelled IsFontWord Begins)

/-! ## Which field takes a component

  No size is taken for a field: a size that is a number has a unit, but for zero, which is no weight.
-/

namespace FontField

variable {d : Component} {n u : Text}

/-- A style is read as a style. -/
theorem of?_of_isFontStyle (h : d.isFontStyle = true) : of? d = some .style := by
  simp [of?, accepts, h]

/-- A variant is taken for one, if it is no style. -/
theorem of?_of_isFontVariant (h : d.isFontVariant = true) :
    of? d = if d.isFontStyle then some .style else some .variant := by
  cases hs : d.isFontStyle <;> simp [of?, accepts, h, hs]

/-- A weight is taken for one, if it is no style. -/
theorem of?_of_isFontWeight (h : d.isFontWeight = true) :
    of? d = if d.isFontStyle then some .style else some .weight := by
  have hapart : ∀ k ∈ fontWeights, k ∉ fontStyles → k ∉ fontVariants := by decide
  cases hs : d.isFontStyle with
  | true => simp [of?, accepts, hs]
  | false =>
    have hv : d.isFontVariant = false := by
      cases d with
      | ident n =>
        have hstyle : Text.toString (Text.lower n) ∉ fontStyles := by
          simpa [Component.isFontStyle, Component.isKeywordOf, Component.keyword?] using hs
        have hweight : Text.toString (Text.lower n) ∈ fontWeights := contains_iff_mem.mp h
        simpa [Component.isFontVariant, Component.isKeywordOf, Component.keyword?] using
          hapart _ hweight hstyle
      | _ => rfl
    simp [of?, accepts, h, hs, hv]

/-- A numeral that is written as an integer has no exponent. -/
theorem exponent_of_isInteger (h : (Numeral.ofText n).isInteger = true) : (Numeral.ofText n).exponent = 0 := by
  have hnil : (Numeral.takeSign n).2.dropWhile Char.isDigit = [] := isEmpty_iff.mp h
  simp [Numeral.ofText, hnil]

/-- An integer that counts as zero is zero. -/
theorem eq_zero_of_isZero (hzero : (Numeral.ofText n).isZero = true) {w : Int}
    (hw : (Numeral.ofText n).integer? = some w) : w = 0 := by
  unfold Numeral.integer? at hw
  split at hw
  · rename_i hinteger
    have hexponent := exponent_of_isInteger hinteger
    have hmantissa : (Numeral.ofText n).mantissa = 0 := by
      rcases Bool.or_eq_true_iff.mp hzero with hm | hm
      · exact beq_iff_eq.mp hm
      · have hneg := (Bool.and_eq_true_iff.mp hm).1
        rw [hexponent] at hneg
        contradiction
    have := Option.some.inj hw
    split at this
    · simpa [hmantissa] using this.symm
    · simpa [hmantissa] using this.symm
  · contradiction

/-- No size is a style, a variant or a weight. -/
theorem of?_of_isFontSize (h : d.isFontSize = true) : of? d = none := by
  have hapart : ∀ k ∈ fontSizes, k ∉ fontStyles ∧ k ∉ fontVariants ∧ k ∉ fontWeights := by decide
  cases d with
  | ident n =>
    have hkeyword : fontSizes.contains (Text.toString (Text.lower n)) = true := by
      simpa [Component.isFontSize, Component.isLength, Component.isKeywordOf, Component.keyword?] using h
    obtain ⟨hs, hv, hw⟩ := hapart _ (contains_iff_mem.mp hkeyword)
    simp [of?, accepts, Component.isFontStyle, Component.isFontVariant, Component.isFontWeight,
      Component.isKeywordOf, Component.keyword?, hs, hv, hw]
  | number n =>
    have hzero : (Numeral.ofText n).isZero = true := h
    have hweight : Component.isFontWeight (.number n) = false := by
      simp only [Component.isFontWeight]
      split
      · rename_i w hw
        rw [eq_zero_of_isZero hzero hw]
        rfl
      · rfl
    simp [of?, accepts, Component.isFontStyle, Component.isFontVariant, hweight, Component.isKeywordOf,
      Component.keyword?]
  | _ => rfl

end FontField

/-! ## The values

  What is known of the values of a font that is folded, and the components of its text.
-/

/-- The family of a font: written as it is read, with single spaces, and with nothing that would end it or
    be taken for something else. -/
structure IsFamily (f : Text) : Prop where
  ne_nil : f ≠ []
  writeList_eq : Component.writeList (Component.parse f) = f
  collapse_eq : Text.collapse f = f
  mark : '!' ∉ f
  last : f.getLast? ≠ some ';'
  first : f.head? ≠ some '/'

/-- A family is written as it was spelled. -/
theorem IsFamily.writeTrimmed_eq {f : Text} (h : IsFamily f) :
    Component.writeTrimmed (Component.parse f) = f := by
  obtain ⟨⟨c, u, rfl, hc⟩, t, d, hend, hd⟩ := Part.ends_of_collapse_eq h.ne_nil h.collapse_eq
  rw [Component.writeTrimmed, h.writeList_eq, Text.trim_of_ends hc hd hend]

/-- A family does not start with a separator. -/
theorem IsFamily.begins {f : Text} (h : IsFamily f) : Begins f := by
  obtain ⟨⟨c, u, rfl, hc⟩, -⟩ := Part.ends_of_collapse_eq h.ne_nil h.collapse_eq
  exact ⟨c, u, rfl, hc, fun hslash => h.first (congrArg some hslash)⟩

/-- What a family is parsed as. -/
theorem IsFamily.exists_parse {f : Text} (h : IsFamily f) :
    ∃ e es, Component.parse f = e :: es ∧ e.isSeparator = false ∧ e.isSlash = false := by
  obtain ⟨c, u, htext, hblank, hslash⟩ := h.begins.exists_normalize
  exact Component.exists_cons_of_parse htext hblank hslash

/-- The components of the values of a font. -/
structure FontWords where
  style : Component
  variant : Component
  weight : Component
  size : Component
  lineHeight : Component

/-- The values of a font are these components, each written as the value and accepted in its place. -/
structure OfFont (v : FontValues) (f : Text) (w : FontWords) : Prop where
  style : Spelled v.style w.style ∧ w.style.isFontStyle = true
  variant : Spelled v.variant w.variant ∧ w.variant.isFontVariant = true
  weight : Spelled v.weight w.weight ∧ w.weight.isFontWeight = true
  size : Spelled v.size w.size ∧ w.size.isFontSize = true
  lineHeight : Spelled v.lineHeight w.lineHeight ∧ w.lineHeight.isLineHeight = true
  family : IsFamily f

/-- What is left out. -/
def normal : Text := "normal".toList

/-- What stands before the size: style, variant and weight, each with its component. -/
def fieldsOf (v : FontValues) (w : FontWords) : List (Text × Component) :=
  [(v.style, w.style), (v.variant, w.variant), (v.weight, w.weight)].filter (·.1 != normal)

/-- The size, and the line height behind a slash. -/
def sizeText (v : FontValues) : Text :=
  if v.lineHeight = normal then v.size else v.size ++ '/' :: v.lineHeight

namespace OfFont

variable {v : FontValues} {f t : Text} {w : FontWords} {x : Text × Component}

/-- The words before the size are components that are taken for a field. -/
theorem of_mem_fieldsOf (h : OfFont v f w) (hx : x ∈ fieldsOf v w) :
    Spelled x.1 x.2 ∧ IsFontWord x.2 ∧ ∃ field, FontField.of? x.2 = some field := by
  have hmem := (mem_filter.mp hx).1
  simp only [mem_cons, not_mem_nil, or_false] at hmem
  rcases hmem with rfl | rfl | rfl
  · exact ⟨h.style.1, .of_isFontStyle h.style.2, _, FontField.of?_of_isFontStyle h.style.2⟩
  · refine ⟨h.variant.1, .of_isFontVariant h.variant.2, ?_⟩
    rw [FontField.of?_of_isFontVariant h.variant.2]
    split <;> exact ⟨_, rfl⟩
  · refine ⟨h.weight.1, .of_isFontWeight h.weight.2, ?_⟩
    rw [FontField.of?_of_isFontWeight h.weight.2]
    split <;> exact ⟨_, rfl⟩

/-- The size and the line height are made of plain characters, percent signs and a slash. -/
theorem sizeText_chars (h : OfFont v f w) : ∀ c ∈ sizeText v, Pattern.IsMeasureChar c ∨ c = '/' := by
  have hsize := (h.size.1.isMeasureChar (.of_isFontSize h.size.2)).2
  have hheight := (h.lineHeight.1.isMeasureChar (.of_isLineHeight h.lineHeight.2)).2
  intro c hc
  unfold sizeText at hc
  split at hc
  · exact Or.inl (hsize c hc)
  · rcases mem_append.mp hc with hc | hc
    · exact Or.inl (hsize c hc)
    · exact (mem_cons.mp hc).symm.imp_left (hheight c)

/-- Every font has a size. -/
theorem sizeText_ne_nil (h : OfFont v f w) : sizeText v ≠ [] := by
  unfold sizeText
  split
  · exact (h.size.1.isMeasureChar (.of_isFontSize h.size.2)).1
  · simp

/-- **The text that is written**: the words, the size and the family with spaces between. -/
theorem fontValue_eq_joined (h : OfFont v f w) : Folding.fontValue v f =
    Folding.joined ((fieldsOf v w).map (·.1) ++ [sizeText v, f]) := by
  have hfields : [v.style, v.variant, v.weight].filter (· != normal) = (fieldsOf v w).map (·.1) :=
    filter_map (f := fun x : Text × Component => x.1) (p := (· != normal))
      (l := [(v.style, w.style), (v.variant, w.variant), (v.weight, w.weight)])
  have hvalue : Folding.fontValue v f =
      Text.collapse (Folding.joined ((fieldsOf v w).map (·.1) ++ [sizeText v, f])) := by
    rw [← hfields]
    rfl
  have hword : ∀ {x : Text}, x ≠ [] → (∀ c ∈ x, Text.isBlank c = false) → x ≠ [] ∧ Text.collapse x = x := by
    intro x hne hx
    rw [Text.collapse, Text.words_of_word hne hx]
    exact ⟨hne, by simp [Text.join]⟩
  -- Each word is its own collapse, so collapsing the joined text changes nothing.
  rw [hvalue, Folding.joined, Part.collapse_join]
  intro x hx
  rcases mem_append.mp hx with hx | hx
  · obtain ⟨y, hy, rfl⟩ := mem_map.mp hx
    obtain ⟨hspelled, hfont, -⟩ := h.of_mem_fieldsOf hy
    exact hword (hspelled.isMeasureChar hfont).1 (hspelled.isBlank_eq hfont)
  · simp only [mem_cons, not_mem_nil, or_false] at hx
    rcases hx with rfl | rfl
    · refine hword h.sizeText_ne_nil fun c hc => ?_
      rcases h.sizeText_chars c hc with hc | rfl
      · exact Pattern.isBlank_of_isMeasureChar hc
      · decide
    · exact ⟨h.family.ne_nil, h.family.collapse_eq⟩

/-- The text of a font is its fields, each with a blank behind it, and the size, line height and family. -/
theorem fontValue_eq (h : OfFont v f w) : Folding.fontValue v f =
    Part.ahead ((fieldsOf v w).map (·.1)) ++ (sizeText v ++ ' ' :: f) := by
  rw [h.fontValue_eq_joined, Folding.joined, Part.join_append]
  simp [Part.behind]

/-- The components of the words before the size. -/
theorem parse_fields (h : OfFont v f w) (ht : Begins t) :
    Component.parse (Part.ahead ((fieldsOf v w).map (·.1)) ++ t) =
      Cursor.spaced ((fieldsOf v w).map (·.2)) ++ Component.parse t := by
  have hall : ∀ xs : List (Text × Component), (∀ x ∈ xs, Spelled x.1 x.2 ∧ IsFontWord x.2) →
      Begins (Part.ahead (xs.map (·.1)) ++ t) ∧ Component.parse (Part.ahead (xs.map (·.1)) ++ t) =
        Cursor.spaced (xs.map (·.2)) ++ Component.parse t := by
    intro xs hxs
    induction xs with
    | nil => exact ⟨ht, rfl⟩
    | cons x xs ih =>
      obtain ⟨hbegins, hparse⟩ := ih fun y hy => hxs y (mem_cons_of_mem _ hy)
      obtain ⟨hx, hfont⟩ := hxs x mem_cons_self
      have hcons : Part.ahead ((x :: xs).map (·.1)) ++ t = x.1 ++ ' ' :: (Part.ahead (xs.map (·.1)) ++ t) := by
        simp [Part.ahead]
      rw [hcons]
      refine ⟨.of_spelled hx hfont _, ?_⟩
      rw [hx.parse_space hfont hbegins, hparse]
      rfl
  exact (hall _ fun x hx => ⟨(h.of_mem_fieldsOf hx).1, (h.of_mem_fieldsOf hx).2.1⟩).2

/-- The components of the size and the line height. -/
def sizeComponents (v : FontValues) (w : FontWords) : List Component :=
  if v.lineHeight = normal then [w.size, .whitespace [' ']]
  else [w.size, .literal ['/'], w.lineHeight, .whitespace [' ']]

/-- **What the text of a font is parsed as.** -/
theorem parse_eq (h : OfFont v f w) : Component.parse (Folding.fontValue v f) =
    Cursor.spaced ((fieldsOf v w).map (·.2)) ++ (sizeComponents v w ++ Component.parse f) := by
  have hsize := IsFontWord.of_isFontSize h.size.2
  have hheight := IsFontWord.of_isLineHeight h.lineHeight.2
  rw [h.fontValue_eq]
  unfold sizeText sizeComponents
  split
  · rw [h.parse_fields (.of_spelled h.size.1 hsize _), h.size.1.parse_space hsize h.family.begins]
    rfl
  · rw [h.parse_fields (by rw [append_assoc]; exact .of_spelled h.size.1 hsize _), append_assoc, cons_append,
      h.size.1.parse_slash hsize h.lineHeight.1 hheight, h.lineHeight.1.parse_space hheight h.family.begins]
    rfl

/-! ## Reading the value again

  The reader on these components: the fields, then the size, the line height and the family.
-/

/-- The text is no keyword, for every property or for a font of the system: it has a size and a family. -/
theorem soleKeyword?_eq (h : OfFont v f w) : Component.soleKeyword?
    (Component.significant (Component.parse (Folding.fontValue v f))) = none := by
  obtain ⟨e, es, hparse, hsep, -⟩ := h.family.exists_parse
  have hsub : [w.size, e] <+ sizeComponents v w ++ e :: es := by
    unfold sizeComponents
    split <;> simp
  have hmem := (hsub.trans (sublist_append_right (Cursor.spaced ((fieldsOf v w).map (·.2))) _)).filter
    (!·.isSeparator)
  have hsize := (IsFontWord.of_isFontSize h.size.2).isSeparator_eq
  rw [← hparse, ← h.parse_eq, filter_cons_of_pos (by simp [hsize]), filter_cons_of_pos (by simp [hsep])] at hmem
  have hle := hmem.length_le
  rw [Component.significant]
  generalize (Component.parse (Folding.fontValue v f)).filter (!·.isSeparator) = cs at hle ⊢
  cases cs with
  | nil => rfl
  | cons d cs =>
    cases cs with
    | nil => simp at hle
    | cons => rfl

/-- The size and what follows it are read as they were. -/
theorem readSize_eq (h : OfFont v f w) {value : Text} {u : FontValues} (hu : u.lineHeight = normal)
    {c : Cursor} (hc : c.skip.rest = sizeComponents v w ++ Component.parse f) :
    FontReading.readSize value u c =
      .ok (.parts { u with size := v.size, lineHeight := v.lineHeight } (some f)) := by
  obtain ⟨e, es, hparse, hsep, hslash⟩ := h.family.exists_parse
  have hblank : ∀ x ∈ [Component.whitespace [' ']], x.isSeparator = true := forall_mem_singleton.mpr rfl
  rw [hparse] at hc
  unfold FontReading.readSize FontReading.readLineHeight
  -- Without a line height the family follows the size, otherwise the slash and the line height come between.
  by_cases hnormal : v.lineHeight = normal
  · rw [sizeComponents, if_pos hnormal] at hc
    obtain ⟨c₁, hc₁, hrest₁⟩ := (Cursor.consume_of_rest (p := Component.isFontSize) hc).1 h.size.2
    have hrest₂ : c₁.skip.rest = e :: es := Cursor.skip_rest hrest₁ hblank hsep
    have hc₂ := (Cursor.consume_of_rest (p := Component.isSlash) hrest₂).2 hslash
    simp only [hc₁, hc₂, Cursor.consumeRest, hrest₂, ← hparse, h.family.writeTrimmed_eq,
      isEmpty_eq_false_iff.mpr h.family.ne_nil, h.size.1.write_eq, hu, hnormal]
    rfl
  · rw [sizeComponents, if_neg hnormal] at hc
    obtain ⟨c₁, hc₁, hrest₁⟩ := (Cursor.consume_of_rest (p := Component.isFontSize) hc).1 h.size.2
    have hskip₁ : c₁.skip.rest = .literal ['/'] :: w.lineHeight :: .whitespace [' '] :: e :: es :=
      Cursor.skip_rest (show c₁.rest = [] ++ _ from hrest₁) nofun rfl
    obtain ⟨c₂, hc₂, hrest₂⟩ := (Cursor.consume_of_rest (p := Component.isSlash) hskip₁).1 rfl
    have hskip₂ : c₂.skip.rest = w.lineHeight :: .whitespace [' '] :: e :: es :=
      Cursor.skip_rest (show c₂.rest = [] ++ _ from hrest₂) nofun
        (IsFontWord.of_isLineHeight h.lineHeight.2).isSeparator_eq
    obtain ⟨c₃, hc₃, hrest₃⟩ :=
      (Cursor.consume_of_rest (p := Component.isLineHeight) hskip₂).1 h.lineHeight.2
    have hfamily : Component.writeTrimmed (.whitespace [' '] :: e :: es) = f := by
      rw [← h.family.writeTrimmed_eq, hparse]
      rfl
    simp only [hc₁, hc₂, hc₃, Cursor.consumeRest, hrest₃, hfamily,
      isEmpty_eq_false_iff.mpr h.family.ne_nil, h.size.1.write_eq, h.lineHeight.1.write_eq]
    rfl

/-- **What the text of a font is read as**: size, line height and family as they were, and what the words
    before them are taken for. -/
theorem ofValue_eq (h : OfFont v f w) : FontReading.ofValue (Folding.fontValue v f) =
    .ok (.parts { FontValues.initial.setAll ((fieldsOf v w).map (·.2)) with
      size := v.size, lineHeight := v.lineHeight } (some f)) := by
  have hsystem : FontReading.isSystem (Component.parse (Folding.fontValue v f)) = false := by
    rw [FontReading.isSystem, h.soleKeyword?_eq]
  obtain ⟨es, hes⟩ : ∃ es, sizeComponents v w = w.size :: es := by
    unfold sizeComponents
    split <;> exact ⟨_, rfl⟩
  have hfields : ∀ d ∈ (fieldsOf v w).map (·.2), IsFontWord d ∧ ∃ field, FontField.of? d = some field := by
    intro d hd
    obtain ⟨x, hx, rfl⟩ := mem_map.mp hd
    exact (h.of_mem_fieldsOf hx).2
  have hsep : ∀ d ∈ w.size :: (fieldsOf v w).map (·.2), d.isSeparator = false :=
    forall_mem_cons.mpr ⟨(IsFontWord.of_isFontSize h.size.2).isSeparator_eq,
      fun d hd => (hfields d hd).1.isSeparator_eq⟩
  -- The reading starts at the fields, or at the size if all of them are normal.
  have hstart : (Cursor.start (Component.parse (Folding.fontValue v f))).skip.rest =
      Cursor.spaced ((fieldsOf v w).map (·.2)) ++ w.size :: (es ++ Component.parse f) := by
    refine Cursor.skip_rest_spaced (show _ = [] ++ _ from ?_) nofun hsep
    rw [h.parse_eq, hes]
    rfl
  obtain ⟨c, hc, hrest⟩ := Cursor.consumeFields_of_rest (fun d hd => (hfields d hd).2)
    (FontField.of?_of_isFontSize h.size.2) hsep .initial _ hstart
  rw [FontReading.ofValue]
  simp only [hsystem, hc]
  exact h.readSize_eq (FontValues.setAll_lineHeight _ _) (by rw [hrest, hes, cons_append])

end OfFont

/-! ## What the words set

  Setting the fields one after the other gives back the values exactly if each of them is taken for what it
  was.
-/

/-- A value that stands for `normal`, in any case. -/
def SaysNormal (u : Text) : Prop := Text.toString (Text.lower u) = "normal"

instance (u : Text) : Decidable (SaysNormal u) := inferInstanceAs (Decidable (_ = _))

/-- A variant and a weight that stand for `normal` are `normal`, so that they are left out. -/
def SpellsNormal (v : FontValues) : Prop := ∀ u ∈ [v.variant, v.weight], SaysNormal u → u = normal

instance (v : FontValues) : Decidable (SpellsNormal v) :=
  inferInstanceAs (Decidable (∀ u ∈ [v.variant, v.weight], SaysNormal u → u = normal))

/-- A name that is a variant or a weight is a style exactly if it is `normal`. -/
theorem Component.Spelled.isFontStyle_iff {u : Text} {d : Component} (h : Spelled u d) (hd : IsFontWord d)
    (hfont : (d.isFontVariant || d.isFontWeight) = true) : d.isFontStyle = true ↔ SaysNormal u := by
  have hapart : ∀ k ∈ fontVariants ++ fontWeights, k ∈ fontStyles ↔ k = "normal" := by decide
  cases hd with
  | @keyword n hn =>
    have hu : n = u := by
      rw [← h.write_eq, Component.write, Name.writeIdentifier_of_isHyphened hn]
    have hmem : Text.toString (Text.lower n) ∈ fontVariants ++ fontWeights := by
      refine mem_append.mpr ((Bool.or_eq_true_iff.mp hfont).imp ?_ ?_) <;> exact contains_iff_mem.mp
    refine Iff.trans (b := Text.toString (Text.lower n) ∈ fontStyles) ?_ ?_
    · exact contains_iff_mem
    · rw [← hu]
      exact hapart _ hmem
  | number n =>
    refine iff_of_false (by simp [Component.isFontStyle, Component.isKeywordOf, Component.keyword?]) fun hu => ?_
    have hident := h.eq_ident_of_isHyphened (.number n) (Text.isHyphened_of_lower hu (by decide))
    contradiction
  | percentage n => contradiction
  | dimension n hunit => contradiction

namespace FontField

/-- The value of a field. -/
def get (v : FontValues) : FontField → Text
  | style => v.style
  | variant => v.variant
  | weight => v.weight

/-- Sets what a word before the size is taken for: nothing if it is left out, and a style if it stands for
    `normal` but is not left out. -/
def setWord (field : FontField) (x : Text) (v : FontValues) : FontValues :=
  if x = normal then v else if SaysNormal x then style.set x v else field.set x v

variable {field other : FontField} {v : FontValues} {x : Text}

@[simp] theorem get_set_self : field.get (field.set x v) = x := by
  cases field <;> rfl

/-- Setting a field keeps the others. -/
theorem get_set_of_ne (h : other ≠ field) : other.get (field.set x v) = other.get v := by
  cases other <;> cases field <;> first | rfl | exact absurd rfl h

/-- Setting a field keeps the line height. -/
theorem lineHeight_set : (field.set x v).lineHeight = v.lineHeight := by
  cases field <;> rfl

/-- A word sets its own field, if it does not stand for `normal` but where it is left out. -/
theorem setWord_eq_set (field : FontField) (hv : field.get v = normal)
    (hx : field = style ∨ (SaysNormal x → x = normal)) :
    field.setWord x v = field.set x v := by
  unfold setWord
  split_ifs with h hsays
  · rw [h, ← hv]
    cases field <;> rfl
  · rw [hx.resolve_right fun hx => h (hx hsays)]
  · rfl

/-- No word sets another field than the style and its own, and one that stands for `normal` not even that. -/
theorem get_setWord (hother : other ≠ style) (h : other ≠ field ∨ SaysNormal x) :
    other.get (field.setWord x v) = other.get v := by
  unfold setWord
  split_ifs with hx hsays
  · rfl
  · exact get_set_of_ne hother
  · exact get_set_of_ne (h.resolve_right hsays)

end FontField

namespace OfFont

variable {v : FontValues} {f : Text} {w : FontWords}

/-- One word in front sets what it is taken for, if it is not left out. -/
theorem setAll_word {field : FontField} {x : Text × Component} (u : FontValues)
    (xs : List (Text × Component))
    (hof : FontField.of? x.2 = if SaysNormal x.1 then some .style else some field) (hwrite : x.2.write = x.1) :
    u.setAll (((x :: xs).filter (·.1 != normal)).map (·.2)) =
      (field.setWord x.1 u).setAll ((xs.filter (·.1 != normal)).map (·.2)) := by
  unfold FontField.setWord
  by_cases hx : x.1 = normal
  · rw [filter_cons_of_neg (by simp [hx]), if_pos hx]
  · rw [filter_cons_of_pos (by simp [hx]), if_neg hx, map_cons]
    split_ifs at hof ⊢
    all_goals rw [FontValues.setAll_cons u hof, hwrite]

/-- What the words before the size set. -/
theorem setAll_fieldsOf (h : OfFont v f w) : FontValues.initial.setAll ((fieldsOf v w).map (·.2)) =
    FontField.weight.setWord v.weight (FontField.variant.setWord v.variant
      (FontField.style.setWord v.style .initial)) := by
  have hstyle : FontField.of? w.style = if SaysNormal v.style then some .style else some .style := by
    rw [ite_self, FontField.of?_of_isFontStyle h.style.2]
  have hvariant : FontField.of? w.variant = if SaysNormal v.variant then some .style else some .variant := by
    simp only [FontField.of?_of_isFontVariant h.variant.2,
      h.variant.1.isFontStyle_iff (.of_isFontVariant h.variant.2) (by simp [h.variant.2])]
  have hweight : FontField.of? w.weight = if SaysNormal v.weight then some .style else some .weight := by
    simp only [FontField.of?_of_isFontWeight h.weight.2,
      h.weight.1.isFontStyle_iff (.of_isFontWeight h.weight.2) (by simp [h.weight.2])]
  rw [fieldsOf, setAll_word _ _ hstyle h.style.1.write_eq, setAll_word _ _ hvariant h.variant.1.write_eq,
    setAll_word _ _ hweight h.weight.1.write_eq]
  rfl

/-- **What stands before the size is read as it was** exactly if nothing there is `normal` in another case. -/
theorem setAll_fieldsOf_iff (h : OfFont v f w) : { FontValues.initial.setAll ((fieldsOf v w).map (·.2)) with
    size := v.size, lineHeight := v.lineHeight } = v ↔ SpellsNormal v := by
  rw [h.setAll_fieldsOf]
  constructor
  · -- A variant or a weight that stands for `normal` is taken for a style, so that its field stays `normal`.
    intro heq u hu hsays
    have hget : ∀ field : FontField, field.get (FontField.weight.setWord v.weight
        (FontField.variant.setWord v.variant (FontField.style.setWord v.style .initial))) = field.get v :=
      fun field => by
        rw [← congrArg (FontField.get · field) heq]
        cases field <;> rfl
    simp only [mem_cons, not_mem_nil, or_false] at hu
    rcases hu with rfl | rfl
    · calc v.variant
        _ = FontField.get _ .variant := (hget .variant).symm
        _ = FontField.get (FontField.variant.setWord v.variant _) .variant :=
          FontField.get_setWord (by decide) (Or.inl (by decide))
        _ = FontField.get (FontField.style.setWord v.style .initial) .variant :=
          FontField.get_setWord (by decide) (Or.inr hsays)
        _ = normal := FontField.get_setWord (by decide) (Or.inl (by decide))
    · calc v.weight
        _ = FontField.get _ .weight := (hget .weight).symm
        _ = FontField.get (FontField.variant.setWord v.variant _) .weight :=
          FontField.get_setWord (by decide) (Or.inr hsays)
        _ = FontField.get (FontField.style.setWord v.style .initial) .weight :=
          FontField.get_setWord (by decide) (Or.inl (by decide))
        _ = normal := FontField.get_setWord (by decide) (Or.inl (by decide))
  · intro hspells
    rw [FontField.setWord_eq_set .style rfl (Or.inl rfl),
      FontField.setWord_eq_set .variant rfl (Or.inr (hspells _ (by simp))),
      FontField.setWord_eq_set .weight rfl (Or.inr (hspells _ (by simp)))]
    rfl

end OfFont

end CssShorthand
