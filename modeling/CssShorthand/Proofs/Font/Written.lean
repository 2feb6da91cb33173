/-
  THE TEXT OF A FONT, PARSED AGAIN.

  Styles, variants, weights, sizes and line heights are single components.  A value that is such a
  component (`Component.Spelled`) is made of plain characters, and it is read as this component before a
  space and before a slash, whatever follows (`Spelled.parse_space`, `Spelled.parse_slash`).

  The words of a font are written by the writer, and their characters are known from their kind: letters and
  hyphens for keywords, the characters of a numeral, a unit of letters, a percent sign. So they need no
  escape, and a space or a slash ends them.
-/
import CssShorthand.Proofs.Component.Front
import CssShorthand.Proofs.Component.Whole
import CssShorthand.Proofs.Slice.Measure

namespace CssShorthand

open List

/-! ## Names of letters and hyphens

  Such a name is written as it is. A unit is as well, as no length has a unit that looks like an exponent.
-/

/-- A character that is a letter or a hyphen in lower case is one as it stands. -/
theorem Text.isAlpha_or_of_toLower {c : Char} (h : (c.toLower.isAlpha || c.toLower == '-') = true) :
    (c.isAlpha || c == '-') = true := by
  unfold Char.toLower at h
  split at h
  · rename_i hupper
    have halpha : c.isAlpha = true := by simpa [Char.isAlpha, Char.isUpper] using Or.inl hupper
    simp [halpha]
  · exact h

/-- A letter and then letters and hyphens. -/
def Text.isHyphened : Text → Bool
  | [] => false
  | c :: t => c.isAlpha && t.all fun d => d.isAlpha || d == '-'

/-- What stands for a keyword of letters and hyphens has only these. -/
theorem Text.isHyphened_of_lower {n : Text} {k : String} (hn : toString (lower n) = k)
    (hk : isHyphened (ofString k) = true) : isHyphened n = true := by
  have hlower : ofString k = n.map Char.toLower := by
    rw [← hn]
    simp [toString, ofString, lower]
  rw [hlower] at hk
  cases n with
  | nil => contradiction
  | cons c n =>
    simp only [map_cons, isHyphened, Bool.and_eq_true, all_eq_true] at hk ⊢
    exact ⟨isAlpha_of_toLower hk.1, fun d hd => isAlpha_or_of_toLower (hk.2 _ (mem_map_of_mem hd))⟩

/-- Such a name is written as it is. -/
theorem Name.writeIdentifier_of_isHyphened {n : Text} (h : Text.isHyphened n = true) :
    writeIdentifier n = n := by
  cases n with
  | nil => rfl
  | cons c n =>
    simp only [Text.isHyphened, Bool.and_eq_true, Bool.or_eq_true, beq_iff_eq, all_eq_true] at h
    refine writeIdentifier_of_isStart (by simp [isStart, h.1]) fun d hd => ?_
    rcases h.2 d hd with halpha | rfl
    · simp [isChar, isStart, halpha]
    · rfl

/-- So is a unit of length, which consists of letters. -/
theorem Name.writeUnit_of_isLength {u : Text} (hu : Text.toString (Text.lower u) ∈ lengthUnits) :
    (∀ c ∈ u, c.isAlpha = true) ∧ u ≠ [] ∧ writeUnit u = u := by
  have hletters : ∀ k ∈ lengthUnits, (Text.ofString k).all Char.isAlpha = true := by decide
  have hunits := Text.isAlpha_of_lower rfl (hletters _ hu)
  refine ⟨hunits, ?_, ?_⟩
  · rintro rfl
    exact absurd hu (by decide)
  · unfold writeUnit
    split
    · rename_i c
      split
      · rename_i hc
        rcases hc with rfl | rfl <;> exact absurd hu (by decide)
      · exact writeIdentifier_of_isAlpha hunits
    · exact absurd (hunits '-' (by simp)) (by decide)
    · exact writeIdentifier_of_isAlpha hunits

namespace Component

open Lexeme (lexemes)

variable {d : Component} {ks : List String} {t u v : Text}

/-! ## Values of one component

  The kinds of words, and that each of the five tests accepts words of these kinds only.
-/

/-- A value of one component that is written as the value. -/
structure Spelled (v : Text) (d : Component) : Prop where
  parse_eq : parse v = [d]
  write_eq : d.write = v

/-- The components that styles, variants, weights, sizes and line heights of a font are. -/
inductive IsFontWord : Component → Prop
  | keyword {n : Text} (h : Text.isHyphened n = true) : IsFontWord (.ident n)
  | number (n : Text) : IsFontWord (.number n)
  | percentage (n : Text) : IsFontWord (.percentage n)
  | dimension (n : Text) {u : Text} (h : Text.toString (Text.lower u) ∈ lengthUnits) :
    IsFontWord (.dimension n u)

namespace IsFontWord

/-- A keyword is a word of a font when it is spelled with letters and hyphens. -/
theorem of_isKeywordOf (hks : ∀ k ∈ ks, Text.isHyphened (Text.ofString k) = true)
    (h : d.isKeywordOf ks = true) : IsFontWord d := by
  cases d with
  | ident n => exact .keyword (Text.isHyphened_of_lower rfl (hks _ (contains_iff_mem.mp h)))
  | _ => contradiction

/-- A length is a word of a font: its unit consists of letters. -/
theorem of_isLength (h : d.isLength = true) : IsFontWord d := by
  cases d with
  | dimension n u => exact .dimension n (contains_iff_mem.mp h)
  | number n => exact .number n
  | percentage n => exact .percentage n
  | _ => contradiction

/-- A style is a keyword. -/
theorem of_isFontStyle (h : d.isFontStyle = true) : IsFontWord d := of_isKeywordOf (by decide) h

/-- A variant is a keyword. -/
theorem of_isFontVariant (h : d.isFontVariant = true) : IsFontWord d := of_isKeywordOf (by decide) h

/-- A weight is a keyword or a number. -/
theorem of_isFontWeight (h : d.isFontWeight = true) : IsFontWord d := by
  unfold isFontWeight at h
  split at h
  · exact .number _
  · exact of_isKeywordOf (by decide) h

/-- A size is a keyword, a length or a percentage. -/
theorem of_isFontSize (h : d.isFontSize = true) : IsFontWord d := by
  rcases Bool.or_eq_true_iff.mp h with h | h
  · exact of_isKeywordOf (by decide) h
  · exact of_isLength h

/-- A line height is `normal`, a number, a length or a percentage. -/
theorem of_isLineHeight (h : d.isLineHeight = true) : IsFontWord d := by
  unfold isLineHeight at h
  split at h
  · exact .number _
  · rcases Bool.or_eq_true_iff.mp h with h | h
    · exact of_isKeywordOf (by decide) h
    · exact of_isLength h

/-- A word of a font is a single lexeme. -/
theorem flat_eq (h : IsFontWord d) : flat d = [.leaf d] := by
  cases h <;> rfl

/-- A word of a font separates nothing. -/
theorem isSeparator_eq (h : IsFontWord d) : d.isSeparator = false := by
  cases h <;> rfl

end IsFontWord

namespace Spelled

/-- Such a value is whole. -/
theorem whole (h : Spelled v d) (hd : IsFontWord d) : Whole v where
  faultless := by
    rw [h.parse_eq]
    intro l hl
    rw [flatList, hd.flat_eq] at hl
    obtain rfl := mem_singleton.mp hl
    cases hd <;> rfl
  writeList_eq := by
    rw [h.parse_eq]
    exact h.write_eq

/-- The component is formed as one that is read. -/
theorem formed (h : Spelled v d) (hd : IsFontWord d) : Lexeme.Formed (.leaf d) :=
  formed_of_mem_flatList_parse (h.whole hd).faultless (.leaf d) (by
    rw [h.parse_eq, flatList, hd.flat_eq]
    exact mem_cons_self)

/-- **Such a value is made of plain characters** and percent signs. -/
theorem isMeasureChar (h : Spelled v d) (hd : IsFontWord d) :
    v ≠ [] ∧ ∀ c ∈ v, Pattern.IsMeasureChar c := by
  have halpha : ∀ {c : Char}, c.isAlpha = true → Pattern.IsMeasureChar c := fun hc =>
    Or.inl (by simp [Text.isPlain, Char.isAlphanum, hc])
  have hformed := h.formed hd
  have hnumeral : ∀ {n : Text}, Number.IsNumeral n → n ≠ [] ∧ ∀ c ∈ n, Pattern.IsMeasureChar c := by
    rintro n ⟨hne, hn⟩
    refine ⟨hne, fun c hc => ?_⟩
    have hchar := hn c hc
    simp only [Number.isNumeralChar, Bool.or_eq_true, beq_iff_eq] at hchar
    rcases hchar with ((((hdigit | rfl) | rfl) | rfl) | rfl) | rfl
    · exact Or.inl (by simp [Text.isPlain, Char.isAlphanum, hdigit])
    all_goals decide
  rw [← h.write_eq]
  -- A keyword is made of letters and hyphens, a number of its own characters, and what may stand behind it of
  -- letters or a percent sign.
  cases hd with
  | @keyword n hn =>
    rw [write, Name.writeIdentifier_of_isHyphened hn]
    cases n with
    | nil => exact absurd hn (by decide)
    | cons c n =>
      simp only [Text.isHyphened, Bool.and_eq_true, Bool.or_eq_true, beq_iff_eq, all_eq_true] at hn
      refine ⟨cons_ne_nil c n, forall_mem_cons.mpr ⟨halpha hn.1, fun d hd => ?_⟩⟩
      rcases hn.2 d hd with hd | rfl
      · exact halpha hd
      · decide
  | number n => exact hnumeral hformed.2
  | percentage n =>
    obtain ⟨hne, hchars⟩ := hnumeral (n := n) hformed.2
    refine ⟨by simp [write], fun c hc => ?_⟩
    rcases mem_append.mp hc with hc | hc
    · exact hchars c hc
    · exact Or.inr (mem_singleton.mp hc)
  | @dimension n u hu =>
    obtain ⟨hne, hchars⟩ := hnumeral (n := n) hformed.2
    obtain ⟨hunits, -, hunit⟩ := Name.writeUnit_of_isLength hu
    rw [write, hunit]
    refine ⟨by simp [hne], fun c hc => ?_⟩
    rcases mem_append.mp hc with hc | hc
    · exact hchars c hc
    · exact halpha (hunits c hc)

/-- There is no white space in a word of a font. -/
theorem isBlank_eq (h : Spelled v d) (hd : IsFontWord d) : ∀ c ∈ v, Text.isBlank c = false :=
  fun c hc => Pattern.isBlank_of_isMeasureChar ((h.isMeasureChar hd).2 c hc)

/-- It is read as the component, whatever stops the reading behind it. -/
theorem lexemes_append (h : Spelled v d) (hd : IsFontWord d) {e : Char} (he : Stops e) (r : Text) :
    lexemes (v ++ e :: r) = .leaf d :: lexemes (e :: r) := by
  rw [(h.whole hd).lexemes_append (Text.trim_of_forall (h.isBlank_eq hd)) he, h.parse_eq, flatList,
    hd.flat_eq]
  rfl

/-- A value of letters and hyphens is spelled by the identifier of this name. -/
theorem eq_ident_of_isHyphened (h : Spelled v d) (hd : IsFontWord d) (hv : Text.isHyphened v = true) :
    d = .ident v := by
  have hne : v ≠ [] := (h.isMeasureChar hd).1
  have hname := Lexeme.lexemes_name (Name.writeIdentifier_of_isHyphened hv) hne (Or.inr rfl) []
  rw [h.lexemes_append hd .semicolon] at hname
  exact Lexeme.leaf.inj (cons.inj hname).1

/-- A value whose component stands for a keyword is this keyword in some case. -/
theorem mem_of_isKeywordOf (h : Spelled v d) (hks : ∀ k ∈ ks, Text.isHyphened (Text.ofString k) = true)
    (hd : d.isKeywordOf ks = true) : Text.toString (Text.lower v) ∈ ks := by
  cases d with
  | ident n =>
    have hmem : Text.toString (Text.lower n) ∈ ks := contains_iff_mem.mp hd
    rwa [← h.write_eq, write, Name.writeIdentifier_of_isHyphened (Text.isHyphened_of_lower rfl (hks _ hmem))]
  | _ => contradiction

end Spelled

/-! ## Before other texts

  What follows is scanned for itself; this is how the text of a font is taken apart.
-/

/-- A text that begins with no blank and no comment. -/
def Begins (t : Text) : Prop := ∃ c u, t = c :: u ∧ Text.isBlank c = false ∧ c ≠ '/'

/-- So does what is scanned. -/
theorem Begins.exists_normalize (h : Begins t) :
    ∃ c u, Lexeme.normalize t = c :: u ∧ Text.isCssBlank c = false ∧ c ≠ '/' := by
  obtain ⟨c, u, rfl, hc, hslash⟩ := h
  have hne : c ≠ '\r' ∧ c ≠ '\x0C' :=
    ⟨fun heq => absurd (heq ▸ hc) (by decide), fun heq => absurd (heq ▸ hc) (by decide)⟩
  have hline : Text.unifyLineEnds (c :: u) = c :: Text.unifyLineEnds u := by
    rw [Text.unifyLineEnds]
    · rw [if_neg hne.1]
    · exact fun _ heq => absurd heq hne.1
  rw [Lexeme.normalize, hline, map_cons, if_neg hne.2]
  split
  · exact ⟨_, _, rfl, by decide, by decide⟩
  · refine ⟨_, _, rfl, ?_, hslash⟩
    by_contra hblank
    rw [Text.isBlank_of_isCssBlank (by simpa using hblank)] at hc
    contradiction

/-- A word of a font begins with neither white space nor a slash. -/
theorem Begins.of_spelled (h : Spelled v d) (hd : IsFontWord d) (r : Text) : Begins (v ++ r) := by
  obtain ⟨hne, hchars⟩ := h.isMeasureChar hd
  obtain ⟨c, w, rfl⟩ := exists_cons_of_ne_nil hne
  have hc := hchars c mem_cons_self
  refine ⟨c, w ++ r, rfl, Pattern.isBlank_of_isMeasureChar hc, ?_⟩
  rintro rfl
  exact absurd hc (by decide)

/-- **Before a space** the component stands in front. -/
theorem Spelled.parse_space (h : Spelled v d) (hd : IsFontWord d) (ht : Begins t) :
    parse (v ++ ' ' :: t) = d :: .whitespace [' '] :: parse t := by
  obtain ⟨c, u, htext, hblank, -⟩ := ht.exists_normalize
  refine parse_append (show _ = flatList [d, .whitespace [' ']] ++ _ from ?_)
  have hnormal : Lexeme.Normal (v ++ [' ']) :=
    Lexeme.normal_append.mpr ⟨(h.whole hd).normal, by decide⟩
  have hcons : v ++ ' ' :: t = v ++ [' '] ++ t := by simp
  rw [hcons, Lexeme.normalize_append hnormal, append_assoc, singleton_append, h.lexemes_append hd .space, htext,
    lexemes_blank hblank, flatList, hd.flat_eq]
  rfl

/-- **Before a slash** the component and the slash stand in front, if no comment begins there. -/
theorem Spelled.parse_slash (h : Spelled v d) (hd : IsFontWord d) {w : Text} {e : Component}
    (hw : Spelled w e) (he : IsFontWord e) (r : Text) :
    parse (v ++ '/' :: (w ++ r)) = d :: .literal ['/'] :: parse (w ++ r) := by
  refine parse_append (show _ = flatList [d, .literal ['/']] ++ _ from ?_)
  have hnormal : Lexeme.Normal (v ++ ['/']) :=
    Lexeme.normal_append.mpr ⟨(h.whole hd).normal, by decide⟩
  have hcons : v ++ '/' :: (w ++ r) = v ++ ['/'] ++ (w ++ r) := by simp
  obtain ⟨hne, hchars⟩ := hw.isMeasureChar he
  obtain ⟨c, w', rfl⟩ := exists_cons_of_ne_nil hne
  have hstar : (c :: (w' ++ Lexeme.normalize r)).head? ≠ some '*' := by
    intro heq
    have hc := hchars c mem_cons_self
    rw [Option.some.inj heq] at hc
    exact absurd hc (by decide)
  rw [hcons, Lexeme.normalize_append hnormal, append_assoc, singleton_append, h.lexemes_append hd .slash,
    Lexeme.normalize_append (hw.whole he).normal, cons_append, Lexeme.lexemes_slash hstar, flatList, hd.flat_eq]
  rfl

end Component

end CssShorthand
