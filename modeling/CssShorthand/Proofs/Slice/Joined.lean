/-
  SLICING A BORDER THAT WAS JOINED.

  The values that a border is folded from are written with spaces between.  Its width stands first and
  is found there; the search for a color passes the style, since no style is a color, and takes the
  color to its end, also if there are blanks in it; the style is what is left (`slice_join`).

  None of these values is a keyword that every property takes (`Fits.width_not_cssWide`,
  `Fits.style_not_cssWide`, `Color.cssWideKeyword?_eq_none`).
-/
import CssShorthand.Proofs.Cascade.Border
import CssShorthand.Proofs.Component.Whole
import CssShorthand.Proofs.Slice.Arguments
import CssShorthand.Proofs.Slice.Decides

namespace CssShorthand

open List

namespace Text

/-- A letter is no digit. -/
theorem isDigit_of_isAlpha {c : Char} (h : c.isAlpha = true) : isDigit c = false := by
  simp only [Char.isAlpha, Char.isUpper, Char.isLower, Bool.or_eq_true, Bool.and_eq_true,
    decide_eq_true_eq, UInt32.le_iff_toNat_le] at h
  have hbounds : 65 ≤ c.toNat ∧ c.toNat ≤ 122 := by
    have hA : 'A'.val.toNat = 65 := rfl
    have hZ : 'Z'.val.toNat = 90 := rfl
    have ha : 'a'.val.toNat = 97 := rfl
    have hz : 'z'.val.toNat = 122 := rfl
    unfold Char.toNat
    omega
  have hascii : c.toNat < 0x80 := by omega
  have h9 : '9'.val.toNat = 57 := rfl
  have hc : c.toNat = c.val.toNat := rfl
  simp only [isDigit, hascii, if_true, Char.isDigit, Bool.and_eq_false_iff, decide_eq_false_iff_not,
    UInt32.le_iff_toNat_le]
  omega

end Text

/-! ## Values that are words

  A width and a style are words of plain characters, and no style is a color. A width has a digit or is one
  of three keywords.
-/

namespace Component

variable {w : Text} {d : Component}

/-- A value that is its only part is what its component is written as. -/
theorem write_eq_of_split (hsplit : split w = [w]) (hd : significant (parse w) = [d]) : d.write = w := by
  rw [split, groups_of_significant isComment_of_mem_parse hd] at hsplit
  simpa [writeList] using hsplit

/-- A value that stands for a keyword of letters is this keyword in some case. -/
theorem lower_of_soleKeyword? {k : String} (hsplit : split w = [w])
    (hk : soleKeyword? (significant (parse w)) = some k)
    (halpha : (Text.ofString k).all Char.isAlpha = true) : Text.toString (Text.lower w) = k := by
  unfold soleKeyword? at hk
  split at hk
  · rename_i d hd
    have hwrite := write_eq_of_split hsplit hd
    unfold keyword? at hk
    split at hk
    · rename_i name
      have hname := Option.some.inj hk
      rw [write, Name.writeIdentifier_of_isAlpha (Text.isAlpha_of_lower hname halpha)] at hwrite
      rw [← hwrite, hname]
    · contradiction
  · contradiction

end Component

/-- A value that is its own and only part is a keyword for every property only if it is one in some case. -/
theorem cssWideKeyword?_eq_none {w : Text} (hsplit : Component.split w = [w])
    (hwide : Text.toString (Text.lower w) ∉ cssWideKeywords) : cssWideKeyword? w = none := by
  by_contra hsome
  obtain ⟨k, hk⟩ := Option.ne_none_iff_exists'.mp hsome
  obtain ⟨hsole, hmem⟩ := cssWideKeyword?_eq_some_iff.mp hk
  have hletters : ∀ k ∈ cssWideKeywords, (Text.ofString k).all Char.isAlpha = true := by decide
  have hlower := Component.lower_of_soleKeyword? hsplit hsole (hletters k hmem)
  exact absurd (hlower ▸ hmem) hwide

namespace Pattern

variable {u : Text}

/-- A match of a list of keywords spells one of them in any case. By induction on the list, which is a choice
    of its words. -/
theorem exists_of_matches_keyword {ks : List String} (h : Matches (keyword ks) u) :
    ∃ k ∈ ks, (Text.ofString k).map Text.foldCase = u.map Text.foldCase := by
  unfold keyword at h
  induction ks with
  | nil =>
    cases h with
    | char h => contradiction
  | cons k ks ih =>
    cases h with
    | left h =>
      cases h with
      | word h => exact ⟨k, mem_cons_self, h⟩
    | right h =>
      obtain ⟨k', hk', hu⟩ := ih h
      exact ⟨k', mem_cons_of_mem _ hk', hu⟩

/-- A keyword of one list is none of another if the lists share no keyword, also up to case. -/
theorem lower_not_mem_of_matches {ks others : List String}
    (hapart : ∀ k ∈ ks, ∀ k' ∈ others,
      (Text.ofString k).map Text.foldCase ≠ (Text.ofString k').map Text.foldCase)
    (h : Matches (keyword ks) u) : Text.toString (Text.lower u) ∉ others := by
  intro hmem
  obtain ⟨k, hk, hu⟩ := exists_of_matches_keyword h
  refine hapart k hk _ hmem (hu.trans ?_)
  rw [← Text.map_foldCase_lower u]
  simp [Text.toString, Text.ofString]

/-- One digit or more is not nothing. -/
theorem exists_isDigit_of_matches_digits (h : Matches (oneOrMore digit) u) :
    ∃ c ∈ u, Text.isDigit c = true := by
  cases h with
  | seq hfirst hrest =>
    cases hfirst with
    | char hc => exact ⟨_, mem_append_left _ mem_cons_self, hc⟩

/-- A number has a digit. -/
theorem exists_isDigit_of_matches_number (h : Matches number u) : ∃ c ∈ u, Text.isDigit c = true := by
  cases h with
  | @seq _ _ sign digits hsign hdigits =>
    suffices hmem : ∃ c ∈ digits, Text.isDigit c = true by
      obtain ⟨c, hc, hdigit⟩ := hmem
      exact ⟨c, mem_append_right _ hc, hdigit⟩
    cases hdigits with
    | left h =>
      simp only [matches_all_cons_iff, matches_all_nil_iff] at h
      obtain ⟨_, _, rfl, -, _, _, rfl, -, _, _, rfl, h, rfl⟩ := h
      obtain ⟨c, hc, hdigit⟩ := exists_isDigit_of_matches_digits h
      exact ⟨c, mem_append_right _ (mem_append_right _ (mem_append_left _ hc)), hdigit⟩
    | right h => exact exists_isDigit_of_matches_digits h

/-- A length has a digit. -/
theorem exists_isDigit_of_matches_length (h : Matches length u) : ∃ c ∈ u, Text.isDigit c = true := by
  cases h with
  | left h =>
    cases h with
    | seq hnumber _ =>
      obtain ⟨c, hc, hdigit⟩ := exists_isDigit_of_matches_number hnumber
      exact ⟨c, mem_append_left _ hc, hdigit⟩
  | right h =>
    rw [eq_of_matches_just h]
    exact ⟨'0', mem_singleton_self _, by decide⟩

end Pattern

namespace Part

/-- The width of a border. -/
def width : Part := plain "-width" (.either .length (.keyword borderWidths))

/-- The style of a border. -/
def style : Part := plain "-style" (.keyword borderStyles)

/-- The parts of a border in the order in which they are taken. -/
theorem border_eq : border = [width, color, style] := rfl

/-- A text that a part takes all of, and that is its own and only part. -/
structure Fits (p : Part) (u : Text) : Prop where
  matches_pattern : Pattern.Matches p.pattern u
  accepts : p.accepts u = true
  split_eq : Component.split u = [u]

variable {w c st u : Text}

theorem usesPlain_width : Pattern.UsesPlain width.pattern :=
  ⟨Pattern.usesPlain_length, Pattern.usesPlain_keyword (by decide +kernel)⟩

theorem usesPlain_style : Pattern.UsesPlain style.pattern :=
  Pattern.usesPlain_keyword (by decide +kernel)

/-- A width is spelled with plain characters. -/
theorem Fits.isPlain_width (h : width.Fits w) : ∀ x ∈ w, Text.isPlain x = true :=
  h.matches_pattern.forall_mem usesPlain_width

/-- A style is spelled with plain characters. -/
theorem Fits.isPlain_style (h : style.Fits st) : ∀ x ∈ st, Text.isPlain x = true :=
  h.matches_pattern.forall_mem usesPlain_style

/-- What fits the color is read as a color. -/
theorem Fits.isColor (h : color.Fits c) : Color.isColor c = true := by
  simpa [Part.accepts, color] using h.accepts

/-- No part takes nothing. -/
theorem Fits.ne_nil {p : Part} (h : p.Fits u) : u ≠ [] := by
  rintro rfl
  have hsplit := h.split_eq
  revert hsplit
  decide +kernel

/-- A width is no keyword that every property takes. -/
theorem Fits.width_not_cssWide (h : width.Fits w) :
    Text.toString (Text.lower w) ∉ cssWideKeywords := by
  have hmatch : Pattern.Matches (.either .length (.keyword borderWidths)) w := h.matches_pattern
  cases hmatch with
  | left hlength =>
    -- A length has a digit, and these keywords have letters only.
    have hletters : ∀ k ∈ cssWideKeywords, (Text.ofString k).all Char.isAlpha = true := by decide
    obtain ⟨x, hx, hdigit⟩ := Pattern.exists_isDigit_of_matches_length hlength
    intro hmem
    have halpha := Text.isAlpha_of_lower rfl (hletters _ hmem) x hx
    rw [Text.isDigit_of_isAlpha halpha] at hdigit
    contradiction
  | right hkeyword => exact Pattern.lower_not_mem_of_matches (by decide) hkeyword

/-- No style is one of the keywords of every property. -/
theorem Fits.style_not_cssWide (h : style.Fits st) :
    Text.toString (Text.lower st) ∉ cssWideKeywords :=
  Pattern.lower_not_mem_of_matches (by decide) h.matches_pattern

/-- No style is a color. -/
theorem Fits.style_not_color (h : style.Fits st) : Color.isColor st = false := by
  by_contra hcolor
  obtain ⟨d, _, _, hcomponent, hd, -⟩ := Color.exists_parse (by simpa using hcolor)
  have hwrite := Component.write_eq_of_split h.split_eq hd
  have hplain := h.isPlain_style
  cases d with
  | ident name =>
    have hname : Text.toString (Text.lower name) ∈ Color.names := by
      simpa [Color.isComponent] using hcomponent
    have hst := Component.lower_of_soleKeyword? h.split_eq (by rw [hd]; rfl)
      (Color.all_isAlpha _ (mem_append_left _ hname))
    exact Pattern.lower_not_mem_of_matches (by decide +kernel) h.matches_pattern (hst ▸ hname)
  | hash name isIdentifier =>
    have hmem : '#' ∈ st := by
      rw [← hwrite, Component.write]
      exact mem_cons_self
    exact absurd (hplain _ hmem) (by decide)
  | function name arguments =>
    have hmem : '(' ∈ st := by
      rw [← hwrite, Component.write]
      simp
    exact absurd (hplain _ hmem) (by decide)
  | _ => contradiction

end Part

/-- A color that is a word is the name of a color, and that is no keyword for every property. -/
theorem Color.cssWideKeyword?_eq_none {c : Text} (h : isColor c = true) : cssWideKeyword? c = none := by
  by_contra hsome
  obtain ⟨k, hk⟩ := Option.ne_none_iff_exists'.mp hsome
  obtain ⟨hkeyword, hmem⟩ := cssWideKeyword?_eq_some_iff.mp hk
  obtain ⟨d, -, -, hd, hsole, -⟩ := exists_parse h
  rw [hsole] at hkeyword
  have hapart : ∀ k ∈ cssWideKeywords, k ∉ names := by decide +kernel
  cases d with
  | ident name =>
    obtain rfl : Text.toString (Text.lower name) = k := Option.some.inj hkeyword
    exact absurd (by simpa [isComponent] using hd) (hapart _ hmem)
  | _ => contradiction

/-! ## Colors as they are written

  The value comes from a box, where it was written by the writer: comments are gone and names need no
  escapes. So its characters are known, also inside of a call.
-/

namespace Color

variable {c : Text}

/-- The characters that are written for the arguments of a color. -/
def isWritten (x : Char) : Bool := Spot.isArgumentChar x || Text.isCssBlank x || x == '/' || x == '*'

/-- The arguments of a color function are numbers, percentages, commas and white space.  They are written with
    the characters of these, and with what the writer puts between two that would run together: no bracket
    and no quote, so that the pattern of a color function takes them whole. -/
theorem isWritten_of_mem_writeList {cs : List Component}
    (hcs : ∀ a ∈ cs, Lexeme.IsArgument a ∧ Lexeme.Formed (.leaf a)) :
    ∀ x ∈ Component.writeList cs, isWritten x = true := by
  -- The characters of one argument, and of what is put between two.
  have hone : ∀ a, Lexeme.IsArgument a → Lexeme.Formed (.leaf a) →
      ∀ x ∈ a.write, isWritten x = true := by
    intro a ha hformed x hx
    cases ha with
    | whitespace text => simp [isWritten, hformed.2.2 x hx]
    | number numeral =>
      have hnumeral : Number.IsNumeral numeral := hformed.2
      simp [isWritten, Spot.isArgumentChar, hnumeral.2 x hx]
    | percentage numeral =>
      have hnumeral : Number.IsNumeral numeral := hformed.2
      rcases mem_append.mp hx with hx | hx
      · simp [isWritten, Spot.isArgumentChar, hnumeral.2 x hx]
      · rw [mem_singleton.mp hx]
        decide
    | comma =>
      rw [mem_singleton.mp hx]
      decide
  have hbetween : ∀ a b : Component, ∀ x ∈ Component.between a b, isWritten x = true := by
    intro a b
    unfold Component.between
    split
    · exact all_eq_true.mp rfl
    · split
      · exact forall_mem_singleton.mpr rfl
      · simp
  induction cs with
  | nil => simp [Component.writeList]
  | cons a cs ih =>
    obtain ⟨ha, hformed⟩ := hcs a mem_cons_self
    have hrest := ih fun b hb => hcs b (mem_cons_of_mem _ hb)
    cases cs with
    | nil => exact hone a ha hformed
    | cons b cs =>
      intro x hx
      rw [Component.writeList] at hx
      rcases mem_append.mp hx with hx | hx
      · exact (mem_append.mp hx).elim (hone a ha hformed x) (hbetween a b x)
      · exact hrest x hx

/-- The arguments of a color are among the lexemes of its text. -/
theorem leaf_mem_flatList_parse {n : Text} {cs front back : List Component}
    (hd : isComponent (.function n cs) = true) (hparse : Component.parse c = front ++ [.function n cs] ++ back) :
    ∀ a ∈ cs, .leaf a ∈ Component.flatList (Component.parse c) := by
  intro a ha
  rw [hparse, Component.flatList_append, Component.flatList_append]
  refine mem_append_left _ (mem_append_right _ ?_)
  rw [Component.flatList, Component.flat,
    Component.flatList_of_isLeaf fun b hb => (isLeaf_of_isComponent hd b hb).1]
  simp [ha]

/-- They are well-formed arguments. -/
theorem isArgument_of_mem {n : Text} {cs front back : List Component}
    (hd : isComponent (.function n cs) = true) (hparse : Component.parse c = front ++ [.function n cs] ++ back)
    (hfault : Component.Faultless (Component.parse c)) :
    ∀ a ∈ cs, Lexeme.IsArgument a ∧ Lexeme.Formed (.leaf a) := by
  intro a ha
  have hformed := Component.formed_of_mem_flatList_parse hfault _ (leaf_mem_flatList_parse hd hparse a ha)
  exact ⟨isArgument_of_isComponent hd a ha hformed.isComment_eq_false, hformed⟩

/-- A call that makes a color is written with the letters of its name and with its last bracket. -/
theorem write_function {n : Text} {cs : List Component} (hd : isComponent (.function n cs) = true) :
    (∀ x ∈ n, x.isAlpha = true) ∧
      (Component.function n cs).write = n ++ '(' :: (Component.writeList cs ++ [')']) := by
  have hn : Text.toString (Text.lower n) ∈ ["rgb", "rgba", "hsl", "hsla"] := mem_of_isComponent hd
  have halpha := Text.isAlpha_of_lower rfl (all_isAlpha _ (mem_append_right _ hn))
  have hend := Component.endInString_eq_false cs
    (Component.faultless_function.mp (faultless_of_isComponent hd))
  refine ⟨halpha, ?_⟩
  rw [Component.write, Name.writeIdentifier_of_isAlpha halpha, hend]
  simp

/-- A color that is its own and only part holds nothing but what colors are made of. -/
theorem cases_of_fits (h : Part.color.Fits c) :
    (∀ x ∈ c, x = '#' ∨ Text.isPlain x = true) ∨
      ∃ name inside, c = name ++ '(' :: (inside ++ [')']) ∧ (∀ x ∈ name, Text.isPlain x = true) ∧
        ∀ x ∈ inside, isWritten x = true := by
  rcases Pattern.cases_of_matches_colorLike h.matches_pattern with ⟨name, inside, hc, hne, hname⟩ |
    ⟨digits, rfl, hdigits, -⟩ | ⟨-, hplain⟩
  · refine Or.inr ?_
    obtain ⟨d, front, back, hd, hsole, hparse, -, -, hfault⟩ := exists_parse h.isColor
    have hwrite := Component.write_eq_of_split h.split_eq hsole
    -- The value is written as one component; as it has a bracket, this is a function.
    cases d with
    | ident n =>
      have hn : Text.toString (Text.lower n) ∈ names := by simpa [isComponent] using hd
      have halpha := Text.isAlpha_of_lower rfl (all_isAlpha _ (mem_append_left _ hn))
      rw [Component.write, Name.writeIdentifier_of_isAlpha halpha] at hwrite
      have hparen : '(' ∈ n := by
        rw [hwrite, hc]
        simp
      exact absurd (halpha _ hparen) (by decide)
    | hash n isIdentifier =>
      obtain ⟨x, m, rfl⟩ := exists_cons_of_ne_nil hne
      rw [Component.write, hc] at hwrite
      have hx : '#' = x := (cons.inj hwrite).1
      exact absurd (hname x mem_cons_self).1 (hx ▸ by decide)
    | function n arguments =>
      obtain ⟨halpha, htext⟩ := write_function hd
      refine ⟨n, Component.writeList arguments, by rw [← hwrite, htext], fun x hx => ?_,
        isWritten_of_mem_writeList (isArgument_of_mem hd hparse hfault)⟩
      simp [Text.isPlain, Char.isAlphanum, halpha x hx]
    | _ => exact absurd hd Bool.false_ne_true
  · exact Or.inl fun x hx => (mem_cons.mp hx).imp_right (hdigits x)
  · exact Or.inl fun x hx => Or.inr (hplain x hx).1

end Color

/-! ## Slicing

  Three searches: the first finds the width in front, the second passes the style, the third has only the
  style left.
-/

namespace Part

variable {w st c u : Text}

/-- A part of plain characters that asks for no slash is a whole word: there is no white space in it. -/
theorem isWord_of_plain {p : Part} (hslash : p.followsSlash = false)
    (hplain : Pattern.UsesPlain p.pattern) (hne : ∀ u, Pattern.Matches p.pattern u → u ≠ []) :
    p.IsWord where
  followsSlash := hslash
  starts u hu := by
    obtain ⟨x, v, rfl⟩ := exists_cons_of_ne_nil (hne u hu)
    exact ⟨x, v, rfl, Text.isBlank_of_isPlain (hu.forall_mem hplain x mem_cons_self)⟩

/-- No keyword is empty, so none matches nothing. -/
theorem ne_nil_of_matches_keyword {ks : List String} (hks : "" ∉ ks)
    (h : Pattern.Matches (.keyword ks) u) : u ≠ [] := by
  rintro rfl
  obtain ⟨k, hk, hfold⟩ := Pattern.exists_of_matches_keyword h
  have hempty : k = "" := by
    rw [← String.toList_inj]
    simpa [Text.ofString] using hfold
  exact hks (hempty ▸ hk)

/-- A width is a keyword or a number with a unit. -/
theorem isWord_width : width.IsWord := by
  refine isWord_of_plain rfl usesPlain_width fun u hu => ?_
  have hu : Pattern.Matches (.either .length (.keyword borderWidths)) u := hu
  cases hu with
  | left h =>
    rintro rfl
    obtain ⟨x, hx, -⟩ := Pattern.exists_isDigit_of_matches_length h
    simp at hx
  | right h => exact ne_nil_of_matches_keyword (by decide) h

/-- A style is a keyword. -/
theorem isWord_style : style.IsWord :=
  isWord_of_plain rfl usesPlain_style fun _ hu => ne_nil_of_matches_keyword (by decide) hu

/-- A color is a hash, a word of letters or a call whose arguments may hold white space. It is a word all the
    same, as the call ends with a bracket. -/
theorem isWord_color : color.IsWord where
  followsSlash := rfl
  starts u hu := by
    rcases Pattern.cases_of_matches_colorLike hu with ⟨name, inside, rfl, hne, hname⟩ |
      ⟨digits, rfl, -⟩ | ⟨hne, hplain⟩
    · obtain ⟨x, n, rfl⟩ := exists_cons_of_ne_nil hne
      exact ⟨x, _, rfl, Text.isBlank_of_isPlain (hname x mem_cons_self).1⟩
    · exact ⟨'#', digits, rfl, by decide⟩
    · obtain ⟨x, v, rfl⟩ := exists_cons_of_ne_nil hne
      exact ⟨x, v, rfl, Text.isBlank_of_isPlain (hplain x mem_cons_self).1⟩

/-- A plain part takes a plain word, and only all of it. -/
theorem eq_of_plain {p : Part} (hplain : Pattern.UsesPlain p.pattern) (hw : ∀ x ∈ w, Text.isPlain x = true)
    {r v s : Text} (hr : Text.atBreak r = true) (h : w ++ r = v ++ s) (hv : Pattern.Matches p.pattern v)
    (hs : Text.atBreak s = true) : v = w :=
  (Text.eq_of_append_of_atBreak (fun x hx => Text.isBlank_of_isPlain (hw x hx))
    (Pattern.isBlank_of_isPlain_of_matches hv hplain) hr hs h).symm

/-- A style is passed in the search for a color. -/
theorem rejected_of_style (hst : style.Fits st) {t v s : Text} (h : st ++ ' ' :: t = v ++ s)
    (hv : Pattern.Matches color.pattern v) (hs : Text.atBreak s = true) :
    v = st ∧ color.accepts v = false := by
  have hplain := hst.isPlain_style
  rcases Pattern.call_or_word_of_matches_colorLike hv with ⟨n, e, rfl, hn, he⟩ | hall
  · -- A style ends with no bracket.
    obtain ⟨inside, rfl⟩ := Pattern.exists_of_matches_arguments he
    rw [append_assoc] at h
    have hend := (Text.front_unique hplain hn (Text.forall_mem_head?_cons (by decide))
      (Text.forall_mem_head?_cons (by decide)) h).2
    exact absurd (cons.inj hend).1 (by decide)
  · obtain rfl := Text.eq_of_append_of_atBreak (fun x hx => Text.isBlank_of_isPlain (hplain x hx))
      (fun x hx => (hall x hx).elim (fun he => he ▸ by decide) Text.isBlank_of_isPlain) rfl hs h
    refine ⟨rfl, ?_⟩
    simp [Part.accepts, color, hst.style_not_color]

/-- **A border that was joined is sliced into what it was joined of.** -/
theorem slice_join (hw : width.Fits w) (hst : style.Fits st) (hc : color.Fits c) :
    slice (Text.join [' '] [w, st, c]) border = ⟨[("-width", w), ("-color", c), ("-style", st)], []⟩ := by
  have hblank : ∀ x ∈ st, Text.isBlank x = false := fun x hx =>
    Text.isBlank_of_isPlain (hst.isPlain_style x hx)
  have hwidth : width.locate 0 true (w ++ ' ' :: (st ++ ' ' :: c)) =
      some ⟨[], w, ' ' :: (st ++ ' ' :: c)⟩ :=
    locate_of_only isWord_width hw.matches_pattern hw.accepts rfl fun _ _ h hv hs =>
      eq_of_plain usesPlain_width hw.isPlain_width rfl h hv hs
  -- The width is gone, and the style is stepped over as it is no color.
  have hcolor : color.locate 0 true (' ' :: ' ' :: (st ++ ' ' :: c)) =
      some ⟨' ' :: ' ' :: (st ++ [' ']), c, []⟩ := by
    have hfound : color.locate 0 true c = some ⟨[], c, []⟩ := by
      have := locate_of_only isWord_color hc.matches_pattern hc.accepts (r := []) rfl
        fun v s h hv hs => (Pattern.eq_of_colorLike hc.matches_pattern hv rfl hs h).symm
      rwa [append_nil] at this
    rw [locate_blank isWord_color rfl, locate_blank isWord_color rfl,
      locate_rejected isWord_color hst.ne_nil hblank fun v s h hv hs => rejected_of_style hst h hv hs,
      hfound]
    simp [Place.push]
  have hstyle : style.locate 0 true (' ' :: ' ' :: (st ++ [' ', ' '])) =
      some ⟨[' ', ' '], st, [' ', ' ']⟩ := by
    rw [locate_blank isWord_style rfl, locate_blank isWord_style rfl,
      locate_of_only isWord_style hst.matches_pattern hst.accepts rfl fun _ _ h hv hs =>
        eq_of_plain usesPlain_style hst.isPlain_style rfl h hv hs]
    rfl
  have hjoin : Text.join [' '] [w, st, c] = w ++ ' ' :: (st ++ ' ' :: c) := by
    simp [Text.join, intercalate_cons_cons]
  have htake : ∀ {p : Part} {value : Text} {place : Place}, p.IsWord →
      p.locate 0 true value = some place →
        Slices.takePart value p = (some place.text, place.before ++ ' ' :: place.after) := by
    intro p value place hp hplace
    simp [Slices.takePart, hplace, hp.content_eq]
  have hrest : ' ' :: ' ' :: (st ++ [' ']) ++ ' ' :: [] = ' ' :: ' ' :: (st ++ [' ', ' ']) := by simp
  have hspaces : Text.collapse ([' ', ' '] ++ ' ' :: [' ', ' ']) = [] := by decide
  rw [hjoin, border_eq, slice]
  simp only [Slices.takeParts, htake isWord_width hwidth, nil_append, htake isWord_color hcolor, hrest,
    htake isWord_style hstyle, hspaces]
  rfl

end Part

end CssShorthand
