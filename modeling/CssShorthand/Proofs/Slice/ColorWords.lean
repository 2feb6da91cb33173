/-
  THE WORDS OF A COLOR.

  A color without comments is a name of colors, a hash sign with digits, or a call of which only the last
  character closes a bracket (`Color.form_of_isColor`).  So each word of a color is one of these, or the
  beginning of such a call, or it holds nothing but what the arguments of colors are made of
  (`Color.Form.word`).

  A value is searched word by word, and a color in it is not always a word: `rgb(0, 0, 0)` has three. The
  classification `Color.Word` says what a search for another part can meet there. A comment would break it,
  as it may hold any word; so these lemmas ask that the text holds no start of a comment, and `Arguments`
  deals with comments where the value is a color by itself.
-/
import CssShorthand.Proofs.Slice.Image

namespace CssShorthand

open List

namespace Spot

variable {inside : Bool} {c : Char} {t w : Text}

/-- Without comments the walk goes from argument to argument, and past the last bracket. -/
theorem Passes.outside_cons (h : Passes ⟨inside, .outside⟩ (c :: t)) (hno : ¬['/', '*'] <:+: c :: t) :
    (isSpace c = true ∧ Passes ⟨inside, .outside⟩ t) ∨ (c = ')' ∧ Passes ⟨false, .outside⟩ t) ∨
      (inside = true ∧ isArgumentChar c = true ∧ Passes ⟨true, .outside⟩ t) := by
  obtain ⟨s, hs, hrest⟩ := passes_cons.mp h
  rcases eq_of_step_outside hs with ⟨rfl, rfl⟩ | ⟨hspace, rfl⟩ | ⟨-, rfl, rfl⟩ | ⟨hinside, hchar, rfl⟩
  · -- A slash is read only before a star.
    obtain ⟨t, rfl⟩ := hrest.exists_star
    exact absurd ⟨[], t, rfl⟩ hno
  · exact Or.inl ⟨hspace, hrest⟩
  · exact Or.inr (Or.inl ⟨rfl, hrest⟩)
  · exact Or.inr (Or.inr ⟨hinside, hchar, hrest⟩)

/-- A text without the start of a comment has none behind its first character. -/
theorem not_infix_of_cons (hno : ¬['/', '*'] <:+: c :: t) : ¬['/', '*'] <:+: t :=
  fun h => hno (h.trans (suffix_cons c t).isInfix)

/-- Behind the last bracket there is no other. -/
theorem not_passes_behind (hno : ¬['/', '*'] <:+: w ++ [')']) : ¬Passes ⟨false, .outside⟩ (w ++ [')']) := by
  intro h
  have hstep : ∀ {c : Char} {t : Text}, Passes ⟨false, .outside⟩ (c :: t) → isSpace c = true ∨ c = '/' := by
    intro c t h
    obtain ⟨s, hs, -⟩ := passes_cons.mp h
    rcases eq_of_step_outside hs with h | h | h | h
    · exact Or.inr h.1
    · exact Or.inl h.1
    · exact absurd h.1 (by decide)
    · exact absurd h.1 (by decide)
  induction w with
  | nil => exact (hstep h).elim (by decide) (by decide)
  | cons c w ih =>
    rcases h.outside_cons hno with ⟨-, h⟩ | ⟨rfl, -⟩ | ⟨h, -⟩
    · exact ih (not_infix_of_cons hno) h
    · exact (hstep h).elim (by decide) (by decide)
    · contradiction

/-- **Without comments there are only arguments and white space** between the brackets. -/
theorem forall_of_passes (h : Passes ⟨true, .outside⟩ (w ++ [')'])) (hno : ¬['/', '*'] <:+: w ++ [')']) :
    ∀ c ∈ w, isArgumentChar c = true ∨ isSpace c = true := by
  induction w with
  | nil => nofun
  | cons c w ih =>
    have hrest := not_infix_of_cons hno
    rcases h.outside_cons hno with ⟨hc, h⟩ | ⟨-, h⟩ | ⟨-, hc, h⟩
    · exact forall_mem_cons.mpr ⟨Or.inr hc, ih h hrest⟩
    · exact absurd h (not_passes_behind hrest)
    · exact forall_mem_cons.mpr ⟨Or.inl hc, ih h hrest⟩

/-- What the walk over a color counts as space is white space. -/
theorem isBlank_of_isSpace (h : isSpace c = true) : Text.isBlank c = true := by
  simp only [isSpace, Bool.or_eq_true, beq_iff_eq] at h
  rcases h with (h | rfl) | rfl
  · exact Text.isBlank_of_isCssBlank h
  · decide
  · decide

end Spot

namespace Color

variable {u w : Text}

/-- The functions that make colors. -/
def functions : List String := ["rgb", "rgba", "hsl", "hsla"]

/-- What a color without comments looks like. -/
inductive Form : Text → Prop
  | name {u : Text} (chars : ∀ c ∈ u, Text.isPlain c = true ∧ Name.isChar c = true)
      (mem : Text.toString (Text.lower u) ∈ names) : Form u
  | hash {u : Text} (chars : ∀ c ∈ u, Text.isPlain c = true) : Form ('#' :: u)
  | call {n inside : Text} (chars : ∀ c ∈ n, Text.isPlain c = true ∧ Name.isChar c = true)
      (mem : Text.toString (Text.lower n) ∈ functions)
      (arguments : ∀ c ∈ inside, Spot.isArgumentChar c = true ∨ Spot.isSpace c = true) :
      Form (n ++ '(' :: (inside ++ [')']))

/-- A character of a color is plain, stands in its arguments, or is the hash or a bracket.  No other one
    occurs in it: this is why neither a quote nor a slash is ever inside. -/
theorem Form.not_mem (h : Form u) (hplain : Text.isPlain c = false)
    (hargument : (Spot.isArgumentChar c || Spot.isSpace c) = false) (hother : c ∉ ['#', '(', ')']) : c ∉ u := by
  have hnot : ∀ {x : Text}, (∀ d ∈ x, Text.isPlain d = true) → c ∉ x := fun hx hm => by simp [hx c hm] at hplain
  simp only [mem_cons, not_mem_nil, or_false, not_or] at hother
  cases h with
  | name chars => exact hnot fun d hd => (chars d hd).1
  | hash chars => exact not_mem_cons_of_ne_of_not_mem hother.1 (hnot chars)
  | @call n inside chars _ arguments =>
    have hinside : c ∉ inside := fun hm => by
      rw [Bool.or_eq_false_iff] at hargument
      simpa [hargument] using arguments c hm
    simpa [hinside, hother] using hnot fun d hd => (chars d hd).1

/-- A word that is a color is a name of colors. -/
theorem mem_names_of_isColor (hne : u ≠ []) (hu : ∀ c ∈ u, Text.isPlain c = true ∧ Name.isChar c = true)
    (h : isColor u = true) : Text.toString (Text.lower u) ∈ names := by
  obtain ⟨c, t, rfl⟩ := exists_cons_of_ne_nil hne
  have hplain := (hu c mem_cons_self).1
  have hnormal : Lexeme.Normal (c :: t) := Lexeme.normal_of_plain fun d hd => (hu d hd).1
  have htake : Name.take (c :: t) = (c :: t, []) := by
    have := Name.take_append_of_isChar (fun d hd => (hu d hd).2) (t := [])
    simpa [Name.take] using this
  have htext : Lexeme.normalize (c :: t) = c :: t := by
    have := Lexeme.normalize_append hnormal []
    simpa [Lexeme.normalize, Text.unifyLineEnds] using this
  obtain ⟨d, r, rest, closing, back, hd, hflat, hreading, -⟩ := exists_reading h htext
    (Text.isCssBlank_of_isPlain hplain) (Text.ne_of_isPlain hplain (by decide))
  -- The word is read as a name, since it takes all characters and no bracket follows.
  cases d with
  | ident n =>
    have hn := Lexeme.Reading.of_ident hreading
    rw [htake] at hn
    rw [(Prod.mk.inj hn).1]
    simpa [isComponent] using hd
  | hash n b => exact absurd (hreading.of_leaf.2 n b rfl ▸ hplain) (by decide)
  | function n arguments =>
    have hend := (Lexeme.Reading.of_call hreading).2
    rw [htake] at hend
    contradiction
  | _ => contradiction

/-- **A color without comments has one of these forms.** -/
theorem form_of_isColor (hu : Pattern.Matches .colorLike u) (h : isColor u = true)
    (hno : ¬['/', '*'] <:+: u) : Form u := by
  rcases Pattern.cases_of_matches_colorLike hu with ⟨n, inside, rfl, hne, hn⟩ | ⟨digits, rfl, hdigits, -⟩ |
    ⟨hne, hchars⟩
  · obtain ⟨hmem, hpasses⟩ := passes_of_isColor hne hn h
    refine .call hn hmem (Spot.forall_of_passes hpasses fun hwithin => hno (hwithin.trans ?_))
    exact ((suffix_cons '(' _).trans (suffix_append n _)).isInfix
  · exact .hash hdigits
  · exact .name hchars (mem_names_of_isColor hne hchars h)

/-- No color without comments is a keyword for every property. -/
theorem Form.leads (hne : u ≠ []) (h : Form u) : Leads u := by
  have hapart : ∀ n ∈ names ++ functions, n ∉ cssWideKeywords := by decide +kernel
  cases h with
  | name chars mem =>
    have hleads := Leads.of_name hne chars (Or.inl rfl) (hapart _ (mem_append_left _ mem))
    rwa [append_nil] at hleads
  | hash => exact .of_head (by decide +kernel) ⟨by decide, by decide, by decide⟩ (by decide) (by decide) (by decide)
  | @call n inside chars mem arguments =>
    have hn : n ≠ [] := by
      rintro rfl
      exact absurd mem (by decide)
    exact .of_name hn chars (Or.inr ⟨_, rfl⟩) (hapart _ (mem_append_right _ mem))

/-- What a word of a color looks like. -/
inductive Word : Text → Prop
  | name {w : Text} (chars : ∀ c ∈ w, Text.isPlain c = true)
      (mem : Text.toString (Text.lower w) ∈ names) : Word w
  | hash {w : Text} : Word ('#' :: w)
  | call {n w : Text} (chars : ∀ c ∈ n, Text.isPlain c = true)
      (mem : Text.toString (Text.lower n) ∈ functions) : Word (n ++ '(' :: w)
  | arguments {w : Text} (chars : ∀ c ∈ w, Spot.isArgumentChar c = true ∨ c = ')') : Word w

/-- A text without blanks has no other word. -/
theorem eq_of_mem_words {u : Text} (hu : ∀ c ∈ u, Text.isBlank c = false) (hw : w ∈ Text.words u) : w = u := by
  cases u with
  | nil => exact absurd hw not_mem_nil
  | cons c u =>
    rw [Text.words_of_word (cons_ne_nil c u) hu] at hw
    exact mem_singleton.mp hw

/-- The words of a call: the first holds its bracket, and the others stand between the brackets. -/
theorem word_of_mem_words_call {n inside : Text} (chars : ∀ c ∈ n, Text.isPlain c = true)
    (mem : Text.toString (Text.lower n) ∈ functions)
    (arguments : ∀ c ∈ inside, Spot.isArgumentChar c = true ∨ Spot.isSpace c = true)
    (hw : w ∈ Text.words (n ++ '(' :: (inside ++ [')']))) : Word w := by
  obtain ⟨-, hblank, a, r, happend, ha, hr⟩ := Text.mem_words_iff.mp hw
  have hcons : n ++ '(' :: (inside ++ [')']) = (n ++ ['(']) ++ (inside ++ [')']) := by simp
  have hfront : ∀ c ∈ n ++ ['('], Text.isBlank c = false := fun c hc =>
    (mem_append.mp hc).elim (fun hc => Text.isBlank_of_isPlain (chars c hc))
      fun hc => mem_singleton.mp hc ▸ by decide
  -- The first word starts with the name; any other one starts behind white space, and so behind the opening
  -- bracket.
  rcases eq_nil_or_concat a with rfl | ⟨a, d, rfl⟩
  · rw [hcons, nil_append] at happend
    obtain ⟨y, rfl, -⟩ := Text.exists_append_of_front hfront hr happend
    rw [append_assoc]
    exact .call chars mem
  · rw [concat_eq_append, reverse_append] at ha
    have hd : Text.isBlank d = true := ha
    rw [hcons, concat_eq_append] at happend
    rcases append_eq_append_iff.mp happend with ⟨y, hy, hinside⟩ | ⟨y, hy, -⟩
    · refine .arguments fun c hc => ?_
      have hmem : c ∈ inside ++ [')'] := by
        rw [hinside]
        simp [hc]
      rcases mem_append.mp hmem with hmem | hmem
      · refine Or.inl ((arguments c hmem).resolve_right fun hspace => ?_)
        have := Spot.isBlank_of_isSpace hspace
        rw [hblank c hc] at this
        contradiction
      · exact Or.inr (mem_singleton.mp hmem)
    · rw [hfront d (by simp [hy])] at hd
      contradiction

/-- **The words of a color.** -/
theorem Form.word (h : Form u) (hw : w ∈ Text.words u) : Word w := by
  cases h with
  | name chars mem =>
    obtain rfl := eq_of_mem_words (fun c hc => Text.isBlank_of_isPlain (chars c hc).1) hw
    exact .name (fun c hc => (chars c hc).1) mem
  | hash chars =>
    have hblank : ∀ c ∈ '#' :: _, Text.isBlank c = false :=
      forall_mem_cons.mpr ⟨by decide, fun c hc => Text.isBlank_of_isPlain (chars c hc)⟩
    obtain rfl := eq_of_mem_words hblank hw
    exact .hash
  | call chars mem arguments =>
    exact word_of_mem_words_call (fun c hc => (chars c hc).1) mem arguments hw

/-- **No word of a color begins an image.** -/
theorem Word.not_imageWord (h : Word w) : ¬Pattern.ImageWord w := by
  rintro ⟨name, y, rfl, hname, hy⟩
  obtain ⟨d, hd, hletter⟩ := hname.letter
  generalize hw : name ++ y = w at h
  -- An image starts with a name that is neither that of a color nor that of a color function.
  cases h with
  | name chars mem =>
    subst hw
    rcases hy with ⟨z, rfl⟩ | ⟨rfl, hnone⟩
    · exact absurd (chars '(' (by simp)) (by decide)
    · rw [append_nil] at mem
      cases hnone with
      | word hnone => exact Pattern.lower_not_mem_of_map_foldCase hnone (by decide +kernel) mem
  | hash =>
    obtain ⟨e, n, rfl⟩ := exists_cons_of_ne_nil (ne_nil_of_mem hd)
    have hplain := hname.plain e mem_cons_self
    rw [(cons.inj hw).1] at hplain
    contradiction
  | @call n w chars mem =>
    rcases hy with ⟨z, rfl⟩ | ⟨rfl, -⟩
    · obtain ⟨rfl, -⟩ := Text.front_unique hname.plain chars (Text.forall_mem_head?_cons (by decide))
        (Text.forall_mem_head?_cons (by decide)) hw
      exact hname.apart (mem_append_left _ mem)
    · rw [append_nil] at hw
      exact absurd (hname.plain '(' (by simp [hw])) (by decide)
  | arguments chars =>
    rcases chars d (by simp [← hw, hd]) with hargument | rfl
    · rw [hletter] at hargument
      contradiction
    · exact absurd (hname.plain _ hd) (by decide)

/-- **No word of a color is one of these keywords**, if they name no color and have letters that no
    argument has. -/
theorem Word.not_matches_keyword {ks : List String} (hplain : Pattern.UsesPlain (.keyword ks))
    (hapart : ∀ k ∈ ks, ∀ n ∈ names,
      (Text.ofString k).map Text.foldCase ≠ (Text.ofString n).map Text.foldCase)
    (hletter : ∀ k ∈ ks, (k.toList.any fun f => !Spot.isArgumentChar (Text.foldCase f)) = true)
    (h : Word w) : ¬Pattern.Matches (.keyword ks) w := by
  intro hw
  have hchars := hw.forall_mem hplain
  cases h with
  | name chars mem => exact Pattern.lower_not_mem_of_matches hapart hw mem
  | hash => exact absurd (hchars '#' mem_cons_self) (by decide)
  | call chars mem => exact absurd (hchars '(' (by simp)) (by decide)
  | arguments chars =>
    obtain ⟨k, hk, hfold⟩ := Pattern.exists_of_matches_keyword hw
    obtain ⟨d, hd, hnot⟩ := Pattern.exists_not_isArgumentChar hfold (hletter k hk)
    rcases chars d hd with hargument | rfl
    · rw [hnot] at hargument
      contradiction
    · exact absurd (hchars _ hd) (by decide)

end Color

end CssShorthand
