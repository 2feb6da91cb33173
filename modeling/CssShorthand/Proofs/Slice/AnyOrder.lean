/-
  A BACKGROUND IN ANY ORDER.

  The components of a background (`BackgroundPiece`) may stand in any order, with any blanks between
  them.  They are taken out kind by kind, in the order of the table: when a kind has its turn, the row
  holds pieces of this kind and of later ones only (`BackgroundRow`).

  What one step needs of the pieces is said once for each kind: the search gets past the pieces of
  later kinds (`Fits.refuses`), and it finds its own piece with any of them behind it (`Fits.locate`).
  So a step takes the piece of its kind and leaves a row of the others (`BackgroundRow.takes_cons`).  In
  the end a position is left, with or without a size (`BackgroundRow.takes_position`).

  The order of the table does the work. An image is taken first, when any word may still be in the way, but
  only an image starts like one; a color is taken when the image, the attachment and the repetition are
  gone, and neither a position nor a size is a color. So each kind has to be told from later kinds only, and
  that is a comparison of keywords and of the characters with which a number starts.
-/
import CssShorthand.Proofs.Slice.Background
import CssShorthand.Proofs.Slice.Spaced

namespace CssShorthand

open List
open Text (Spaced)

/-! ## Pieces

  The kinds and the forms that a piece may have. A size stands behind the position and its slash, so the two
  are one piece.
-/

/-- The kinds of components of a background, in the order in which they are taken out. -/
inductive BackgroundKind where
  | image
  | attachment
  | repetition
  | color
  | position
  deriving DecidableEq

namespace BackgroundKind

/-- The place of a kind in the order. -/
def rank : BackgroundKind → Nat
  | image => 0
  | attachment => 1
  | repetition => 2
  | color => 3
  | position => 4

/-- The parts are taken in the order of `rank`, and no two of them at once. -/
theorem eq_of_rank {j k : BackgroundKind} (h : j.rank = k.rank) : j = k := by
  cases j <;> cases k <;> first | rfl | contradiction

/-- No image is behind another kind. -/
theorem ne_image {n : Nat} {k : BackgroundKind} (h : n < k.rank) : k ≠ image := by
  rintro rfl
  exact absurd h (Nat.not_lt_zero n)

/-- Only the position is taken after the color. -/
theorem eq_position {k : BackgroundKind} (h : color.rank < k.rank) : k = position := by
  revert h
  cases k <;> decide

/-- The part that takes a component of a kind out. -/
def part : BackgroundKind → Part
  | image => Part.backgroundImage
  | attachment => Part.attachment
  | repetition => Part.repetition
  | color => Part.color
  | position => Part.backgroundPosition

/-- Every part of a background but the size is a whole word, so the search steps over words. -/
theorem isWord_part (k : BackgroundKind) : k.part.IsWord :=
  match k with
  | image => Part.opens_backgroundImage.isWord
  | attachment => Part.opens_attachment.isWord
  | repetition => Part.opens_repetition.isWord
  | color => Part.isWord_color
  | position => Part.opens_backgroundPosition.isWord

/-- The lists that the keywords of a kind are from. -/
def lists : BackgroundKind → List (List String)
  | attachment => [backgroundAttachments]
  | repetition => [backgroundRepeats]
  | position => [backgroundPositions, backgroundSizes]
  | _ => []

end BackgroundKind

/-- A component of a background.  A position may have a size behind it: then `a` and `b` stand around
    the slash. -/
inductive BackgroundPiece where
  | single (k : BackgroundKind) (u : Text)
  | sized (p a b z : Text)

namespace BackgroundPiece

/-- The part of a background that takes the piece. A size that stands behind a position goes with it, as the
    slash between the two makes one piece of them. -/
def kind : BackgroundPiece → BackgroundKind
  | single k _ => k
  | sized .. => .position

/-- How a component is written. -/
def text : BackgroundPiece → Text
  | single _ u => u
  | sized p a b z => p ++ (a ++ '/' :: (b ++ z))

/-- What slicing is to find for a component. -/
def found : BackgroundPiece → List (String × Text)
  | single k u => [(k.part.suffix, u)]
  | sized p _ _ z => [(Part.size.suffix, z), (Part.backgroundPosition.suffix, p)]

/-- A component that matches what it is told by.  A color is one, and has no comments in it. -/
def Fits : BackgroundPiece → Prop
  | single k u => Pattern.Matches k.part.pattern u ∧ k.part.accepts u = true ∧
      (k.part.isColor = true → ¬['/', '*'] <:+: u)
  | sized p a b z => Pattern.Matches Part.backgroundPosition.pattern p ∧
      (∀ c ∈ a, Text.isBlank c = true) ∧ (∀ c ∈ b, Text.isBlank c = true) ∧
      Pattern.Matches Part.size.pattern z

variable {p q : BackgroundPiece} {a b r u v w z : Text} {c : Char} {k : BackgroundKind}

/-! ## The words of a piece

  What a search sees of a piece is its words. Those of a list are keywords or measures; those of a color
  have one of the forms of `Color.Word`.
-/

/-- A word of lengths, percentages, keywords of these lists and slashes. -/
def Measured (kss : List (List String)) (w : Text) : Prop :=
  '/' ∈ w ∨ ∃ ks ∈ kss, Pattern.Ordinary ks w

/-- A number with a unit starts with a digit, a sign or a point, and its keywords are not the other part's: so
    no word of a measured list is a keyword of another part. -/
theorem Measured.not_matches_keyword {kss : List (List String)} {others : List String}
    (hplain : Pattern.UsesPlain (.keyword others))
    (hdigit : ∀ k ∈ others, (k.toList.all fun f => !Text.isDigit (Text.foldCase f)) = true)
    (hapart : ∀ ks ∈ kss, ∀ k ∈ ks, ∀ k' ∈ others,
      (Text.ofString k).map Text.foldCase ≠ (Text.ofString k').map Text.foldCase)
    (h : Measured kss w) : ¬Pattern.Matches (.keyword others) w := by
  rcases h with hslash | ⟨ks, hks, h⟩
  · exact fun hm => absurd (hm.forall_mem hplain '/' hslash) (by decide)
  · exact h.not_matches_keyword (hapart ks hks) hdigit

/-- Such a word begins no image, if there is no bracket in it. -/
theorem Measured.not_imageWord {kss : List (List String)} (hapart : ∀ ks ∈ kss, ∀ k ∈ ks, ∀ k' ∈ ["none"],
      (Text.ofString k).map Text.foldCase ≠ (Text.ofString k').map Text.foldCase)
    (hparen : '(' ∉ w) (h : Measured kss w) : ¬Pattern.ImageWord w := by
  rcases h with hslash | ⟨ks, hks, h⟩
  · rintro ⟨name, y, rfl, hname, ⟨t, rfl⟩ | ⟨rfl, -⟩⟩
    · exact hparen (by simp)
    · rw [append_nil] at hslash
      exact absurd (hname.plain '/' hslash) (by decide)
  · exact h.not_imageWord (hapart ks hks) hparen

/-- Such a word is no color, if it is plain. -/
theorem Measured.not_isColor {kss : List (List String)} (hapart : ∀ ks ∈ kss, ∀ k ∈ ks, ∀ k' ∈ Color.names,
      (Text.ofString k).map Text.foldCase ≠ (Text.ofString k').map Text.foldCase)
    (hplain : ∀ c ∈ w, Text.isPlain c = true) (hw : Pattern.Matches .colorLike w) (h : Measured kss w) :
    Color.isColor w = false := by
  rcases h with hslash | ⟨ks, hks, h⟩
  · exact absurd (hplain '/' hslash) (by decide)
  · exact h.not_isColor (hapart ks hks) (fun c hc => Or.inl (hplain c hc)) hw

/-- The words of a list of lengths, percentages and keywords. -/
theorem measured_of_listOf {ks : List String} {n : Nat} (hplain : Pattern.UsesPlain (.keyword ks))
    (hne : "" ∉ ks) (hu : Pattern.Matches (.listOf n (Pattern.measure ks)) u) (hw : w ∈ Text.words u) :
    Measured [ks] w :=
  Or.inr ⟨ks, mem_singleton_self ks, Pattern.ordinary_of_matches
    (Pattern.matches_of_mem_words_listOf (Pattern.ofWords_measure hplain hne) hu w hw)⟩

/-- A measured word stays one when more keywords are let in. -/
theorem Measured.mono {kss lists : List (List String)} (hsub : kss ⊆ lists) (h : Measured kss w) :
    Measured lists w := h.imp_right fun ⟨ks, hks, hw⟩ => ⟨ks, hsub hks, hw⟩

/-- **The words of a piece that is no image and no color.** -/
theorem Fits.measured (h : p.Fits) (hkind : p.kind ≠ .image ∧ p.kind ≠ .color) (hw : w ∈ Text.words p.text) :
    Measured p.kind.lists w := by
  cases p with
  | single k u =>
    obtain ⟨hm, -, -⟩ := h
    cases k with
    | image => exact absurd rfl hkind.1
    | color => exact absurd rfl hkind.2
    | attachment =>
      have hm : Pattern.Matches (.keyword backgroundAttachments) u := hm
      obtain ⟨hne, hblank⟩ := Pattern.ofWords_keyword Part.usesPlain_attachments (by decide) u hm
      have hu : w ∈ Text.words u := hw
      rw [Text.words_of_word hne hblank, mem_singleton] at hu
      exact Or.inr ⟨_, mem_singleton_self _, Or.inl (hu ▸ hm)⟩
    | repetition =>
      have hm : Pattern.Matches (.keyword backgroundRepeats) w :=
        Pattern.matches_of_mem_words_listOf Part.ofWords_repeats hm w hw
      exact Or.inr ⟨_, mem_singleton_self _, Or.inl hm⟩
    | position =>
      exact (measured_of_listOf Part.usesPlain_positions (by decide) hm hw).mono (by simp [BackgroundKind.lists, kind])
  | sized p a b z =>
    obtain ⟨hp, ha, hb, hz⟩ := h
    have happend : w ∈ Text.words ((p ++ a) ++ '/' :: (b ++ z)) := by
      rw [append_assoc]
      exact hw
    -- The slash may stand alone, or in one word with the end of the position or the begin of the size.
    rcases Text.mem_words_append_cons (by decide) happend with hslash | hw | hw
    · exact Or.inl hslash
    · rw [Text.words_append_of_atBreak (Text.atBreak_of_blanks ha), Text.words_of_blanks ha, append_nil] at hw
      exact (measured_of_listOf Part.usesPlain_positions (by decide) hp hw).mono (by simp [BackgroundKind.lists, kind])
    · rw [Text.words_blanks_append hb] at hw
      exact (measured_of_listOf Part.usesPlain_sizes (by decide) hz hw).mono (by simp [BackgroundKind.lists, kind])

/-- **The characters of a piece that is no image and no color.** -/
theorem Fits.isListChar (h : p.Fits) (hkind : p.kind ≠ .image ∧ p.kind ≠ .color) (hc : c ∈ p.text) :
    Slices.IsListChar c := by
  have hplain : ∀ c, Text.isPlain c = true → Slices.IsListChar c := fun _ h => Or.inl (Or.inl h)
  have hlist : ∀ {q : Pattern} {n : Nat} {u : Text}, Pattern.Uses Pattern.IsMeasureChar q →
      Pattern.Matches (.listOf n q) u → ∀ c ∈ u, Slices.IsListChar c := fun hq hu =>
    hu.forall_mem (Pattern.uses_listOf (hq.mono fun _ => Or.inl) fun _ hc => Or.inr (Or.inl hc))
  have hposition : ∀ {u : Text}, Pattern.Matches Part.backgroundPosition.pattern u →
      ∀ c ∈ u, Slices.IsListChar c := hlist (Pattern.uses_measure Part.usesPlain_positions)
  -- Each kind is a list of keywords or measures, but for the two that are excluded; a size stands behind a
  -- slash.
  cases p with
  | single k u =>
    obtain ⟨hm, -, -⟩ := h
    cases k with
    | image => exact absurd rfl hkind.1
    | color => exact absurd rfl hkind.2
    | attachment => exact hm.forall_mem (Part.usesPlain_attachments.mono hplain) c hc
    | repetition => exact hlist (Part.usesPlain_repeats.mono fun _ => Or.inl) hm c hc
    | position => exact hposition hm c hc
  | sized p a b z =>
    obtain ⟨hp, ha, hb, hz⟩ := h
    have hmem : c ∈ p ++ (a ++ '/' :: (b ++ z)) := hc
    simp only [mem_append, mem_cons] at hmem
    rcases hmem with hc | hc | rfl | hc | hc
    · exact hposition hp c hc
    · exact Or.inr (Or.inl (ha c hc))
    · exact Or.inr (Or.inr rfl)
    · exact Or.inr (Or.inl (hb c hc))
    · exact hlist (Pattern.uses_measure Part.usesPlain_sizes) hz c hc

/-- What a color looks like. -/
theorem Fits.form (h : (single .color u).Fits) : Color.Form u :=
  Color.form_of_isColor h.1 h.2.1 (h.2.2 rfl)

/-- **A word of a piece that is no image** is one of a color, or of lengths, percentages and keywords. -/
theorem Fits.word (h : p.Fits) (himage : p.kind ≠ .image) (hw : w ∈ Text.words p.text) :
    Color.Word w ∨ Measured p.kind.lists w ∧ '(' ∉ w := by
  by_cases hcolor : p.kind = .color
  · cases p with
    | single k u =>
      obtain rfl : k = .color := hcolor
      exact Or.inl (h.form.word hw)
    | sized => contradiction
  · refine Or.inr ⟨h.measured ⟨himage, hcolor⟩ hw, fun hm => ?_⟩
    obtain ⟨-, -, a, r, hx, -⟩ := Text.mem_words_iff.mp hw
    have hmem : '(' ∈ p.text := by simp [hx, hm]
    exact absurd (h.isListChar ⟨himage, hcolor⟩ hmem) (by decide)

end BackgroundPiece

/-! ## The search goes on behind other pieces

  One lemma for each kind that is looked for, with all pieces of later kinds in the way.
-/

namespace Part

variable {x u w : Text}

/-- **The search for a color gets past words that are none**, if there is no bracket and no hash sign. -/
theorem refuses_color (hparen : '(' ∉ x) (hhash : '#' ∉ x)
    (hwords : ∀ w ∈ Text.words x, (∀ c ∈ w, Text.isPlain c = true) → Pattern.Matches .colorLike w →
      Color.isColor w = false) : color.Refuses x := by
  rintro a b rfl hne ha r hr u s hm
  obtain ⟨happend, hu, hs⟩ := isWord_color.of_matchAt? hm
  obtain ⟨c, v, hcons, hc⟩ := isWord_color.starts u hu
  have hstart : Text.atBreak b = false := by
    obtain ⟨d, b, rfl⟩ := exists_cons_of_ne_nil hne
    rw [hcons] at happend
    rw [Text.atBreak, (cons.inj happend).1, hc]
  obtain ⟨w, t, rfl, hwne, hblank, ht⟩ := Text.exists_word hstart
  have hbreak := Text.atBreak_append ht hr
  rw [append_assoc] at happend
  rcases Pattern.cases_of_matches_colorLike hu with ⟨n, inside, rfl, -, hn⟩ | ⟨digits, rfl, -⟩ | ⟨-, hplain⟩
  · -- The bracket of a call is in its first word.
    exfalso
    have hfront : ∀ c ∈ n ++ ['('], Text.isBlank c = false := fun c hc =>
      (mem_append.mp hc).elim (fun hc => Text.isBlank_of_isPlain (hn c hc).1) fun hc =>
        mem_singleton.mp hc ▸ by decide
    obtain ⟨y, rfl, -⟩ := Text.exists_append_of_front (t := inside ++ [')'] ++ s) hfront hbreak (by
      rw [happend]
      simp)
    exact hparen (by simp)
  · -- A hash sign would begin the word.
    exfalso
    obtain ⟨d, w, rfl⟩ := exists_cons_of_ne_nil hwne
    rw [cons_append, cons_append] at happend
    exact hhash (by simp [(cons.inj happend).1])
  · -- What matches is the whole word, and is not accepted.
    have hplain : ∀ c ∈ u, Text.isPlain c = true := fun c hc => (hplain c hc).1
    obtain rfl := Text.eq_of_append_of_atBreak hblank (fun c hc => Text.isBlank_of_isPlain (hplain c hc))
      hbreak hs happend
    refine ⟨by simp, ?_⟩
    have hmem := Text.mem_words_iff.mpr ⟨hwne, hblank, a, t, rfl, ha, ht⟩
    show (!true || Color.isColor w) = false
    rw [hwords w hmem hplain hu]
    rfl

end Part

namespace BackgroundPiece

variable {p q : BackgroundPiece} {a b r u v w z : Text} {c : Char} {k : BackgroundKind}

/-- **No word of a piece is one of these keywords**, if its own lists and the names of colors have
    none of them. -/
theorem Fits.not_matches_keyword {others : List String} (hplain : Pattern.UsesPlain (.keyword others))
    (hdigit : ∀ k ∈ others, (k.toList.all fun f => !Text.isDigit (Text.foldCase f)) = true)
    (hletter : ∀ k ∈ others, (k.toList.any fun f => !Spot.isArgumentChar (Text.foldCase f)) = true)
    (hnames : ∀ k ∈ others, ∀ n ∈ Color.names,
      (Text.ofString k).map Text.foldCase ≠ (Text.ofString n).map Text.foldCase)
    (hlists : ∀ ks ∈ p.kind.lists, ∀ k ∈ ks, ∀ k' ∈ others,
      (Text.ofString k).map Text.foldCase ≠ (Text.ofString k').map Text.foldCase)
    (h : p.Fits) (himage : p.kind ≠ .image) (hw : w ∈ Text.words p.text) :
    ¬Pattern.Matches (.keyword others) w := by
  rcases h.word himage hw with hcolor | ⟨hmeasured, -⟩
  · exact hcolor.not_matches_keyword hplain hnames hletter
  · exact hmeasured.not_matches_keyword hplain hdigit hlists

/-- What is taken after the attachment holds no word that is an attachment. -/
theorem Fits.not_attachment (h : p.Fits) (hkind : BackgroundKind.attachment.rank < p.kind.rank)
    (hw : w ∈ Text.words p.text) : ¬Pattern.Matches (.keyword backgroundAttachments) w := by
  refine h.not_matches_keyword Part.usesPlain_attachments (by decide +kernel) (by decide +kernel)
    (Part.names_apart _ (by simp)) ?_ (BackgroundKind.ne_image hkind) hw
  revert hkind
  cases p.kind <;> decide +kernel

/-- What is taken after the repetition holds no word that is a repetition. -/
theorem Fits.not_repetition (h : p.Fits) (hkind : BackgroundKind.repetition.rank < p.kind.rank)
    (hw : w ∈ Text.words p.text) : ¬Pattern.Matches (.keyword backgroundRepeats) w := by
  refine h.not_matches_keyword Part.usesPlain_repeats (by decide +kernel) (by decide +kernel)
    (Part.names_apart _ (by simp)) ?_ (BackgroundKind.ne_image hkind) hw
  revert hkind
  cases p.kind <;> decide +kernel

/-- Only an image starts the way an image does: the keywords of the other parts are neither `none` nor the
    name of a call. -/
theorem Fits.not_imageWord (h : p.Fits) (himage : p.kind ≠ .image) (hw : w ∈ Text.words p.text) :
    ¬Pattern.ImageWord w := by
  have hlists : ∀ ks ∈ p.kind.lists, ∀ k ∈ ks, ∀ k' ∈ ["none"],
      (Text.ofString k).map Text.foldCase ≠ (Text.ofString k').map Text.foldCase := by
    cases p.kind <;> decide +kernel
  rcases h.word himage hw with hcolor | ⟨hmeasured, hparen⟩
  · exact hcolor.not_imageWord
  · exact hmeasured.not_imageWord hlists hparen

/-- **The search for a kind gets past the pieces of later kinds.** -/
theorem Fits.refuses (h : p.Fits) (hkind : k.rank < p.kind.rank) : k.part.Refuses p.text := by
  cases k with
  | image =>
    have himage := BackgroundKind.ne_image hkind
    exact (Part.opens_backgroundImage.misses fun w hw => h.not_imageWord himage hw).refuses
  | attachment => exact (Part.opens_attachment.misses fun w hw => h.not_attachment hkind hw).refuses
  | repetition => exact (Part.opens_repetition.misses fun w hw => h.not_repetition hkind hw).refuses
  | color =>
    have hposition := BackgroundKind.eq_position hkind
    have hother : p.kind ≠ .image ∧ p.kind ≠ .color := by simp [hposition]
    have hnot : ∀ c, ¬Slices.IsListChar c → c ∉ p.text := fun c hc hm => hc (h.isListChar hother hm)
    refine Part.refuses_color (hnot _ (by decide)) (hnot _ (by decide)) fun w hw hplain hcolor => ?_
    refine (h.measured hother hw).not_isColor ?_ hplain hcolor
    rw [hposition]
    exact fun ks hks => Part.names_apart ks (mem_cons_of_mem _ (mem_cons_of_mem _ hks))
  | position =>
    exfalso
    revert hkind
    cases p.kind <;> decide

/-! ## The search finds its own piece

  At the front of its own piece a part takes the whole of it, and nothing of what follows.
-/

/-- There is no quote in a piece that is no image. -/
theorem Fits.not_mem_text (hc : c = '"' ∨ c = '\'') (h : p.Fits) (himage : p.kind ≠ .image) : c ∉ p.text := by
  by_cases hcolor : p.kind = .color
  · cases p with
    | single k u =>
      obtain rfl : k = .color := hcolor
      rcases hc with rfl | rfl <;> exact h.form.not_mem (by decide) (by decide) (by decide)
    | sized => contradiction
  · intro hm
    have hlist := h.isListChar ⟨himage, hcolor⟩ hm
    rcases hc with rfl | rfl <;> exact absurd hlist (by decide)

/-- **The search finds its own piece**, whatever pieces of later kinds are behind it. -/
theorem Fits.locate {qs : List BackgroundPiece} (h : (single k u).Fits) (hk : k ≠ .position)
    (hqs : ∀ q ∈ qs, q.Fits ∧ k.rank < q.kind.rank) (hr : Text.atBreak r = true)
    (hrow : Spaced (qs.map text) r) : k.part.locate 0 true (u ++ r) = some ⟨[], u, r⟩ := by
  obtain ⟨hm, haccepts, -⟩ := h
  cases k with
  | image =>
    -- No piece behind a URL could close a string that it does not close itself.
    refine Part.locate_of_find? Part.opens_backgroundImage.isWord rfl (Pattern.find?_ends_image hm hr fun _ => ?_)
    have hquote : ∀ c, c = '"' ∨ c = '\'' → c ∉ r := by
      intro c hc hm
      rcases hrow.mem hm with hblank | ⟨x, hx, hm⟩
      · rcases hc with rfl | rfl <;> exact absurd hblank (by decide)
      · obtain ⟨q, hq, rfl⟩ := mem_map.mp hx
        obtain ⟨hfits, hrank⟩ := hqs q hq
        exact hfits.not_mem_text hc (BackgroundKind.ne_image hrank) hm
    exact ⟨hquote _ (Or.inl rfl), hquote _ (Or.inr rfl)⟩
  | attachment =>
    exact Part.locate_plain rfl rfl Part.usesPlain_attachments
      (fun _ => Part.ne_nil_of_matches_keyword (by decide)) hm hr
  | repetition =>
    refine Part.locate_list rfl rfl rfl Part.ofWords_repeats hm (Pattern.endsAt_of_words hr (fun w hw => ?_)
      Part.ofWords_repeats)
    rw [hrow.words_eq, mem_flatMap] at hw
    obtain ⟨x, hx, hw⟩ := hw
    obtain ⟨q, hq, rfl⟩ := mem_map.mp hx
    exact (hqs q hq).1.not_repetition (hqs q hq).2 hw
  | color =>
    exact Part.locate_of_only Part.isWord_color hm haccepts hr fun v s happend hv hs =>
      (Pattern.eq_of_colorLike hm hv hr hs happend).symm
  | position => contradiction

end BackgroundPiece

/-! ## Rows of pieces

  The invariant of the table: the pieces left are of this kind or of a later one, no two of a kind, and
  stand with white space between them.
-/

open BackgroundPiece (kind text found single sized)

/-- A row of pieces of different kinds, with none of the kinds before this rank. -/
structure BackgroundRow (n : Nat) (ps : List BackgroundPiece) (v : Text) : Prop where
  fits : ∀ p ∈ ps, p.Fits
  nodup : (ps.map kind).Nodup
  le_rank : ∀ p ∈ ps, n ≤ p.kind.rank
  spaced : Spaced (ps.map text) v

namespace BackgroundRow

variable {n : Nat} {k : BackgroundKind} {u v : Text} {ps qs₁ qs₂ : List BackgroundPiece} {parts : List Part}

/-- The pieces of other kinds than the next are of later kinds. -/
theorem rank_lt (h : BackgroundRow k.rank ps v) {q : BackgroundPiece} (hq : q ∈ ps) (hne : q.kind ≠ k) :
    k.rank < q.kind.rank := by
  have hle := h.le_rank q hq
  have hrank : k.rank ≠ q.kind.rank := fun heq => hne (BackgroundKind.eq_of_rank heq).symm
  omega

/-- **The piece of the next kind is taken out**, and the others are left. -/
theorem takePart (h : BackgroundRow k.rank (qs₁ ++ single k u :: qs₂) v) (hk : k ≠ .position) :
    ∃ v', Slices.takePart v k.part = (some u, v') ∧ BackgroundRow (k.rank + 1) (qs₁ ++ qs₂) v' := by
  have hnodup : (k :: (qs₁ ++ qs₂).map kind).Nodup := by
    rw [map_append, ← nodup_middle]
    simpa [kind] using h.nodup
  have hin : ∀ q ∈ qs₁ ++ qs₂, q ∈ qs₁ ++ single k u :: qs₂ := fun q hq => by
    rcases mem_append.mp hq with hq | hq
    · exact mem_append_left _ hq
    · exact mem_append_right _ (mem_cons_of_mem _ hq)
  have hlater : ∀ q ∈ qs₁ ++ qs₂, q.Fits ∧ k.rank < q.kind.rank := by
    intro q hq
    refine ⟨h.fits q (hin q hq), h.rank_lt (hin q hq) ?_⟩
    rintro rfl
    exact (nodup_cons.mp hnodup).1 (mem_map_of_mem hq)
  have hspaced : Spaced (qs₁.map text ++ u :: qs₂.map text) v := by
    simpa [text] using h.spaced
  -- Part.takePart_of_spaced := No piece of a later kind is taken in its place, so the search goes past those
  -- before it.
  obtain ⟨v', htake, hleft⟩ := Part.takePart_of_spaced k.isWord_part hspaced
    (fun x hx => by
      obtain ⟨q, hq, rfl⟩ := mem_map.mp hx
      obtain ⟨hfits, hrank⟩ := hlater q (mem_append_left _ hq)
      exact hfits.refuses hrank)
    (fun r hr hrow => (h.fits (single k u) (by simp)).locate hk
      (fun q hq => hlater q (mem_append_right _ hq)) hr hrow)
  refine ⟨v', htake, fun q hq => (hlater q hq).1, (nodup_cons.mp hnodup).2, fun q hq => (hlater q hq).2, ?_⟩
  rwa [map_append]

/-- **Nothing is taken out** for a kind that has no piece. -/
theorem takePart_of_forall_ne (h : BackgroundRow k.rank ps v) (hne : ∀ p ∈ ps, p.kind ≠ k) :
    Slices.takePart v k.part = (none, v) ∧ BackgroundRow (k.rank + 1) ps v := by
  have hlater : ∀ p ∈ ps, k.rank < p.kind.rank := fun p hp => h.rank_lt hp (hne p hp)
  have hnone : k.part.locate 0 true v = none := by
    refine Part.locate_of_refuses k.isWord_part h.spaced fun x hx => ?_
    obtain ⟨p, hp, rfl⟩ := mem_map.mp hx
    exact (h.fits p hp).refuses (hlater p hp)
  exact ⟨by rw [Slices.takePart, hnone], h.fits, h.nodup, hlater, h.spaced⟩

/-- These parts take the pieces of any row out that has none of the kinds before this rank. -/
def Takes (n : Nat) (parts : List Part) : Prop :=
  ∀ ps v, BackgroundRow n ps v → (Slices.takeParts v parts).1 ~ ps.flatMap found ∧
    ∀ c ∈ (Slices.takeParts v parts).2, Text.isBlank c = true

/-- **One step**: the part of a kind, and then the parts of the later kinds. -/
theorem takes_cons (hk : k ≠ .position) (hparts : Takes (k.rank + 1) parts) :
    Takes k.rank (k.part :: parts) := by
  intro ps v h
  rw [Slices.takeParts_cons]
  by_cases hex : ∃ p ∈ ps, p.kind = k
  · -- The piece is taken out wherever it stands; the row that is left has none of its kind.
    obtain ⟨p, hp, hkind⟩ := hex
    obtain ⟨u, rfl⟩ : ∃ u, p = single k u := by
      cases p with
      | single j u => exact ⟨u, by rw [← hkind]; rfl⟩
      | sized => exact absurd hkind.symm hk
    obtain ⟨qs₁, qs₂, rfl⟩ := append_of_mem hp
    obtain ⟨v', htake, hrow⟩ := h.takePart hk
    obtain ⟨hfound, hblank⟩ := hparts _ _ hrow
    rw [htake]
    refine ⟨?_, hblank⟩
    calc (k.part.suffix, u) :: (Slices.takeParts v' parts).1
        ~ (k.part.suffix, u) :: (qs₁ ++ qs₂).flatMap found := hfound.cons _
      _ ~ (qs₁ ++ single k u :: qs₂).flatMap found := by
        rw [flatMap_append, flatMap_append, flatMap_cons]
        exact perm_middle.symm
  · obtain ⟨htake, hrow⟩ := h.takePart_of_forall_ne fun p hp hkind => hex ⟨p, hp, hkind⟩
    rw [htake]
    exact hparts _ _ hrow

/-- A slash is not white space. -/
theorem not_mem_of_blanks {b : Text} (hb : ∀ c ∈ b, Text.isBlank c = true) : '/' ∉ b :=
  fun hm => absurd (hb '/' hm) (by decide)

/-- The position is taken out of a row of its own. -/
theorem takes_single (hu : Pattern.Matches Part.backgroundPosition.pattern u) (hv : Spaced [u] v) :
    ∃ v', Slices.takePart v Part.backgroundPosition = (some u, v') ∧ Spaced [] v' := by
  have hsole : Spaced ([] ++ u :: []) v := hv
  refine Part.takePart_of_spaced Part.opens_backgroundPosition.isWord hsole nofun fun r hr hrow => ?_
  cases hrow with
  | nil hb =>
    exact Part.locate_list rfl rfl rfl Part.ofWords_positions hu (Pattern.endsAt_of_blanks Part.ofWords_positions hb)

/-- The size is taken out of a row of its own, and its position is left. -/
theorem takes_size {p a b z : Text} (h : (sized p a b z).Fits) (hv : Spaced [(sized p a b z).text] v) :
    ∃ v', Slices.takePart v Part.size = (some z, v') ∧ Spaced [p] v' := by
  obtain ⟨hp, ha, hb, hz⟩ := h
  cases hv with
  | @cons before _ r _ hbefore hr hrest =>
    cases hrest with
    | nil hafter =>
      have hahead : '/' ∉ before ++ (p ++ a) := by
        simp only [mem_append, not_or]
        exact ⟨not_mem_of_blanks hbefore, Part.not_mem_of_matches_position hp, not_mem_of_blanks ha⟩
      have hsize := Part.takePart_size_slash hahead hb hz (Pattern.endsAt_of_blanks Part.ofWords_sizes hafter)
      have hbehind : ∀ c ∈ a ++ ' ' :: r, Text.isBlank c = true :=
        forall_mem_append.mpr ⟨ha, forall_mem_cons.mpr ⟨rfl, hafter⟩⟩
      refine ⟨(before ++ (p ++ a)) ++ ' ' :: r, ?_, ?_⟩
      · rw [← hsize]
        simp [text]
      · simpa using Spaced.cons (u := p) hbefore (Text.atBreak_of_blanks hbehind) (.nil hbehind)

/-- **The last step**: a position, with or without a size, or nothing. -/
theorem takes_position : Takes BackgroundKind.position.rank [Part.size, Part.backgroundPosition] := by
  intro ps v h
  have hposition : ∀ p ∈ ps, p.kind = .position := fun p hp =>
    BackgroundKind.eq_position (h.le_rank p hp)
  rw [Slices.takeParts_cons, Slices.takeParts_cons, Slices.takeParts_nil]
  match ps with
  | [] =>
    -- Only blanks are left.
    have hrow : Spaced [] v := h.spaced
    cases hrow with
    | nil hb =>
      have hnone := Part.locate_of_refuses Part.opens_backgroundPosition.isWord (.nil hb) nofun
      rw [Part.takePart_size_of_not_mem (not_mem_of_blanks hb), Slices.takePart, hnone]
      exact ⟨.refl _, hb⟩
  | [single k u] =>
    -- Without a slash there is no size.
    obtain rfl : k = .position := hposition _ mem_cons_self
    have hrow : Spaced [u] v := h.spaced
    obtain ⟨hm, -, -⟩ := h.fits _ mem_cons_self
    have hv : '/' ∉ v := by
      intro hc
      rcases hrow.mem hc with hblank | ⟨x, hx, hc⟩
      · exact absurd hblank (by decide)
      · exact Part.not_mem_of_matches_position hm (mem_singleton.mp hx ▸ hc)
    obtain ⟨v', htake, hleft⟩ := takes_single hm hrow
    rw [Part.takePart_size_of_not_mem hv, htake]
    cases hleft with
    | nil hb => exact ⟨.refl _, hb⟩
  | [sized p a b z] =>
    -- The size goes first, with its slash, and leaves the position alone in the row.
    have hfits := h.fits _ mem_cons_self
    obtain ⟨v', hsize, hrow⟩ := takes_size hfits h.spaced
    obtain ⟨v'', htake, hleft⟩ := takes_single hfits.1 hrow
    rw [hsize, htake]
    cases hleft with
    | nil hb => exact ⟨.refl _, hb⟩
  | p :: q :: ps =>
    -- Two pieces of one kind are in no row.
    have hkinds := h.nodup
    simp [hposition p (by simp), hposition q (by simp)] at hkinds

/-- The parts of the table take the pieces of any row out. -/
theorem takes_background : Takes BackgroundKind.image.rank Part.background := by
  rw [Part.background_eq]
  have hcolor : Takes BackgroundKind.color.rank _ := takes_cons (by decide) takes_position
  have hrepetition : Takes BackgroundKind.repetition.rank _ := takes_cons (by decide) hcolor
  have hattachment : Takes BackgroundKind.attachment.rank _ := takes_cons (by decide) hrepetition
  exact takes_cons (by decide) hattachment

end BackgroundRow

/-- **The components of a background are found in any order**, and nothing is left of the value. -/
theorem slice_background_of_spaced {ps : List BackgroundPiece} {v : Text} (hfits : ∀ p ∈ ps, p.Fits)
    (hkinds : (ps.map kind).Nodup) (hv : Spaced (ps.map text) v) :
    (slice v Part.background).found ~ ps.flatMap found ∧ (slice v Part.background).remaining = [] := by
  obtain ⟨hfound, hblank⟩ :=
    BackgroundRow.takes_background ps v ⟨hfits, hkinds, fun _ _ => Nat.zero_le _, hv⟩
  exact ⟨hfound, Text.collapse_of_blanks hblank⟩

/-- Components in another order than that of the table, with the words of one in the texts of others. -/
def assortedBackground : List BackgroundPiece :=
  [single .color "rgb( 1, 2,3 )".toList, sized "left  1px".toList [' '] [] "AUTO 50%".toList,
    single .repetition "repeat-x no-repeat".toList, single .image "url(none left/auto red.png)".toList,
    single .attachment "FIXED".toList]

/-- Six pieces in an order of their own, a line break and a blank between each two: all of them are found, and
    nothing is left over. -/
theorem assorted_slice_background :
    (slice (Text.join ['\n', ' '] (assortedBackground.map text)) Part.background).found ~
        assortedBackground.flatMap found ∧
      (slice (Text.join ['\n', ' '] (assortedBackground.map text)) Part.background).remaining = [] := by
  have hblank : ∀ c ∈ ['\n', ' '], Text.isBlank c = true := forall_mem_cons.mpr ⟨rfl, forall_mem_singleton.mpr rfl⟩
  refine slice_background_of_spaced ?_ (by decide) (Text.spaced_join (cons_ne_nil _ _) hblank _)
  have hno : ¬['/', '*'] <:+: "rgb( 1, 2,3 )".toList := by decide
  simp only [assortedBackground, forall_mem_cons, not_mem_nil, false_implies, implies_true, and_true]
  refine ⟨⟨?_, by decide +kernel, fun _ => hno⟩, ⟨?_, forall_mem_singleton.mpr rfl, nofun, ?_⟩, ⟨?_, rfl, nofun⟩,
    ⟨?_, rfl, nofun⟩, ?_, rfl, nofun⟩
  all_goals exact Pattern.nil_mem_ends_iff.mp (by decide +kernel)

end CssShorthand
