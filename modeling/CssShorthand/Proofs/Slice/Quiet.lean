/-
  PIECES THAT ARE QUIET.

  A part is looked for in the text of a value, wherever a word can begin, also between the brackets of a
  call and within a string.  So a piece is left in one if no word within it begins the part, and if the
  piece, should the part take it, closes only at its end.  Such a piece is quiet for the part
  (`Part.Quiet`).  Which words begin a part, and which calls it takes, is told by its pattern alone.

    1.  The parts of the three tables take texts that open and close nothing and have no comma, or calls
        (`Part.Regular`, `Part.regular_of_mem`).
    2.  Within a piece that is quiet no text is taken (`Part.Quiet.not_accepts`), and where the piece begins
        the part takes it as a whole (`Part.eq_of_call`).
    3.  A piece is quiet for every part if each word within it holds a comma, a closing bracket or a quote
        (`Part.Regular.quiet`), as in `rgb(0, 0, 0)`.
    4.  A color is quiet, with any white space between its brackets, for the parts that are told by their
        letters (`Part.Lettered.quiet_of_form`): all but the measures, which are told by digits.
    5.  A URL is quiet for images if no word within it is `none` or opens a bracket (`Part.quiet_of_url`).
-/
import CssShorthand.Proofs.Slice.Background
import CssShorthand.Proofs.Slice.Brackets
import CssShorthand.Proofs.Slice.Laid
import CssShorthand.Proofs.Slice.ListStyle

namespace CssShorthand

open List

open Component (atGap)
open Pattern (Shut)
open Slices (isOpening isBare Enclosing Piece)

/-! ## Words of a text

  The first word of a text begins at its front; the others have white space before them.
-/

namespace Text

variable {f t w x : Text}

/-- The first word of a text stands behind blanks. -/
theorem exists_first_word {d : Char} (hd : d ∈ t) (hdb : isBlank d = false) :
    ∃ b w s, t = b ++ (w ++ s) ∧ (∀ c ∈ b, isBlank c = true) ∧ w ≠ [] ∧ (∀ c ∈ w, isBlank c = false) ∧
      atBreak s = true ∧ (words t).head? = some w := by
  have hsplit := takeWhile_append_dropWhile (p := isBlank) (l := t)
  have hblank : ∀ c ∈ t.takeWhile isBlank, isBlank c = true := fun c hc => mem_takeWhile_imp hc
  have hbreak : atBreak (t.dropWhile isBlank) = false := by
    cases hrest : t.dropWhile isBlank with
    | nil =>
      rw [hrest, append_nil] at hsplit
      rw [← hsplit] at hd
      exact absurd ((hblank d hd).symm.trans hdb) (by decide)
    | cons c r =>
      have hhead := head_dropWhile_not isBlank (l := t) (by simp [hrest])
      simp only [hrest, head_cons] at hhead
      simpa [atBreak] using hhead
  obtain ⟨w, s, hws, hne, hw, hs⟩ := exists_word hbreak
  refine ⟨_, w, s, by rw [← hws, hsplit], hblank, hne, hw, hs, ?_⟩
  rw [← hsplit, words_blanks_append hblank, hws, words_append hne hw hs, head?_cons]

/-- Behind a front without blanks, every word but the first lies in what follows. -/
theorem mem_of_mem_tail_words (hne : f ≠ []) (hf : ∀ c ∈ f, isBlank c = false)
    (hw : w ∈ (words (f ++ t)).tail) : ∀ c ∈ w, c ∈ t ∧ isBlank c = false := by
  have hbreak : atBreak (f ++ t) = false := by
    obtain ⟨c, f, rfl⟩ := exists_cons_of_ne_nil hne
    exact hf c mem_cons_self
  obtain ⟨v, s, hvs, hvne, hv, hs⟩ := exists_word hbreak
  obtain ⟨y, rfl, rfl⟩ := exists_append_of_front hf hs hvs
  rw [hvs, words_append hvne hv hs, tail_cons] at hw
  obtain ⟨-, hblank, a, r, rfl, -⟩ := mem_words_iff.mp hw
  exact fun c hc => ⟨by simp [hc], hblank c hc⟩

/-- A word that stands behind a blank is not the first one, if something stands before the blank. -/
theorem mem_tail_words {y s : Text} {c d : Char} (hc : isBlank c = false) (hd : isBlank d = true)
    (hne : w ≠ []) (hw : ∀ c ∈ w, isBlank c = false) (hs : atBreak s = true) :
    w ∈ (words (c :: y ++ d :: (w ++ s))).tail := by
  obtain ⟨f, fs, hfs⟩ := exists_cons_of_ne_nil (words_ne_nil (t := c :: y) hc)
  rw [words_append_blank hd, hfs, words_append hne hw hs]
  simp

end Text

namespace Part

variable {p : Part} {ab : Bool} {a b n r s t u v w x y : Text}

/-! ## Words that begin a part

  Only words within a piece are asked about, not the first one, at which the piece itself begins.
-/

/-- The word begins a text that the part takes: this is the word, or goes on behind it with a blank or a
    slash. -/
def Begins (p : Part) (w : Text) : Prop :=
  ∃ y, (Text.atBreak y = true ∨ y.head? = some '/') ∧ Pattern.Matches p.pattern (w ++ y) ∧
    p.accepts (w ++ y) = true

/-- The part takes calls of this name. -/
def Calls (p : Part) (n : Text) : Prop :=
  ∃ s, Pattern.Matches p.pattern (n ++ '(' :: s) ∧ p.accepts (n ++ '(' :: s) = true

/-- A word within a text at which the part may be found: any but the first, and for the part that stands
    after a slash the first one behind any slash. -/
def Within (p : Part) (x w : Text) : Prop :=
  if p.followsSlash then ∃ a b, x = a ++ '/' :: b ∧ (Text.words b).head? = some w
  else w ∈ (Text.words x).tail

/-- **A piece that is quiet for a part**: no word within it begins the part, it is shut if the part takes
    calls of its name, and it does not end with the slash that the part stands after. -/
structure Quiet (p : Part) (x : Text) : Prop where
  inside : ∀ w, p.Within x w → ¬p.Begins w
  shut : ∀ n t, x = n ++ '(' :: t → '(' ∉ n → p.Calls n → Shut x
  last : p.followsSlash = true → x.getLast? ≠ some '/'

/-! ## What the parts take

  The condition on patterns, checked for the twelve parts of the three tables.
-/

/-- A character that opens and closes nothing, and is no comma. -/
def isMute (c : Char) : Bool := !isOpening c && c != ',' && c != ')'

/-- A part that takes texts of such characters, or calls; and no calls if it stands after a slash. -/
structure Regular (p : Part) : Prop where
  colorless : p.followsSlash = true → p.isColor = false
  starts : ∀ u, Pattern.Matches p.pattern u → ∃ c v, u = c :: v ∧ Text.isBlank c = false
  shape : ∀ u, Pattern.Matches p.pattern u → p.accepts u = true →
    (∀ c ∈ u, isMute c = true) ∨ p.followsSlash = false ∧ Pattern.Call u

/-- Plain characters are bare: none of them opens or separates anything. -/
theorem isBare_of_isPlain {e : Char} (h : Text.isPlain e = true) : isBare e = true := by
  have hne : ∀ f, Text.isPlain f = false → e ≠ f := by
    rintro f hf rfl
    rw [h] at hf
    contradiction
  simp only [isBare, isOpening, Text.isBlank_of_isPlain h, Bool.not_false, Bool.true_and, Bool.and_eq_true,
    bne_iff_ne, Bool.not_eq_true', Bool.or_eq_false_iff, beq_eq_false_iff_ne]
  exact ⟨hne _ (by decide), ⟨⟨⟨⟨hne _ (by decide), hne _ (by decide)⟩, hne _ (by decide)⟩,
    hne _ (by decide)⟩, hne _ (by decide)⟩⟩

/-- A mute character opens nothing. -/
theorem isOpening_of_isMute {e : Char} (h : isMute e = true) : isOpening e = false := by
  simp only [isMute, Bool.and_eq_true, Bool.not_eq_true'] at h
  exact h.1.1

/-- Plain characters are mute. -/
theorem isMute_of_isPlain {e : Char} (h : Text.isPlain e = true) : isMute e = true := by
  simp only [isMute, Slices.isOpening_of_isBare (isBare_of_isPlain h), Bool.not_false, Bool.true_and,
    Bool.and_eq_true, bne_iff_ne]
  constructor <;> rintro rfl <;> contradiction

/-- White space is mute. -/
theorem isMute_of_isBlank {e : Char} (h : Text.isBlank e = true) : isMute e = true := by
  have hne : ∀ f, Text.isBlank f = false → e ≠ f := by
    rintro f hf rfl
    rw [h] at hf
    contradiction
  simp only [isMute, isOpening, Bool.and_eq_true, bne_iff_ne, Bool.not_eq_true', Bool.or_eq_false_iff,
    beq_eq_false_iff_ne]
  exact ⟨⟨⟨⟨⟨⟨hne _ (by decide), hne _ (by decide)⟩, hne _ (by decide)⟩, hne _ (by decide)⟩,
    hne _ (by decide)⟩, hne _ (by decide)⟩, hne _ (by decide)⟩

/-- The characters of a measure are mute. -/
theorem isMute_of_isMeasureChar {e : Char} (h : Pattern.IsMeasureChar e) : isMute e = true := by
  rcases h with h | rfl
  · exact isMute_of_isPlain h
  · decide

/-- A part that begins like a word and is made of such characters. -/
theorem IsWord.regular (h : p.IsWord) (huses : Pattern.Uses (fun c => isMute c = true) p.pattern) :
    p.Regular where
  colorless hslash := absurd (h.followsSlash.symm.trans hslash) (by decide)
  starts := h.starts
  shape _ hu _ := Or.inl (hu.forall_mem huses)

/-- A part of plain characters is regular: all it takes is mute. -/
theorem regular_of_usesPlain (h : p.IsWord) (hplain : Pattern.UsesPlain p.pattern) : p.Regular :=
  h.regular (hplain.mono fun _ => isMute_of_isPlain)

/-- No color is a call of the name of URLs. -/
theorem not_isUrlName_of_isColor (h : Color.isColor (n ++ '(' :: t) = true) : ¬Pattern.IsUrlName n := by
  intro hurl
  have hfronts := Pattern.fronts_url hurl
  obtain ⟨c, hc, -⟩ := hfronts.letter
  exact hfronts.apart (mem_append_left _ (Color.passes_of_isColor (ne_nil_of_mem hc) hfronts.chars h).1)

/-- A color is a word of mute characters or one call, which ends where its bracket closes. -/
theorem regular_color : color.Regular where
  colorless := nofun
  starts := isWord_color.starts
  shape u hu haccepts := by
    rcases Pattern.call_or_word_of_matches_colorLike hu with ⟨name, e, rfl, hname, he⟩ | hword
    · obtain ⟨i, rfl⟩ := Pattern.exists_of_matches_arguments he
      have hcolor : Color.isColor (name ++ '(' :: (i ++ [')'])) = true := by
        simpa [accepts, color] using haccepts
      exact Or.inr ⟨rfl, .arguments hname (not_isUrlName_of_isColor hcolor) he⟩
    · refine Or.inl fun c hc => ?_
      rcases hword c hc with rfl | hplain
      · decide
      · exact isMute_of_isPlain hplain

/-- An image is a call, or `none`. -/
theorem call_or_none_of_matches_image (h : Pattern.Matches .image u) :
    Pattern.Call u ∨ Pattern.Matches (.word "none".toList) u := by
  rcases Pattern.matches_image_iff.mp h with h | h | h
  · exact Or.inl (.url h)
  · obtain ⟨name, e, rfl, hname, hlong, he⟩ := Pattern.exists_of_matches_gradient h
    refine Or.inl (.arguments hname.plain (fun hurl => ?_) he)
    -- The name of a gradient is longer than that of URLs.
    have hlength := congrArg length (show _ = _ from hurl)
    simp only [length_map, length_cons, length_nil] at hlength
    omega
  · exact Or.inr h

/-- An image is `none`, which is mute, or a call. -/
theorem shape_of_matches_image (h : Pattern.Matches .image u) :
    (∀ c ∈ u, isMute c = true) ∨ Pattern.Call u :=
  (call_or_none_of_matches_image h).symm.imp_left fun h c hc =>
    isMute_of_isPlain (Pattern.isPlain_of_matches_none h c hc)

/-- The image of a background is `none` or one call. -/
theorem regular_backgroundImage : backgroundImage.Regular where
  colorless := nofun
  starts := opens_backgroundImage.isWord.starts
  shape _ hu _ := (shape_of_matches_image hu).imp_right fun h => ⟨rfl, h⟩

/-- The image of a list is `none` or one call. -/
theorem regular_listImage : listImage.Regular where
  colorless := nofun
  starts := isWord_listImage.starts
  shape _ hu _ := (shape_of_matches_image (Pattern.matches_image_of_listImage hu)).imp_right fun h => ⟨rfl, h⟩

/-- A list of measures is mute: its white space is, and so are its members. -/
theorem uses_list {q : Pattern} {n : Nat} (h : Pattern.Uses Pattern.IsMeasureChar q) :
    Pattern.Uses (fun c => isMute c = true) (.listOf n q) :=
  Pattern.uses_listOf (h.mono fun _ => isMute_of_isMeasureChar) fun _ => isMute_of_isBlank

/-- The size asks for a slash, which is mute as well. -/
theorem regular_size : size.Regular where
  colorless _ := rfl
  starts u hu := by
    obtain ⟨c, t, rfl, hc⟩ := exists_cons_of_matches_listOf ofWords_sizes hu
    exact ⟨c, t, rfl, hc⟩
  shape u hu _ := Or.inl (hu.forall_mem (uses_list (Pattern.uses_measure usesPlain_sizes)))

/-- **The parts of the three tables** take texts that open and close nothing, or calls. -/
theorem regular_of_mem {table : List Part} (htable : table ∈ [background, border, listStyle])
    (hp : p ∈ table) : p.Regular := by
  have hplain : ∀ c, Text.isPlain c = true → Pattern.IsMeasureChar c := fun _ => Or.inl
  simp only [mem_cons, not_mem_nil, or_false] at htable
  -- The twelve parts of the three tables.
  rcases htable with rfl | rfl | rfl
  · rw [background_eq] at hp
    simp only [mem_cons, not_mem_nil, or_false] at hp
    rcases hp with rfl | rfl | rfl | rfl | rfl | rfl
    · exact regular_backgroundImage
    · exact regular_of_usesPlain opens_attachment.isWord usesPlain_attachments
    · exact opens_repetition.isWord.regular (uses_list (usesPlain_repeats.mono hplain))
    · exact regular_color
    · exact regular_size
    · exact opens_backgroundPosition.isWord.regular (uses_list (Pattern.uses_measure usesPlain_positions))
  · rw [border_eq] at hp
    simp only [mem_cons, not_mem_nil, or_false] at hp
    rcases hp with rfl | rfl | rfl
    · exact regular_of_usesPlain isWord_width usesPlain_width
    · exact regular_color
    · exact regular_of_usesPlain isWord_style usesPlain_style
  · rw [listStyle_eq] at hp
    simp only [mem_cons, not_mem_nil, or_false] at hp
    rcases hp with rfl | rfl | rfl
    · exact regular_of_usesPlain opens_listType.isWord (Pattern.usesPlain_keyword (by decide +kernel))
    · exact regular_of_usesPlain opens_listPosition.isWord (Pattern.usesPlain_keyword (by decide +kernel))
    · exact regular_listImage

/-! ## What is taken of a piece

  Nothing within it, and at its front all or nothing.
-/

/-- A text that the part takes and accepts: where a word can begin, or behind a slash. -/
inductive Taken (p : Part) (ab : Bool) : Text → Prop
  | word {u : Text} (hslash : p.followsSlash = false) (hab : ab = true) (hu : Pattern.Matches p.pattern u)
      (haccepts : p.accepts u = true) : Taken p ab u
  | slashed {b v : Text} (hslash : p.followsSlash = true) (hb : ∀ c ∈ b, Text.isBlank c = true)
      (hv : Pattern.Matches p.pattern v) (haccepts : p.accepts v = true) : Taken p ab ('/' :: (b ++ v))

/-- What is taken ends at a break: the pattern looks ahead for it. -/
theorem atBreak_of_matchAt? (h : p.matchAt? ab t = some (u, r)) : Text.atBreak r = true := by
  unfold matchAt? at h
  split at h
  · obtain ⟨s, hs, hsr⟩ := Option.map_eq_some_iff.mp h
    rw [← (Prod.mk.inj hsr).2]
    exact find?_some hs
  · contradiction

/-- What matches and is accepted is taken. -/
theorem Regular.taken (hp : p.Regular) (hm : p.matchAt? ab t = some (u, s))
    (haccepts : p.accepts (p.content u) = true) : p.Taken ab u := by
  obtain ⟨-, hu⟩ := matches_of_matchAt? hm
  cases hslash : p.followsSlash with
  | false =>
    have hab : ab = true := by
      by_contra hab
      simp [matchAt?, hslash, hab] at hm
    rw [fullPattern, hslash] at hu
    rw [content, hslash] at haccepts
    exact .word hslash hab hu haccepts
  | true =>
    obtain ⟨b, v, rfl, hb, hv⟩ := exists_of_matches_slashed hslash hu
    exact .slashed hslash hb hv (by simp [accepts, hp.colorless hslash])

/-- **Where a word stands, what is taken begins with the word**, whatever stands in the gap behind. -/
theorem begins_of_append (hne : w ≠ []) (hw : ∀ c ∈ w, Text.isBlank c = false) (hb : Text.atBreak b = true)
    (hr : atGap r = true) (hs : Text.atBreak s = true) (hu : Pattern.Matches p.pattern u)
    (haccepts : p.accepts u = true) (h : w ++ (b ++ r) = u ++ s) : p.Begins w := by
  rcases append_eq_append_iff.mp h with ⟨y, rfl, hy⟩ | ⟨y, rfl, rfl⟩
  · refine ⟨y, ?_, hu, haccepts⟩
    cases y with
    | nil => exact Or.inl rfl
    | cons c y =>
      cases b with
      | cons d b =>
        obtain ⟨rfl, -⟩ := cons.inj hy
        exact Or.inl hb
      | nil =>
        rw [nil_append] at hy
        rw [hy] at hr
        rcases Bool.or_eq_true_iff.mp (show (Spot.isSpace c || c == '/') = true from hr) with hc | hc
        · exact Or.inl (Spot.isBlank_of_isSpace hc)
        · exact Or.inr (congrArg some (beq_iff_eq.mp hc))
  · -- What is taken cannot end within the word.
    cases y with
    | nil =>
      rw [append_nil] at hw ⊢
      exact ⟨[], Or.inl rfl, by rwa [append_nil], by rwa [append_nil]⟩
    | cons c y => exact absurd ((hw c (by simp)).symm.trans hs) (by decide)

/-- **No word within a quiet piece begins what the part takes**, where a word is looked for behind a blank. -/
theorem Quiet.not_taken_word (hp : p.Regular) (hx : Piece x) (hquiet : p.Quiet x)
    (hslash : p.followsSlash = false) {d : Char} (hd : Text.isBlank d = true) (hxb : x = y ++ d :: b)
    (hb : b ≠ []) (hr : atGap r = true) (hs : Text.atBreak s = true) (hu : Pattern.Matches p.pattern u)
    (h : b ++ r = u ++ s) : ¬p.accepts u = true := by
  intro haccepts
  have hbreak : Text.atBreak b = false := by
    obtain ⟨c, v, rfl, hc⟩ := hp.starts u hu
    obtain ⟨e, b, rfl⟩ := exists_cons_of_ne_nil hb
    rw [Text.atBreak, (cons.inj h).1, hc]
  obtain ⟨w, t, rfl, hwne, hw, ht⟩ := Text.exists_word hbreak
  rw [append_assoc] at h
  refine hquiet.inside w ?_ (begins_of_append hwne hw ht hr hs hu haccepts h)
  -- The word is not the first one, since no piece begins with a blank.
  obtain ⟨e, z, rfl, he, -⟩ := hx.exists_cons
  rw [Within, hslash, if_neg (by decide)]
  cases y with
  | nil =>
    rw [(cons.inj hxb).1, hd] at he
    contradiction
  | cons f y =>
    obtain ⟨rfl, rfl⟩ := cons.inj hxb
    exact Text.mem_tail_words he hd hwne hw ht

/-- Behind a slash within a piece stands a word, as no piece ends with a blank, if the slash is not its end. -/
theorem exists_word_of_slash (hx : Piece x) (hlast : x.getLast? ≠ some '/') (hxb : x = y ++ '/' :: b) :
    ∃ k w t, b = k ++ (w ++ t) ∧ (∀ c ∈ k, Text.isBlank c = true) ∧ w ≠ [] ∧
      (∀ c ∈ w, Text.isBlank c = false) ∧ Text.atBreak t = true ∧ (Text.words b).head? = some w := by
  rcases eq_nil_or_concat b with rfl | ⟨z, f, rfl⟩
  · exact absurd (by simp [hxb]) hlast
  · have hend : x.getLast? = some f := by
      rw [hxb, concat_eq_append, ← cons_append, ← append_assoc, getLast?_concat]
    exact Text.exists_first_word (by simp) (hx.last f hend)

/-- **No word behind a slash of a quiet piece begins what the part takes** that stands after a slash. -/
theorem Quiet.not_taken_slashed (hp : p.Regular) (hx : Piece x) (hquiet : p.Quiet x)
    (hslash : p.followsSlash = true) {k : Text} (hk : ∀ c ∈ k, Text.isBlank c = true)
    (hxb : x = y ++ '/' :: b) (hr : atGap r = true) (hs : Text.atBreak s = true)
    (hv : Pattern.Matches p.pattern v) (h : b ++ r = k ++ (v ++ s)) : ¬p.accepts v = true := by
  intro haccepts
  obtain ⟨j, w, t, rfl, hj, hwne, hw, ht, hfirst⟩ := exists_word_of_slash hx (hquiet.last hslash) hxb
  obtain ⟨c, v, rfl, hc⟩ := hp.starts v hv
  obtain ⟨g, w, rfl⟩ := exists_cons_of_ne_nil hwne
  have hg : ¬Text.isBlank g = true := by simp [hw g mem_cons_self]
  have hc' : ¬Text.isBlank c = true := by simp [hc]
  -- The blanks before the word are those before what is taken.
  rw [append_assoc, append_assoc] at h
  obtain ⟨rfl, hwords⟩ := Text.cut_unique hj hk (Text.forall_mem_head?_cons hg)
    (Text.forall_mem_head?_cons hc') h
  refine hquiet.inside (g :: w) ?_ (begins_of_append hwne hw ht hr hs hv haccepts hwords)
  rw [Within, hslash, if_pos rfl]
  exact ⟨y, _, hxb, hfirst⟩

/-- **Within a piece that is quiet nothing is taken.** -/
theorem not_taken_within (hp : p.Regular) (hx : Piece x) (hquiet : Enclosing x → p.Quiet x)
    (hab : x = a ++ b) (ha : a ≠ []) (hb : b ≠ []) (hr : atGap r = true) (hs : Text.atBreak s = true)
    (h : b ++ r = u ++ s) : ¬p.Taken (Text.atBreak a.reverse) u := by
  obtain ⟨y, d, rfl⟩ := (eq_nil_or_concat a).resolve_left ha
  rw [concat_eq_append, Text.atBreak_reverse_concat]
  rw [concat_eq_append] at hab
  intro htaken
  rcases hx.shape with hbare | henclosing
  · -- A word has no blank in it, and no slash.
    cases htaken with
    | word _ hd =>
      have hnot := Slices.isBlank_of_isBare (hbare d (by simp [hab]))
      exact absurd (hnot.symm.trans hd) (by decide)
    | slashed =>
      obtain ⟨e, b, rfl⟩ := exists_cons_of_ne_nil hb
      exact Slices.ne_slash_of_isBare (hbare e (by simp [hab])) (cons.inj h).1
  · have hquiet := hquiet henclosing
    cases htaken with
    | word hslash hd hu haccepts =>
      rw [append_assoc] at hab
      exact hquiet.not_taken_word hp hx hslash hd hab hb hr hs hu h haccepts
    | slashed hslash hk hv haccepts =>
      obtain ⟨e, b, rfl⟩ := exists_cons_of_ne_nil hb
      rw [cons_append, cons_append, append_assoc] at h
      obtain ⟨rfl, hrest⟩ := cons.inj h
      exact hquiet.not_taken_slashed hp hx hslash hk hab hr hs hv hrest haccepts

/-- A call begins with a name and its bracket. -/
theorem exists_of_call (h : Pattern.Call u) : ∃ n s, u = n ++ '(' :: s ∧ ∀ c ∈ n, Text.isPlain c = true := by
  cases h with
  | url h =>
    obtain ⟨n, x, rfl, hn⟩ := Pattern.exists_of_matches_url h
    exact ⟨n, x ++ [')'], rfl, (Pattern.fronts_url hn).plain⟩
  | arguments hname _ he =>
    obtain ⟨i, rfl⟩ := Pattern.exists_of_matches_arguments he
    exact ⟨_, _, rfl, hname⟩

/-- **A call that is taken where an enclosing piece begins is the piece.** -/
theorem Quiet.eq_of_call (hquiet : p.Quiet x) (hx : Enclosing x) (hs : Text.atBreak s = true) (hu : Pattern.Matches p.pattern u)
    (haccepts : p.accepts u = true) (hcall : Pattern.Call u) (h : x ++ r = u ++ s) : u = x := by
  obtain ⟨n, i, rfl, hn⟩ := exists_of_call hcall
  have hnone : ∀ c ∈ n, isBare c = true := fun c hc => isBare_of_isPlain (hn c hc)
  -- The bracket stands where the piece opens something for the first time.
  obtain ⟨t, rfl⟩ : ∃ t, x = n ++ '(' :: t := by
    obtain ⟨w, c, t, rfl, hc, hw⟩ := hx
    have hopening : ∀ {d : Char}, isOpening d = true → ¬isBare d = true := fun hd hbare =>
      absurd (hd.symm.trans (Slices.isOpening_of_isBare hbare)) (by decide)
    have hrest : w ++ c :: (t ++ r) = n ++ '(' :: (i ++ s) := by simpa using h
    obtain ⟨rfl, hfirst⟩ := Text.cut_unique hw hnone (Text.forall_mem_head?_cons (hopening hc))
      (Text.forall_mem_head?_cons (hopening rfl)) hrest
    exact ⟨t, by rw [(cons.inj hfirst).1]⟩
  exact hcall.eq_of_shut (hquiet.shut n t rfl (Pattern.not_mem_of_isPlain hn) ⟨i, hu, haccepts⟩) hs h

/-! ## Pieces that are quiet

  Two conditions on the text that are computed for a given piece.
-/

/-- Where what is taken opens a bracket behind a name, the word that begins it opens the bracket. -/
theorem mem_of_append_eq (hy : Text.atBreak y = true ∨ y.head? = some '/') (hn : ∀ c ∈ n, Text.isPlain c = true)
    (h : w ++ y = n ++ '(' :: s) : '(' ∈ w := by
  have hstop : ∀ {c : Char} {z : Text}, y = c :: z → Text.isPlain c = false ∧ c ≠ '(' := by
    rintro c z rfl
    rcases hy with hc | hc
    · have hblank : Text.isBlank c = true := hc
      refine ⟨by_contra fun hplain => ?_, ?_⟩
      · exact absurd ((Text.isBlank_of_isPlain (by simpa using hplain)).symm.trans hblank) (by decide)
      · rintro rfl
        exact absurd hblank (by decide)
    · rw [Option.some.inj hc]
      decide
  rcases append_eq_append_iff.mp h with ⟨k, hk, hyk⟩ | ⟨k, rfl, hk⟩
  · cases k with
    | nil => exact absurd rfl (hstop hyk).2
    | cons c k => exact absurd ((hn c (by simp [hk])).symm.trans (hstop hyk).1) (by decide)
  · cases k with
    | nil => exact absurd rfl (hstop hk.symm).2
    | cons c k =>
      rw [← (cons.inj hk).1]
      simp

/-- **A word that begins a part** opens a bracket, or has no comma, no quote and no bracket in it. -/
theorem Regular.mem_or_mute (hp : p.Regular) (h : p.Begins w) : '(' ∈ w ∨ ∀ c ∈ w, isMute c = true := by
  obtain ⟨y, hy, hu, haccepts⟩ := h
  rcases hp.shape _ hu haccepts with hmute | ⟨-, hcall⟩
  · exact Or.inr fun c hc => hmute c (mem_append_left y hc)
  · obtain ⟨n, s, hns, hn⟩ := exists_of_call hcall
    exact Or.inl (mem_of_append_eq hy hn hns)

/-- **A piece is quiet for every part** if each word within it has a comma, a quote or a bracket in it, and
    opens no call. -/
theorem Regular.quiet (hp : p.Regular)
    (hinside : ∀ w, p.Within x w → '(' ∉ w ∧ ∃ c ∈ w, isMute c = false) (hshut : '(' ∈ x → Shut x)
    (hlast : x.getLast? ≠ some '/') : p.Quiet x where
  inside w hw hbegins := by
    obtain ⟨hparen, c, hc, hmute⟩ := hinside w hw
    exact absurd (((hp.mem_or_mute hbegins).resolve_left hparen c hc).symm.trans hmute) (by decide)
  shut n t hx _ _ := hshut (by simp [hx])
  last _ := hlast

/-- A word that begins an image opens a bracket or is `none`. -/
theorem matches_none_of_begins (himage : ∀ u, Pattern.Matches p.pattern u → Pattern.Matches .image u)
    (h : p.Begins w) (hparen : '(' ∉ w) : Pattern.Matches (.word "none".toList) w := by
  obtain ⟨y, hy, hu, -⟩ := h
  rcases call_or_none_of_matches_image (himage _ hu) with hcall | hnone
  · obtain ⟨n, s, hns, hn⟩ := exists_of_call hcall
    exact absurd (mem_of_append_eq hy hn hns) hparen
  · cases y with
    | nil => rwa [append_nil] at hnone
    | cons c y =>
      have hplain := Pattern.isPlain_of_matches_none hnone c (by simp)
      rcases hy with hc | hc
      · exact absurd ((Text.isBlank_of_isPlain hplain).symm.trans hc) (by decide)
      · rw [Option.some.inj hc] at hplain
        contradiction

/-- **A URL is quiet for images** if no word within it is `none` or opens a bracket. -/
theorem quiet_of_url (hslash : p.followsSlash = false)
    (himage : ∀ u, Pattern.Matches p.pattern u → Pattern.Matches .image u)
    (hinside : ∀ w ∈ (Text.words x).tail, '(' ∉ w ∧ ¬Pattern.Matches (.word "none".toList) w)
    (hshut : Shut x) : p.Quiet x where
  inside w hw hbegins := by
    rw [Within, hslash, if_neg (by decide)] at hw
    exact (hinside w hw).2 (matches_none_of_begins himage hbegins (hinside w hw).1)
  shut _ _ _ _ _ := hshut
  last h := absurd (hslash.symm.trans h) (by decide)

/-! ## Colors

  A color is told by its form, so one lemma covers all of them, with any numbers and any white space.
-/

/-- The part is told by a letter: what it takes is a call, or begins with a word that has a letter in it, or
    another character, that no argument of a color has. -/
def Lettered (p : Part) : Prop :=
  ∀ u, Pattern.Matches p.pattern u → p.accepts u = true → Pattern.Call u ∨
    ∃ w r, u = w ++ r ∧ Text.atBreak r = true ∧ (∀ c ∈ w, Text.isBlank c = false ∧ c ≠ '/') ∧
      ∃ c ∈ w, Spot.isArgumentChar c = false ∧ c ≠ ')'

/-- A part that has letters begins with one that is no argument of a color, unless a bracket comes first. -/
theorem Lettered.exists_mem (hp : p.Lettered) (h : p.Begins w) (hparen : '(' ∉ w) :
    ∃ c ∈ w, Spot.isArgumentChar c = false ∧ c ≠ ')' := by
  obtain ⟨y, hy, hu, haccepts⟩ := h
  rcases hp _ hu haccepts with hcall | ⟨v, r, hvr, -, hv, c, hc, hletter⟩
  · obtain ⟨n, s, hns, hn⟩ := exists_of_call hcall
    exact absurd (mem_of_append_eq hy hn hns) hparen
  · rcases append_eq_append_iff.mp hvr with ⟨k, rfl, rfl⟩ | ⟨k, rfl, -⟩
    · cases k with
      | nil => exact ⟨c, by simpa using hc, hletter⟩
      | cons d k =>
        -- The word ends at a blank or a slash, but the one with the letter has neither.
        obtain ⟨hblank, hslash⟩ := hv d (by simp)
        rcases hy with hd | hd
        · exact absurd (hblank.symm.trans hd) (by decide)
        · exact absurd (Option.some.inj hd) hslash
    · exact ⟨c, mem_append_left k hc, hletter⟩

/-- Plain texts with a letter are such words. -/
theorem exists_of_plain (hu : ∀ c ∈ u, Text.isPlain c = true) (h : ∃ c ∈ u, Spot.isArgumentChar c = false) :
    (∀ c ∈ u, Text.isBlank c = false ∧ c ≠ '/') ∧ ∃ c ∈ u, Spot.isArgumentChar c = false ∧ c ≠ ')' := by
  obtain ⟨c, hc, hletter⟩ := h
  have hne : ∀ {d e : Char}, d ∈ u → Text.isPlain e = false → d ≠ e := fun hd he heq =>
    absurd ((hu _ hd).symm.trans (heq ▸ he)) (by decide)
  exact ⟨fun d hd => ⟨Text.isBlank_of_isPlain (hu d hd), hne hd (by decide)⟩, c, hc, hletter, hne hc (by decide)⟩

/-- Each keyword has a letter that is no argument of a color; this is checked for the table. -/
theorem lettered_of_keyword {ks : List String} (hpattern : p.pattern = .keyword ks)
    (hplain : Pattern.UsesPlain (.keyword ks))
    (hletter : ∀ k ∈ ks, (k.toList.any fun f => !Spot.isArgumentChar (Text.foldCase f)) = true) :
    p.Lettered := by
  intro u hu _
  rw [hpattern] at hu
  obtain ⟨k, hk, hfold⟩ := Pattern.exists_of_matches_keyword hu
  have hword := exists_of_plain (hu.forall_mem hplain) (Pattern.exists_not_isArgumentChar hfold (hletter k hk))
  exact Or.inr ⟨u, [], by simp, rfl, hword⟩

/-- A list starts with a keyword, which has such a letter. -/
theorem lettered_of_list {ks : List String} {m : Nat} (hpattern : p.pattern = .listOf m (.keyword ks))
    (hplain : Pattern.UsesPlain (.keyword ks))
    (hletter : ∀ k ∈ ks, (k.toList.any fun f => !Spot.isArgumentChar (Text.foldCase f)) = true) :
    p.Lettered := by
  intro u hu _
  rw [hpattern] at hu
  cases hu with
  | @seq _ _ w v hw hv =>
    obtain ⟨k, hk, hfold⟩ := Pattern.exists_of_matches_keyword hw
    have hword := exists_of_plain (hw.forall_mem hplain) (Pattern.exists_not_isArgumentChar hfold (hletter k hk))
    exact Or.inr ⟨w, v, rfl, Pattern.atBreak_of_matches_upTo hv, hword⟩

/-- An image has such a letter in `none`, and otherwise a bracket. -/
theorem lettered_of_image (himage : ∀ u, Pattern.Matches p.pattern u → Pattern.Matches .image u) :
    p.Lettered := by
  intro u hu _
  refine (call_or_none_of_matches_image (himage u hu)).imp_right fun hnone => ?_
  have hword := exists_of_plain (Pattern.isPlain_of_matches_none hnone)
    (Pattern.exists_not_isArgumentChar (Pattern.matches_word_iff.mp hnone) (by decide +kernel))
  exact ⟨u, [], by simp, rfl, hword⟩

/-- A color word has such a letter. A hash could be spelled by digits only, but the hash itself is no
    argument. -/
theorem lettered_color : color.Lettered := by
  intro u hu haccepts
  have hcolor : Color.isColor u = true := by simpa [accepts, color] using haccepts
  have hletter : ∀ k ∈ Color.names, (k.toList.any fun f => !Spot.isArgumentChar (Text.foldCase f)) = true := by
    decide +kernel
  refine (regular_color.shape u hu haccepts).symm.imp And.right fun hmute => ?_
  rcases Pattern.cases_of_matches_colorLike hu with ⟨n, i, rfl, -⟩ | ⟨digits, rfl, hdigits, -⟩ | ⟨hne, hchars⟩
  · exact absurd (hmute '(' (by simp)) (by decide)
  · refine ⟨'#' :: digits, [], by simp, rfl, forall_mem_cons.mpr ⟨by decide, fun c hc => ?_⟩,
      '#', mem_cons_self, by decide⟩
    have hbare := isBare_of_isPlain (hdigits c hc)
    exact ⟨Slices.isBlank_of_isBare hbare, Slices.ne_slash_of_isBare hbare⟩
  · have hname := Color.mem_names_of_isColor hne hchars hcolor
    have hfold : (Text.toString (Text.lower u)).toList.map Text.foldCase = u.map Text.foldCase := by
      rw [← Text.map_foldCase_lower u]
      simp [Text.toString]
    exact ⟨u, [], by simp, rfl, exists_of_plain (fun c hc => (hchars c hc).1)
      (Pattern.exists_not_isArgumentChar hfold (hletter _ hname))⟩

/-- No slash stands in the form of a color, where it could only open a comment. -/
theorem not_mem_of_form (hx : Color.Form x) : '/' ∉ x := hx.not_mem (by decide) (by decide) (by decide)

/-- **What stands within a color** is made of the characters of arguments, but for its last bracket. -/
theorem forall_of_within (hx : Color.Form x) (hw : p.Within x w) :
    ∀ c ∈ w, Spot.isArgumentChar c = true ∨ c = ')' := by
  cases hslash : p.followsSlash with
  | true =>
    rw [Within, hslash, if_pos rfl] at hw
    obtain ⟨a, b, rfl, -⟩ := hw
    exact absurd (by simp) (not_mem_of_form hx)
  | false =>
    rw [Within, hslash, if_neg (by decide)] at hw
    have hword : ∀ {u : Text}, (∀ c ∈ u, Text.isBlank c = false) → w ∉ (Text.words u).tail := by
      intro u hu
      cases u with
      | nil => simp [Text.words]
      | cons c u => simp [Text.words_of_word (cons_ne_nil c u) hu]
    -- A name and a hash are a single word, so nothing starts within them; within a call only its arguments
    -- are behind white space.
    cases hx with
    | name chars => exact absurd hw (hword fun c hc => Text.isBlank_of_isPlain (chars c hc).1)
    | hash chars =>
      exact absurd hw (hword (forall_mem_cons.mpr ⟨by decide, fun c hc => Text.isBlank_of_isPlain (chars c hc)⟩))
    | @call n inside chars _ arguments =>
      have hfront : ∀ c ∈ n ++ ['('], Text.isBlank c = false := forall_mem_append.mpr
        ⟨fun c hc => Text.isBlank_of_isPlain (chars c hc).1, forall_mem_singleton.mpr (by decide)⟩
      have hcall : n ++ '(' :: (inside ++ [')']) = (n ++ ['(']) ++ (inside ++ [')']) := by simp
      rw [hcall] at hw
      intro c hc
      obtain ⟨hmem, hblank⟩ := Text.mem_of_mem_tail_words (by simp) hfront hw c hc
      rcases mem_append.mp hmem with hmem | hmem
      · refine (arguments c hmem).imp_right fun hspace => ?_
        exact absurd (hblank.symm.trans (Spot.isBlank_of_isSpace hspace)) (by decide)
      · exact Or.inr (mem_singleton.mp hmem)

/-- A color is shut: its only closing bracket is its last character. -/
theorem shut_of_form (hx : Color.Form x) (hparen : '(' ∈ x) : Shut x := by
  have hplain : ∀ {u : Text}, (∀ c ∈ u, Text.isPlain c = true) → '(' ∉ u ∧ ')' ∉ u := fun hu =>
    ⟨fun hm => absurd (hu _ hm) (by decide), fun hm => absurd (hu _ hm) (by decide)⟩
  cases hx with
  | name chars => exact absurd hparen (hplain fun c hc => (chars c hc).1).1
  | hash chars => exact absurd hparen (not_mem_cons_of_ne_of_not_mem (by decide) (hplain chars).1)
  | @call n inside chars mem arguments =>
    obtain ⟨hopen, hclose⟩ := hplain fun c hc => (chars c hc).1
    refine Pattern.shut_of_not_mem hopen hclose (fun hurl => ?_) (fun hm => ?_) fun hm => ?_
    · exact (Pattern.fronts_url hurl).apart (mem_append_left _ mem)
    · exact (arguments _ hm).elim (by decide) (by decide)
    · exact (arguments _ hm).elim (by decide) (by decide)

/-- **A color is quiet for a part that is told by a letter**, with any white space between its brackets. -/
theorem Lettered.quiet_of_form (hp : p.Lettered) (hx : Color.Form x) : p.Quiet x where
  inside w hw hbegins := by
    have hchars := forall_of_within hx hw
    have hparen : '(' ∉ w := fun hm => (hchars _ hm).elim (by decide) (by decide)
    obtain ⟨c, hc, hletter, hclose⟩ := hp.exists_mem hbegins hparen
    exact absurd (((hchars c hc).resolve_right hclose).symm.trans hletter) (by decide)
  shut n t hnt _ _ := shut_of_form hx (by simp [hnt])
  last _ hlast := not_mem_of_form hx (mem_of_getLast? hlast)

/-- For the size as well, since no slash stands in it. -/
theorem quiet_of_form_of_followsSlash (hslash : p.followsSlash = true) (hx : Color.Form x) : p.Quiet x where
  inside w hw := by
    rw [Within, hslash, if_pos rfl] at hw
    obtain ⟨a, b, rfl, -⟩ := hw
    exact absurd (by simp) (not_mem_of_form hx)
  shut n t hnt _ _ := shut_of_form hx (by simp [hnt])
  last _ hlast := not_mem_of_form hx (mem_of_getLast? hlast)

/-- **For a measure as well**, if each word within the color has its comma or the last bracket in it. -/
theorem Regular.quiet_of_form (hp : p.Regular) (hx : Color.Form x)
    (hcomma : ∀ w ∈ (Text.words x).tail, ',' ∈ w ∨ ')' ∈ w) : p.Quiet x := by
  cases hslash : p.followsSlash with
  | true => exact quiet_of_form_of_followsSlash hslash hx
  | false =>
    refine hp.quiet (fun w hw => ⟨fun hm => ?_, ?_⟩) (shut_of_form hx) fun hlast =>
      not_mem_of_form hx (mem_of_getLast? hlast)
    · exact (forall_of_within hx hw _ hm).elim (by decide) (by decide)
    · rw [Within, hslash, if_neg (by decide)] at hw
      exact (hcomma w hw).elim (fun hm => ⟨',', hm, by decide⟩) fun hm => ⟨')', hm, by decide⟩

/-- **A color is quiet for every part of the three tables but the measures**: the width of a border and the
    position of a background, which take a bare zero. -/
theorem quiet_of_form {table : List Part} (htable : table ∈ [background, border, listStyle])
    (hp : p ∈ table) (hwidth : p ≠ width) (hposition : p ≠ backgroundPosition) (hx : Color.Form x) :
    p.Quiet x := by
  simp only [mem_cons, not_mem_nil, or_false] at htable
  -- The parts of the three tables, but for the two that could take a number inside of a color.
  rcases htable with rfl | rfl | rfl
  · rw [background_eq] at hp
    simp only [mem_cons, not_mem_nil, or_false] at hp
    rcases hp with rfl | rfl | rfl | rfl | rfl | rfl
    · exact (lettered_of_image fun _ hu => hu).quiet_of_form hx
    · exact (lettered_of_keyword rfl usesPlain_attachments (by decide +kernel)).quiet_of_form hx
    · exact (lettered_of_list rfl usesPlain_repeats (by decide +kernel)).quiet_of_form hx
    · exact lettered_color.quiet_of_form hx
    · exact quiet_of_form_of_followsSlash rfl hx
    · exact absurd rfl hposition
  · rw [border_eq] at hp
    simp only [mem_cons, not_mem_nil, or_false] at hp
    rcases hp with rfl | rfl | rfl
    · exact absurd rfl hwidth
    · exact lettered_color.quiet_of_form hx
    · exact (lettered_of_keyword rfl usesPlain_style (by decide +kernel)).quiet_of_form hx
  · rw [listStyle_eq] at hp
    simp only [mem_cons, not_mem_nil, or_false] at hp
    rcases hp with rfl | rfl | rfl
    · exact (lettered_of_keyword rfl (Pattern.usesPlain_keyword (by decide +kernel)) (by decide +kernel)).quiet_of_form hx
    · exact (lettered_of_keyword rfl (Pattern.usesPlain_keyword (by decide +kernel)) (by decide +kernel)).quiet_of_form hx
    · exact (lettered_of_image fun _ => Pattern.matches_image_of_listImage).quiet_of_form hx

end Part

end CssShorthand
