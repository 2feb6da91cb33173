/-
  TEXTS THAT END WHERE THEY END.

  A text is closed if what stands behind it, after white space or a slash, is parsed for itself
  (`Component.Closed`): no string, URL, block or escape of the text is still open at its end.

  A text without backslashes, comments and faults, in which all brackets are closed, is closed
  (`Component.closed_of_settled`).  For without backslashes a newline stops every reader as a space does,
  and then each lexeme is read up to the same place, whatever comes behind the text (`Lexeme.read_halt`).

  White space in front of a text and a slash add nothing to its other components
  (`Component.significant_parse_space`, `Component.parse_slash`).

  The route: 1. each reader of `Stop` is looked at once more for a text without backslashes, where a line
  feed is one more character that stops it (`Halts`). 2. `Lexeme.read_halt` puts them together for one
  lexeme, and `Settled.lexemes_append` for all of them, by recursion on what is left to read. 3.
  `Component.closed_of_settled` adds the nesting: as no bracket is open at the end, the components behind
  the text are not taken into one of its groups. All conditions of a settled text are computed, so that a
  text given in a proof is closed by a computation.
-/
import CssShorthand.Proofs.Component.Front
import CssShorthand.Proofs.Component.Whole
import CssShorthand.Proofs.Slice.Walk

namespace CssShorthand

open List

/-! ## Readers of texts without backslashes

  One lemma for each reader that takes more than one character. A string and a url are read to their own
  end, and so need that they are closed; a name and the start of one stop at the first character that is not
  theirs.
-/

section

variable {e : Char} (he : Halts e) (r : Text) {t : Text} (hback : '\\' ∉ t)
include he hback

/-- Whether a name begins is told by the first characters, of which none is a backslash, so what halts behind
    the text has no say in it. -/
theorem Name.startsIdentifier_halt : startsIdentifier (t ++ e :: r) = startsIdentifier t := by
  match t, hback with
  | [], _ => cases he <;> rfl
  | [c], h =>
    by_cases hc : c = '-'
    · subst hc
      cases he <;> rfl
    · have hc' : c ≠ '\\' := fun heq => h (heq ▸ mem_cons_self)
      cases he <;> simp [startsIdentifier, hc]
  | c :: d :: t, h =>
    simp only [mem_cons, not_or] at h
    have hc : c ≠ '\\' := Ne.symm h.1
    have hd : d ≠ '\\' := Ne.symm h.2.1
    by_cases hminus : c = '-'
    · subst hminus
      simp [startsIdentifier]
    · simp [startsIdentifier, hminus]

/-- The same is told for a hash sign by one character. -/
theorem Lexeme.startsName_halt : startsName (t ++ e :: r) = startsName t := by
  cases t with
  | nil => cases he <;> rfl
  | cons c t =>
    have hc : (c == '\\') = false := beq_eq_false_iff_ne.mpr fun heq => hback (heq ▸ mem_cons_self)
    rw [cons_append, startsName, startsName, hc, Bool.false_and, Bool.false_and]

/-- A name goes on to the first character that is no part of names, and what halts is none. -/
theorem Name.take_halt : take (t ++ e :: r) = ((take t).1, (take t).2 ++ e :: r) := by
  induction t with
  | nil =>
    have hnone : Lexeme.startsName (e :: r) = false := by cases he <;> rfl
    rw [nil_append, take_of_not_startsName hnone, take_of_not_startsName rfl, nil_append]
  | cons c t ih =>
    have hc : c ≠ '\\' := fun heq => hback (heq ▸ mem_cons_self)
    cases hchar : isChar c with
    | true =>
      rw [cons_append, take_cons_of_isChar hchar, take_cons_of_isChar hchar,
        ih fun h => hback (mem_cons_of_mem _ h)]
    | false =>
      have hnone : ∀ u, Lexeme.startsName (c :: u) = false := fun u => by
        simp [Lexeme.startsName, hchar, hc]
      rw [cons_append, take_of_not_startsName (hnone _), take_of_not_startsName (hnone _), cons_append]

end

/-- A string that is closed is read up to its end, whatever follows. -/
theorem Quotation.take_append {q : Char} {t v : Text} (hback : '\\' ∉ t) (h : (take q t).1 = .closed v)
    (s : Text) : take q (t ++ s) = (.closed v, (take q t).2 ++ s) := by
  induction t generalizing v with
  | nil => simp [take] at h
  | cons c t ih =>
    simp only [mem_cons, not_or] at hback
    have hc : c ≠ '\\' := Ne.symm hback.1
    by_cases hq : c = q
    · rw [take, if_pos hq] at h
      rw [cons_append, take, take, if_pos hq, if_pos hq]
      exact congrArg (·, t ++ s) h
    · by_cases hline : c = '\n'
      · rw [take, if_neg hq, if_pos hline] at h
        contradiction
      · rw [take, if_neg hq, if_neg hline, if_neg hc] at h
        obtain ⟨w, hw, rfl⟩ := Enclosed.prepend_eq_closed h
        rw [cons_append, take, take]
        simp only [if_neg hq, if_neg hline, if_neg hc, ih hback.2 hw, Enclosed.prepend]

namespace UrlText

/-- Text behind the first character that stays does not matter. -/
theorem dropWhile_append {t u : Text} {c : Char} (h : t.dropWhile Text.isCssBlank = c :: u) (s : Text) :
    (t ++ s).dropWhile Text.isCssBlank = c :: (u ++ s) := by
  rw [List.dropWhile_append, h]
  rfl

/-- A URL that is closed is read up to its end, whatever follows. -/
theorem takeRest_append {t v : Text} (hback : '\\' ∉ t) (h : (takeRest t).1 = .closed v) (s : Text) :
    takeRest (t ++ s) = (.closed v, (takeRest t).2 ++ s) := by
  -- The url is closed within its text, so each step of the reading is the same with more text behind it.
  induction t generalizing v with
  | nil => simp [takeRest] at h
  | cons c t ih =>
    simp only [mem_cons, not_or] at hback
    have hescape : ∀ u, ¬(c = '\\' ∧ Name.escapes u = true) := fun u hu => hback.1 hu.1.symm
    by_cases hparen : c = ')'
    · rw [takeRest, if_pos hparen] at h
      rw [cons_append, takeRest, takeRest, if_pos hparen, if_pos hparen]
      exact congrArg (·, t ++ s) h
    · by_cases hblank : Text.isCssBlank c = true
      · rw [takeRest, if_neg hparen, if_neg (hescape _), if_pos hblank] at h
        rw [cons_append, takeRest, takeRest, if_neg hparen, if_neg hparen, if_neg (hescape _),
          if_neg (hescape _), if_pos hblank, if_pos hblank]
        unfold takeEnd at h ⊢
        split at h
        · contradiction
        · rename_i u hu
          rw [dropWhile_append hu]
          exact congrArg (·, u ++ s) h
        · contradiction
      · by_cases hforbidden : isForbidden c = true
        · rw [takeRest, if_neg hparen, if_neg (hescape _), if_neg hblank, if_pos hforbidden] at h
          contradiction
        · rw [takeRest, if_neg hparen, if_neg (hescape _), if_neg hblank, if_neg hforbidden] at h
          obtain ⟨w, hw, rfl⟩ := Enclosed.prepend_eq_closed h
          rw [cons_append, takeRest, takeRest]
          simp only [if_neg hparen, if_neg (hescape _), if_neg hblank, if_neg hforbidden, ih hback.2 hw,
            Enclosed.prepend]

/-- What is closed begins with something. -/
theorem exists_dropWhile_of_closed {t v : Text} (h : (take t).1 = .closed v) :
    ∃ c u, t.dropWhile Text.isCssBlank = c :: u := by
  cases hdrop : t.dropWhile Text.isCssBlank with
  | nil =>
    rw [take, hdrop, takeRest] at h
    contradiction
  | cons c u => exact ⟨c, u, rfl⟩

/-- A URL that was read to its end is read so whatever follows: it ends with its bracket. -/
theorem take_append {t v : Text} (hback : '\\' ∉ t) (h : (take t).1 = .closed v) (s : Text) :
    take (t ++ s) = (.closed v, (take t).2 ++ s) := by
  obtain ⟨c, u, hdrop⟩ := exists_dropWhile_of_closed h
  have hback' : '\\' ∉ c :: u := fun hmem => hback ((dropWhile_suffix _).subset (hdrop ▸ hmem))
  rw [take, hdrop] at h
  rw [take, take, hdrop, dropWhile_append hdrop, ← cons_append, takeRest_append hback' h]

end UrlText

/-! ## Lexemes

  The four kinds of readings, each with its condition on faults and comments: an unclosed string is a fault,
  and a comment that is not closed would take what stands behind the text.
-/

namespace Lexeme

section

variable {e : Char} (he : Halts e) (r : Text) {c : Char} {t : Text}
include he

/-- **Names and calls.**  A URL is the one case in which more than the name is looked at; as it was read
    without a fault its bracket has been read, and nothing behind it matters. -/
theorem readName_halt (hback : '\\' ∉ t) (hfault : ∀ l ∈ (readName t).1, l.isFault = false) :
    readName (t ++ e :: r) = ((readName t).1, (readName t).2 ++ e :: r) := by
  have htake := Name.take_halt he r hback
  obtain ⟨n, u, hn⟩ : ∃ n u, Name.take t = (n, u) := ⟨_, _, rfl⟩
  rw [hn] at htake
  -- A bracket behind the name makes it a call or a URL.
  by_cases hu : ∃ w, u = '(' :: w
  · obtain ⟨w, rfl⟩ := hu
    have hwback : '\\' ∉ w := fun hmem =>
      hback ((Name.take_suffix t).subset (hn ▸ mem_cons_of_mem _ hmem))
    by_cases hurl : Text.lower n = ['u', 'r', 'l'] ∧ UrlText.starts w = true
    · rw [readName_url hn hurl] at hfault ⊢
      obtain ⟨v, hv⟩ := eq_of_ofUrl hfault
      have hstarts : UrlText.starts (w ++ e :: r) = true := by
        obtain ⟨d, x, hdrop⟩ := UrlText.exists_dropWhile_of_closed hv
        have hw := hurl.2
        rw [UrlText.starts, hdrop] at hw
        rw [UrlText.starts, UrlText.dropWhile_append hdrop]
        exact hw
      rw [readName_url (r := w ++ e :: r) htake ⟨hurl.1, hstarts⟩, UrlText.take_append hwback hv, hv]
    · rw [readName_call hn hurl]
      refine readName_call htake fun h => hurl ⟨h.1, ?_⟩
      by_contra hnot
      rw [UrlText.starts_append (by simpa using hnot)] at h
      exact Bool.noConfusion h.2
  · -- There is no bracket, and what halts is none either.
    have hu : ∀ w, u ≠ '(' :: w := fun w hw => hu ⟨w, hw⟩
    rw [readName_ident hn hu]
    refine readName_ident htake fun w hw => ?_
    cases u with
    | nil => cases he <;> simp at hw
    | cons d u => exact hu u (by rw [(cons.inj hw).1])

/-- Numbers go on with a unit or a percent sign only, and what halts is neither. -/
theorem readNumber_halt {n u : Text} (hback : '\\' ∉ u) :
    readNumber n (u ++ e :: r) = ((readNumber n u).1, (readNumber n u).2 ++ e :: r) := by
  unfold readNumber
  rw [Name.startsIdentifier_halt he r hback, Name.take_halt he r hback]
  split
  · rfl
  · cases u with
    | nil => cases he <;> rfl
    | cons d u =>
      by_cases hd : d = '%'
      · subst hd
        rfl
      · simp [hd]

/-- **Everything else that begins with one character.**  Strings have to be read without a fault, so that
    their quotes are closed, and comments are shut out: of these two more is looked at than one character. -/
theorem readSymbol_halt (hback : '\\' ∉ t) (hfault : ∀ l ∈ (readSymbol c t).1, l.isFault = false)
    (hcomment : ∀ l ∈ (readSymbol c t).1, l.isComment = false) :
    readSymbol c (t ++ e :: r) = ((readSymbol c t).1, (readSymbol c t).2 ++ e :: r) := by
  have hstring : ∀ q : Char, (∀ l ∈ ofString (Quotation.take q t).1, l.isFault = false) →
      (ofString (Quotation.take q (t ++ e :: r)).1, (Quotation.take q (t ++ e :: r)).2) =
        (ofString (Quotation.take q t).1, (Quotation.take q t).2 ++ e :: r) := by
    intro q h
    obtain ⟨v, hv⟩ := eq_of_ofString h
    rw [Quotation.take_append hback hv, hv]
  unfold readSymbol at hfault hcomment ⊢
  split
  · -- at-keywords, hash signs, the six brackets, the two kinds of strings
    unfold readAt
    rw [Name.startsIdentifier_halt he r hback, Name.take_halt he r hback]
    split <;> rfl
  · unfold readHash
    rw [startsName_halt he r hback, Name.startsIdentifier_halt he r hback, Name.take_halt he r hback]
    split <;> rfl
  · rfl
  · rfl
  · rfl
  · rfl
  · rfl
  · rfl
  · exact hstring _ hfault
  · exact hstring _ hfault
  · -- A slash may begin a comment, which the text has none of.
    cases t with
    | nil => cases he <;> rfl
    | cons d t =>
      by_cases hd : d = '*'
      · subst hd
        exact absurd (hcomment _ mem_cons_self) (by simp [isComment, Component.isComment])
      · simpa [hd] using readDelimiter_stop he r '/' (d :: t)
  · exact readDelimiter_stop he r c t

/-- **What is read by its first characters**: a name, a number, or a symbol, in this order, as the reader
    tries them. -/
theorem BeginsOther.read_halt (h : BeginsOther c t) (hback : '\\' ∉ c :: t)
    (hfault : ∀ l ∈ (read c t).1, l.isFault = false)
    (hcomment : ∀ l ∈ (read c t).1, l.isComment = false) :
    read c (t ++ e :: r) = ((read c t).1, (read c t).2 ++ e :: r) := by
  have hstarts := Name.startsIdentifier_halt he r hback
  have hnumber := Number.take?_stop he r (c :: t)
  rw [cons_append] at hstarts hnumber
  have h' : BeginsOther c (t ++ e :: r) := h.halt he
  -- The branch of the reading is decided before the character that halts, and each branch ends there.
  cases hs : Name.startsIdentifier (c :: t) with
  | true =>
    rw [h.read_of_name hs] at hfault ⊢
    rw [h'.read_of_name (hstarts.trans hs)]
    exact readName_halt he r hback hfault
  | false =>
    cases hn : Number.take? (c :: t) with
    | some nu =>
      obtain ⟨n, u⟩ := nu
      rw [h.read_of_number hs hn, h'.read_of_number (hstarts.trans hs) (hnumber.trans (by rw [hn]; rfl))]
      refine readNumber_halt he r fun hmem => hback ?_
      rw [← (Number.take?_append hn).1]
      exact mem_append_right _ hmem
    | none =>
      rw [h.read_of_symbol hs hn] at hfault hcomment ⊢
      rw [h'.read_of_symbol (hstarts.trans hs) (hnumber.trans (by rw [hn]; rfl))]
      exact readSymbol_halt he r (fun hmem => hback (mem_cons_of_mem _ hmem)) hfault hcomment

/-- **A lexeme is read up to the same place, whatever comes behind the text**, if the text has no
    backslash and does not end with the white space that is read. -/
theorem read_halt (hback : '\\' ∉ c :: t) (hfault : ∀ l ∈ (read c t).1, l.isFault = false)
    (hcomment : ∀ l ∈ (read c t).1, l.isComment = false)
    (hblank : Text.isCssBlank c = true → (takeBlanks t).2 ≠ []) :
    read c (t ++ e :: r) = ((read c t).1, (read c t).2 ++ e :: r) := by
  by_cases hb : Text.isCssBlank c = true
  · rw [read_of_blank hb, read_of_blank hb, takeBlanks_append (hblank hb)]
  by_cases hu : (c = 'u' ∨ c = 'U') ∧ UnicodeRange.starts t = true
  · have hdrop : (t ++ e :: r).drop 1 = t.drop 1 ++ e :: r := by
      cases t with
      | nil => exact absurd hu.2 (by decide)
      | cons d t => rfl
    have hu' : (c = 'u' ∨ c = 'U') ∧ UnicodeRange.starts (t ++ e :: r) = true := by
      rwa [UnicodeRange.starts_stop he]
    rw [read_of_range hb hu, read_of_range hb hu', hdrop, UnicodeRange.take_stop he]
  cases harrow : Text.dropFront? ['-', '-', '>'] (c :: t) with
  | some u =>
    have hu' : ¬((c = 'u' ∨ c = 'U') ∧ UnicodeRange.starts (t ++ e :: r) = true) := by
      rwa [UnicodeRange.starts_stop he]
    have harrow' : Text.dropFront? ['-', '-', '>'] (c :: (t ++ e :: r)) = some (u ++ e :: r) := by
      rw [dropFront?_arrow_halt he, harrow]
      rfl
    rw [read_of_arrow hb hu harrow, read_of_arrow hb hu' harrow']
  | none => exact BeginsOther.read_halt he r ⟨hb, hu, harrow⟩ hback hfault hcomment

end

/-- A text is settled if it is scanned without faults and comments, has no backslash, and does not end
    with white space. -/
structure Settled (x : Text) : Prop where
  backslash : '\\' ∉ x
  isFault : ∀ l ∈ scan x, l.item.isFault = false
  isComment : ∀ l ∈ scan x, l.item.isComment = false
  last : ∀ c ∈ x.getLast?, Text.isCssBlank c = false

instance (x : Text) : Decidable (Settled x) :=
  decidable_of_iff ('\\' ∉ x ∧ (∀ l ∈ scan x, l.item.isFault = false) ∧
    (∀ l ∈ scan x, l.item.isComment = false) ∧ x.getLast?.all (fun c => !Text.isCssBlank c) = true)
    ⟨fun h => ⟨h.1, h.2.1, h.2.2.1, by simpa [Option.all_eq_true] using h.2.2.2⟩,
      fun h => ⟨h.1, h.2, h.3, by simpa [Option.all_eq_true] using h.4⟩⟩

/-- White space goes on up to the end of a text only if the text ends with it. -/
theorem takeBlanks_ne_nil {c : Char} {t : Text} (hc : Text.isCssBlank c = true)
    (hlast : ∀ d ∈ (c :: t).getLast?, Text.isCssBlank d = false) : (takeBlanks t).2 ≠ [] := by
  intro h
  have hall : ∀ d ∈ c :: t, Text.isCssBlank d = true := by
    have happend := takeBlanks_fst_append t
    rw [h, append_nil] at happend
    intro d hd
    rcases mem_cons.mp hd with rfl | hd
    · exact hc
    · exact takeBlanks_subset t d (happend.symm ▸ hd)
  have hend := hlast _ (getLast?_eq_getLast_of_ne_nil (cons_ne_nil c t))
  rw [hall _ (getLast_mem _)] at hend
  exact Bool.noConfusion hend

/-- What is left behind a lexeme of a settled text is settled. -/
theorem Settled.rest {c : Char} {t : Text} (h : Settled (c :: t)) : Settled (read c t).2 := by
  have hsuffix := (reading_read c t).suffix
  have hscan : ∀ l ∈ scan (read c t).2, l ∈ scan (c :: t) := by
    intro l hl
    rw [scan]
    exact mem_append_right _ hl
  refine ⟨fun hmem => h.backslash (hsuffix.subset hmem), fun l hl => h.isFault l (hscan l hl),
    fun l hl => h.isComment l (hscan l hl), fun d hd => h.last d ?_⟩
  obtain ⟨w, hw⟩ := hsuffix
  rw [← hw, getLast?_append, Option.mem_def.mp hd]
  rfl

/-- **A settled text is scanned for itself**, and so is what halts the reading behind it. -/
theorem Settled.lexemes_append {x : Text} (h : Settled x) {e : Char} (he : Halts e) (r : Text) :
    lexemes (x ++ e :: r) = lexemes x ++ lexemes (e :: r) := by
  induction hn : x.length using Nat.strong_induction_on generalizing x with
  | _ n ih =>
    subst hn
    cases x with
    | nil => rw [lexemes_nil]; rfl
    | cons c t =>
      have hmem : ∀ l ∈ (read c t).1, (⟨l, c :: t⟩ : Found Lexeme) ∈ scan (c :: t) := by
        intro l hl
        rw [scan]
        exact mem_append_left _ (mem_map_of_mem hl)
      have hread := read_halt he r h.backslash (fun l hl => h.isFault _ (hmem l hl))
        (fun l hl => h.isComment _ (hmem l hl)) fun hc => takeBlanks_ne_nil hc h.last
      have hlt : (read c t).2.length < (c :: t).length := Nat.lt_succ_of_le (read_length_le c t)
      rw [cons_append, lexemes_cons, lexemes_cons, hread, ih _ hlt h.rest rfl, append_assoc]

end Lexeme

/-! ## Closed texts

  From lexemes to components. The gap behind a text is white space or a slash, or nothing; when line ends
  are unified its first character may change, but it stays a gap.
-/

namespace Component

open Lexeme (lexemes normalize)
open Spot (isSpace)

/-- The end of a text, or a place where white space or a slash stands. -/
def atGap : Text → Bool
  | [] => true
  | c :: _ => isSpace c || c == '/'

/-- A text that is parsed for itself, whatever is behind a gap after it. -/
def Closed (x : Text) : Prop := ∀ r, atGap r = true → parse (x ++ r) = parse x ++ parse r

/-- White space in front is unified with a newline behind it, or becomes white space of CSS. -/
theorem normalize_space {c : Char} (hc : isSpace c = true) (t : Text) :
    (∃ u, t = '\n' :: u ∧ normalize (c :: t) = normalize t) ∨
      ∃ d, Text.isCssBlank d = true ∧ normalize (c :: t) = d :: normalize t := by
  rw [Lexeme.normalize, Lexeme.unifyLineEnds_cons]
  split
  · rename_i hline
    obtain ⟨u, rfl⟩ := head?_eq_some_iff.mp hline.2
    exact Or.inl ⟨u, rfl, rfl⟩
  · refine Or.inr ⟨_, ?_, rfl⟩
    simp only [isSpace, Text.isCssBlank, Bool.or_eq_true, beq_iff_eq] at hc
    rcases hc with (((rfl | rfl) | rfl) | rfl) | rfl <;> decide

/-- Where a gap begins, nothing goes on but a backslash. -/
theorem exists_normalize_of_atGap {c : Char} {r : Text} (h : atGap (c :: r) = true) :
    ∃ e s, normalize (c :: r) = e :: s ∧ Halts e := by
  have hhalts : ∀ d, Text.isCssBlank d = true → Halts d := by
    intro d hd
    simp only [Text.isCssBlank, Bool.or_eq_true, beq_iff_eq] at hd
    rcases hd with (rfl | rfl) | rfl
    · exact .space
    · exact .tab
    · exact .newline
  rcases Bool.or_eq_true_iff.mp (show (isSpace c || c == '/') = true from h) with hspace | hslash
  · rcases normalize_space hspace r with ⟨u, rfl, hnormalize⟩ | ⟨d, hd, hnormalize⟩
    · exact ⟨'\n', normalize u, hnormalize.trans rfl, .newline⟩
    · exact ⟨d, normalize r, hnormalize, hhalts d hd⟩
  · obtain rfl : c = '/' := by simpa using hslash
    exact ⟨'/', normalize r, Lexeme.normalize_append (by decide : Lexeme.Normal ['/']) r, .slash⟩

/-- The empty text has no components. -/
theorem parse_nil : parse [] = [] := by
  rw [parse_eq_nest]
  show Nesting.nest (lexemes []) = []
  rw [Lexeme.lexemes_nil]
  rfl

instance (cs : List Component) : Decidable (Faultless cs) :=
  inferInstanceAs (Decidable (∀ l ∈ flatList cs, l.isFault = false))

/-- **A settled text is closed**, if no bracket is missing at its end. -/
theorem closed_of_settled {x : Text} (hsettled : Lexeme.Settled x) (hnormal : Lexeme.Normal x)
    (hfaultless : Faultless (parse x)) (hlength : (flatList (parse x)).length = (lexemes x).length) :
    Closed x := by
  have hlexemes : lexemes x = flatList (parse x) := by
    obtain ⟨closing, hflat, -⟩ := exists_flatList_parse hfaultless
    rw [Lexeme.normalize_of_normal hnormal] at hflat
    obtain rfl : closing = [] := by
      rw [hflat, length_append] at hlength
      exact length_eq_zero_iff.mp (by omega)
    rw [hflat, append_nil]
  intro r hr
  cases r with
  | nil => rw [append_nil, parse_nil, append_nil]
  | cons c r =>
    obtain ⟨e, s, hnormalize, he⟩ := exists_normalize_of_atGap hr
    refine parse_append ?_
    rw [Lexeme.normalize_append hnormal, hnormalize, hsettled.lexemes_append he, hlexemes]

/-- Lexemes behind white space nest as they do without it. -/
theorem nest_whitespace (w : Text) (ls : List Lexeme) :
    Nesting.nest (.leaf (.whitespace w) :: ls) = .whitespace w :: Nesting.nest ls :=
  Nesting.nest_append [.whitespace w] ls

/-- **White space in front of a text** adds nothing to its other components. -/
theorem significant_parse_space {c : Char} (hc : isSpace c = true) (t : Text) :
    significant (parse (c :: t)) = significant (parse t) := by
  have hblank : ∀ d u, Text.isCssBlank d = true →
      significant (Nesting.nest (lexemes (d :: u))) =
        significant (Nesting.nest (lexemes (Lexeme.takeBlanks u).2)) := by
    intro d u hd
    have hread : Lexeme.read d u = ([.leaf (.whitespace (d :: (Lexeme.takeBlanks u).1))],
        (Lexeme.takeBlanks u).2) := by
      simp [Lexeme.read, hd]
    have hlexemes : lexemes (d :: u) = .leaf (.whitespace (d :: (Lexeme.takeBlanks u).1)) ::
        lexemes (Lexeme.takeBlanks u).2 := by
      rw [Lexeme.lexemes_cons, hread]
      rfl
    rw [hlexemes, nest_whitespace]
    rfl
  rw [parse_eq_nest, parse_eq_nest]
  -- The first character may be joined with a line feed behind it, or stand for a blank of its own.
  rcases normalize_space hc t with ⟨-, -, h⟩ | ⟨d, hd, h⟩
  · rw [h]
  · rw [h, hblank d _ hd]
    cases hu : normalize t with
    | nil => rfl
    | cons a u =>
      cases ha : Text.isCssBlank a with
      | true => simp [Lexeme.takeBlanks, ha, hblank a u ha]
      | false => simp [Lexeme.takeBlanks, ha]

/-- **A slash in front of a text** is a component of its own, if it begins no comment. -/
theorem parse_slash {t : Text} (h : t.head? ≠ some '*') : parse ('/' :: t) = .literal ['/'] :: parse t := by
  have hnormal : normalize ('/' :: t) = '/' :: normalize t :=
    Lexeme.normalize_append (by decide : Lexeme.Normal ['/']) t
  refine parse_append (show _ = flatList [.literal ['/']] ++ _ from ?_)
  rw [hnormal, Lexeme.lexemes_slash fun hstar => h (Lexeme.head?_of_normalize (Or.inl rfl) hstar)]
  rfl

end Component

end CssShorthand
