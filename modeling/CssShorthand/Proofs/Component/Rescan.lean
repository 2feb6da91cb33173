/-
  SCANNING WHAT IS WRITTEN.

  `Lexeme.lexemes` are the lexemes of a text without comments.  If the lexemes of a text are written
  as this very text, then the text is scanned in step with its lexemes, one after the other and with
  the comments that are written between them, and is scanned as before if a space or a semicolon follows
  it (`InStep.scanned`).

  One thing could break the step: the delimiters `/` and `*=` are written side by side, and are read as
  the beginning of a comment.  But then the equals sign is lost, and the lexemes that are read stand for
  fewer of them than what they are written as.

  The invariant `InStep` says of a place in the text: what is left is what the remaining lexemes are written
  as, behind the last one, and the lexemes that are left are those of what is left. A step takes off one
  lexeme, or one comment that was written between two. The count of equals signs is compared only where a
  comment would be read although none was written.
-/
import Mathlib.Data.List.Flatten
import CssShorthand.Proofs.Component.Formed

namespace CssShorthand

open List
open Name (unescape)

namespace Lexeme

/-- The lexemes of a text without its comments. -/
def lexemes (t : Text) : List Lexeme := ((scan t).filter fun l => !l.item.isComment).map (·.item)

variable {c : Char} {t r : Text} {ls : List Lexeme} {l : Lexeme}

theorem lexemes_nil : lexemes [] = [] := by
  rw [lexemes, scan]
  rfl

/-- The lexemes of a text are those that are read first, without comments, and those of what is left. -/
theorem lexemes_cons (c : Char) (t : Text) :
    lexemes (c :: t) = (read c t).1.filter (fun l => !l.isComment) ++ lexemes (read c t).2 := by
  have hmap : ∀ (ls : List Lexeme) (s : Text),
      ((ls.map (Found.mk · s)).filter fun l => !l.item.isComment).map (·.item) =
        ls.filter fun l => !l.isComment := by
    intro ls s
    induction ls with
    | nil => rfl
    | cons l ls ih => cases hl : l.isComment <;> simp [hl, ih]
  rw [lexemes, scan, filter_append, map_append, hmap]
  rfl

/-- No fault is among the lexemes that are read if none is among the lexemes of the text. -/
theorem isFault_of_mem_read (h : ∀ l ∈ lexemes (c :: t), l.isFault = false)
    (hl : l ∈ (read c t).1) : l.isFault = false := by
  cases hcomment : l.isComment with
  | true =>
    cases l with
    | leaf d => cases d <;> first | rfl | contradiction
    | _ => rfl
  | false =>
    refine h l ?_
    rw [lexemes_cons]
    exact mem_append_left _ (mem_filter.mpr ⟨hl, by simp [hcomment]⟩)

/-- The lexemes of a text are found in it, in its order. -/
theorem content_lexemes_sublist (t : Text) (hfault : ∀ l ∈ lexemes t, l.isFault = false) :
    (lexemes t).flatMap content <+ unescape t := by
  induction hn : t.length using Nat.strong_induction_on generalizing t with
  | _ n ih =>
    subst hn
    cases t with
    | nil =>
      rw [lexemes_nil]
      exact nil_sublist _
    | cons c t =>
      have hread := content_sublist (reading_read c t) fun l hl => isFault_of_mem_read hfault hl
      rw [lexemes_cons] at hfault ⊢
      have hrest := ih _ (Nat.lt_succ_of_le (read_length_le c t)) (read c t).2
        (fun l hl => hfault l (mem_append_right _ hl)) rfl
      rw [flatMap_append]
      have hfirst : ((read c t).1.filter fun l => !l.isComment).flatMap content <+
          (read c t).1.flatMap content := filter_sublist.flatMap _
      exact (hfirst.append hrest).trans hread

/-- **The lexemes of a text are well formed** if there is no fault among them. -/
theorem formed_of_mem_lexemes (t : Text) (hnormal : Normal t)
    (hfault : ∀ l ∈ lexemes t, l.isFault = false) : ∀ l ∈ lexemes t, Formed l := by
  induction hn : t.length using Nat.strong_induction_on generalizing t with
  | _ n ih =>
    subst hn
    cases t with
    | nil => simp [lexemes_nil]
    | cons c t =>
      have hread := reading_read c t
      have hfaults : ∀ l ∈ (read c t).1, l.isFault = false := fun l hl =>
        isFault_of_mem_read hfault hl
      rw [lexemes_cons] at hfault ⊢
      intro l hl
      rcases mem_append.mp hl with hl | hl
      · obtain ⟨hl, hcomment⟩ := mem_filter.mp hl
        exact formed_of_reading hread hnormal hfaults hl (by simpa using hcomment)
      · exact ih _ (Nat.lt_succ_of_le (read_length_le c t)) _ (hnormal.subset hread.suffix.subset)
          (fun l hl => hfault l (mem_append_right _ hl)) rfl l hl

/-- One lexeme is read, or a fault is. -/
theorem Reading.eq_singleton (h : Reading c t ls r) (hfault : ∀ l ∈ ls, l.isFault = false) :
    ∃ l, ls = [l] := by
  cases h with
  | url hr =>
    obtain ⟨v, he⟩ := eq_of_ofUrl hfault
    exact ⟨_, by rw [he]; rfl⟩
  | string h =>
    obtain ⟨v, he⟩ := eq_of_ofString hfault
    exact ⟨_, by rw [he]; rfl⟩
  | symbol hb hs hn =>
    obtain ⟨text, htext, -⟩ := readDelimiter_eq c t
    exact ⟨_, htext⟩
  | _ => exact ⟨_, rfl⟩

/-- A comment is read where one begins. -/
theorem Reading.of_comment (h : Reading c t ls r) (hl : l ∈ ls) (hcomment : l.isComment = true) :
    ∃ u, c = '/' ∧ t = '*' :: u ∧ r = (CommentText.take u).2 := by
  cases h with
  | url hr => rcases mem_ofUrl hl with ⟨v, isClosed, rfl⟩ | ⟨f, rfl⟩ <;> contradiction
  | string h => rcases mem_ofString hl with ⟨v, isClosed, rfl⟩ | ⟨f, rfl⟩ <;> contradiction
  | symbol hb hs hn =>
    obtain ⟨text, htext, -⟩ := readDelimiter_eq c t
    rw [htext] at hl
    obtain rfl := mem_singleton.mp hl
    contradiction
  | comment hc ht => exact ⟨_, hc, ht, rfl⟩
  | _ =>
    obtain rfl := mem_singleton.mp hl
    contradiction

/-! ## In step

  Four kinds of facts: that no comment is written where none is needed, how written lexemes begin, that no
  comment is read by accident, and the steps themselves.
-/

/-- The comment that is written between two lexemes. -/
theorem read_between (t : Text) :
    read '/' ('*' :: '*' :: '/' :: t) = ([.leaf (.comment [])], t) := by
  rfl

/-- The empty comment between two lexemes is dropped. -/
theorem lexemes_between (t : Text) : lexemes (['/', '*', '*', '/'] ++ t) = lexemes t := by
  show lexemes ('/' :: '*' :: '*' :: '/' :: t) = _
  rw [lexemes_cons, read_between]
  rfl

/-- No newline is written before a newline. -/
theorem between_ne_newline (a : Lexeme) (w : Text) :
    between a (.leaf (.whitespace ('\n' :: w))) ≠ ['\n'] := by
  cases a with
  | leaf d =>
    show Component.between d (.whitespace ('\n' :: w)) ≠ ['\n']
    unfold Component.between
    split
    · decide
    · simp [Component.startsLine]
  | _ => simp [between]

/-- The joints of names and numbers. -/
def words : List Joint := [.ident, .function, .number, .percentage, .dimension]

/-- What begins with a character of names is a name or a number, or a delimiter, but for what begins
    with the letter of its kind. -/
theorem word_or_delimiter (hl : Begins l c) (hc : Name.isChar c = true) (hu : c ≠ 'u') (hU : c ≠ 'U') :
    (∃ d, (∀ b, between (.leaf b) l = Component.between b d) ∧ Joint.of d ∈ words) ∨
      ∃ text, l = delimiter text ∧ text.head? = some c := by
  have hne : ∀ d, Name.isChar d = false → c ≠ d := by
    rintro d hd rfl
    rw [hc] at hd
    exact Bool.noConfusion hd
  -- Whatever begins with a character of words is joined as a word, unless it is a range or a url.
  cases l with
  | leaf d =>
    cases d with
    | ident name => exact Or.inl ⟨_, fun _ => rfl, by simp [Joint.of, words]⟩
    | number numeral => exact Or.inl ⟨_, fun _ => rfl, by simp [Joint.of, words]⟩
    | percentage numeral => exact Or.inl ⟨_, fun _ => rfl, by simp [Joint.of, words]⟩
    | dimension numeral unit => exact Or.inl ⟨_, fun _ => rfl, by simp [Joint.of, words]⟩
    | whitespace text =>
      have hblank : Text.isCssBlank c = true := hl
      simp only [Text.isCssBlank, Bool.or_eq_true, beq_iff_eq] at hblank
      rcases hblank with (rfl | rfl) | rfl <;> exact Bool.noConfusion hc
    | atKeyword name => exact absurd hl (hne '@' rfl)
    | hash name isIdentifier => exact absurd hl (hne '#' rfl)
    | string value isClosed => exact absurd hl (hne '"' rfl)
    | url value isClosed => exact absurd hl hu
    | unicodeRange first last => exact absurd hl hU
    | literal text => exact Or.inr ⟨text, rfl, hl⟩
    | comment text => exact hl.elim
    | block b content => exact hl.elim
    | function name arguments => exact hl.elim
    | fault f => exact hl.elim
  | call name => exact Or.inl ⟨_, fun _ => rfl, by simp [Joint.of, words]⟩
  | opened b => exact absurd hl (hne _ (by cases b <;> rfl))
  | closed b => exact absurd hl (hne _ (by cases b <;> rfl))

/-- The first character that is written after a component: it is that of a comment or newline between,
    or what is written next begins with it. -/
theorem begins_writeAfter {a : Lexeme} {G : List Lexeme} (hG : ∀ l ∈ G, Formed l)
    (hw : writeAfter a G = c :: r) :
    c = '/' ∨ c = '\n' ∨ ∃ l G' v, G = l :: G' ∧ between a l = [] ∧ l.write = c :: v ∧
      r = v ++ writeAfter l G' ∧ Formed l ∧ Begins l c := by
  cases G with
  | nil => contradiction
  | cons l G =>
    obtain ⟨d, v, hd, hl⟩ := (hG l mem_cons_self).exists_write
    rw [writeAfter, hd] at hw
    rcases between_eq_or a l with hb | hb | hb
    · rw [hb] at hw
      exact Or.inl (List.cons.inj hw).1.symm
    · rw [hb] at hw
      exact Or.inr (Or.inl (List.cons.inj hw).1.symm)
    · rw [hb] at hw
      obtain ⟨rfl, rfl⟩ := List.cons.inj hw
      exact Or.inr (Or.inr ⟨l, G, v, rfl, hb, hd, rfl, hG l mem_cons_self, hl⟩)

/-- What clashes with a word does not stand beside one. -/
theorem not_word {b : Component} (hclash : ∀ j ∈ words, (Joint.of b).clash j = true)
    (hb : between (.leaf b) l = []) :
    ¬∃ d, (∀ b, between (.leaf b) l = Component.between b d) ∧ Joint.of d ∈ words := by
  rintro ⟨d, hbetween, hd⟩
  rw [hbetween, Component.between, if_pos (hclash _ hd)] at hb
  contradiction

/-- A delimiter that begins with a character of names is a hyphen or an arrow. -/
theorem IsDelimiter.eq_of_isChar {text : Text} (h : IsDelimiter text) (hhead : text.head? = some c)
    (hc : Name.isChar c = true) : text = ['-'] ∨ text = ['-', '-', '>'] := by
  cases h with
  | hyphen => exact Or.inl rfl
  | closing => exact Or.inr rfl
  | char hnot =>
    rw [Option.some.inj hhead, hc] at hnot
    exact Bool.noConfusion hnot
  | equals hjoin =>
    rw [Option.some.inj hhead] at hjoin
    simp only [joinsEquals, Bool.or_eq_true, beq_iff_eq] at hjoin
    rcases hjoin with (((rfl | rfl) | rfl) | rfl) | rfl <;> exact Bool.noConfusion hc
  | bars | opening =>
    rw [← Option.some.inj hhead] at hc
    exact Bool.noConfusion hc

/-- So after what clashes with words, only these begin with a character of names. -/
theorem eq_hyphen_of_begins {b : Component} (hclash : ∀ j ∈ words, (Joint.of b).clash j = true)
    (hb : between (.leaf b) l = []) (hformed : Formed l) (hl : Begins l c)
    (hc : Name.isChar c = true) (hu : c ≠ 'u') (hU : c ≠ 'U') :
    l = delimiter ['-'] ∨ l = delimiter ['-', '-', '>'] := by
  obtain ⟨text, rfl, htext⟩ := (word_or_delimiter hl hc hu hU).resolve_left (not_word hclash hb)
  exact (IsDelimiter.eq_of_isChar hformed.2 htext hc).imp (congrArg delimiter) (congrArg delimiter)

/-- After what clashes with words no hexadecimal digit is written. -/
theorem isHexDigit_writeAfter {b : Component} {G : List Lexeme} (hG : ∀ l ∈ G, Formed l)
    (hclash : ∀ j ∈ words, (Joint.of b).clash j = true)
    (hw : writeAfter (.leaf b) G = c :: r) : Name.isHexDigit c = false := by
  by_contra hhex
  have hhex : Name.isHexDigit c = true := by simpa using hhex
  have hne : ∀ d, Name.isHexDigit d = false → c ≠ d := by
    rintro d hd rfl
    rw [hhex] at hd
    exact Bool.noConfusion hd
  rcases begins_writeAfter hG hw with h | h | ⟨l, G', v, -, hb, -, -, hformed, hl⟩
  · exact hne '/' rfl h
  · exact hne '\n' rfl h
  · rcases eq_hyphen_of_begins hclash hb hformed hl (Name.isChar_of_isHexDigit hhex) (hne 'u' rfl)
      (hne 'U' rfl) with rfl | rfl
    · exact hne '-' rfl (Option.some.inj hl).symm
    · exact hne '-' rfl (Option.some.inj hl).symm

/-- After a range of code points no question mark is written. -/
theorem isWildcard_writeAfter {G : List Lexeme} (hG : ∀ l ∈ G, Formed l) {first last : Nat}
    (hw : writeAfter (.leaf (.unicodeRange first last)) G = c :: r) :
    UnicodeRange.isWildcard c = false := by
  by_contra hwild
  obtain rfl : c = '?' := by simpa [UnicodeRange.isWildcard] using hwild
  rcases begins_writeAfter hG hw with h | h | ⟨l, G', v, -, hb, -, -, hformed, hl⟩
  · exact absurd h (by decide)
  · exact absurd h (by decide)
  · rcases eq_of_begins hl rfl with ⟨text, rfl⟩ | ⟨text, rfl, htext⟩
    · exact Bool.noConfusion (show Text.isCssBlank '?' = true from hl)
    · cases hformed.2 with
      | char hnot =>
        rw [Option.some.inj htext] at hb
        exact absurd hb (by simp [between, delimiter, Component.between, Joint.of, Joint.clash])
      | equals hjoin =>
        rw [Option.some.inj htext] at hjoin
        exact Bool.noConfusion hjoin
      | hyphen | bars | opening | closing => exact absurd htext (by decide)

/-- A range of code points that is written ends before what is written next. -/
theorem ends_writeAfter {G : List Lexeme} (hG : ∀ l ∈ G, Formed l) (first last : Nat) :
    UnicodeRange.Ends (writeAfter (.leaf (.unicodeRange first last)) G) := by
  have hclash : ∀ j ∈ words, (Joint.of (.unicodeRange first last)).clash j = true := by
    show ∀ j ∈ words, Joint.clash .unicodeRange j = true
    decide
  have hhyphen : ∀ j ∈ words, (Joint.of (.literal ['-'])).clash j = true := by
    show ∀ j ∈ words, Joint.clash (.char '-') j = true
    decide
  cases hw : writeAfter (.leaf (.unicodeRange first last)) G with
  | nil => trivial
  | cons c r =>
    refine ⟨isHexDigit_writeAfter hG hclash hw, isWildcard_writeAfter hG hw, ?_⟩
    rintro rfl d u rfl
    -- A hyphen goes on with the range only if a digit is written behind it.
    rcases begins_writeAfter hG hw with h | h | ⟨l, G', v, rfl, hb, hv, hrest, hformed, hl⟩
    · exact absurd h (by decide)
    · exact absurd h (by decide)
    · rcases eq_hyphen_of_begins hclash hb hformed hl rfl (by decide) (by decide) with rfl | rfl
      · obtain rfl : v = [] := (List.cons.inj hv).2.symm
        have hG' : ∀ l ∈ G', Formed l := fun l h => hG l (mem_cons_of_mem _ h)
        exact isHexDigit_writeAfter hG' hhyphen hrest.symm
      · obtain rfl : v = ['-', '>'] := (List.cons.inj hv).2.symm
        rw [(List.cons.inj hrest).1]
        rfl

/-- **No comment begins where a lexeme is written**, if the lexemes that are read stand for as many
    equals signs as those that are written. -/
theorem not_comment {a : Lexeme} {G : List Lexeme} (hG : ∀ m ∈ l :: G, Formed m)
    (hnone : between a l = []) (hfault : ∀ m ∈ lexemes (writeAfter a (l :: G)), m.isFault = false)
    (hequals : ((l :: G).flatMap content).count '=' ≤
      ((lexemes (writeAfter a (l :: G))).flatMap content).count '=') (u : Text) :
    writeAfter a (l :: G) ≠ '/' :: '*' :: u := by
  intro ht
  obtain ⟨w, hw, hrest, hc⟩ : ∃ w, l.write = '/' :: w ∧ '*' :: u = w ++ writeAfter l G ∧ Begins l '/' := by
    obtain ⟨c, w, hw, hc⟩ := (hG l mem_cons_self).exists_write
    rw [writeAfter, hnone, hw] at ht
    obtain ⟨rfl, hrest⟩ := List.cons.inj ht
    exact ⟨w, hw, hrest.symm, hc⟩
  obtain rfl := eq_slash_of_begins (hG l mem_cons_self) hc
  obtain rfl : w = [] := (List.cons.inj hw).2.symm
  have hG' : ∀ m ∈ G, Formed m := fun m hm => hG m (mem_cons_of_mem _ hm)
  rcases begins_writeAfter hG' hrest.symm with h | h | ⟨m, G', v, rfl, hb, hv, hu, hm, hd⟩
  · exact absurd h (by decide)
  · exact absurd h (by decide)
  rcases eq_star_of_begins hm hd with rfl | rfl
  · exact absurd hb (by decide)
  -- The comment that begins here takes the equals sign.
  obtain rfl : v = ['='] := (List.cons.inj hv).2.symm
  subst hu
  have hread : lexemes (writeAfter a (delimiter ['/'] :: delimiter ['*', '='] :: G')) =
      lexemes (CommentText.take (writeAfter (delimiter ['*', '=']) G')).2 := by
    rw [ht, lexemes_cons]
    rfl
  rw [hread] at hfault hequals
  have hlost := (content_lexemes_sublist _ hfault).count_le '='
  have hcomment := (CommentText.sublist_take (writeAfter (delimiter ['*', '=']) G')).count_le '='
  have hwritten := equals_writeAfter_le (fun k hk => hG' k (mem_cons_of_mem _ hk))
    (delimiter ['*', '='])
  have hcount : ((delimiter ['/'] :: delimiter ['*', '='] :: G').flatMap content).count '=' =
      1 + (G'.flatMap content).count '=' := by
    simp only [flatMap_cons, count_append]
    rw [← Nat.add_assoc]
    rfl
  unfold equals at hwritten
  omega

/-- White space that is read before what begins a line is not what was written there. -/
theorem read_newline (t : Text) :
    read '\n' t = ([.leaf (.whitespace ('\n' :: (takeBlanks t).1))], (takeBlanks t).2) := rfl

/-- No equals sign is lost on reading, as missing brackets stand for none. -/
theorem equals_le {A G B C : List Lexeme} (h : lexemes t ++ C = A ++ G ++ B)
    (hC : ∀ l ∈ C, ∃ b, l = .closed b) :
    (G.flatMap content).count '=' ≤ ((lexemes t).flatMap content).count '=' := by
  have hclosing : C.flatMap content = [] := by
    rw [flatMap_eq_nil_iff]
    intro l hl
    obtain ⟨b, rfl⟩ := hC l hl
    rfl
  have hall := congrArg (fun ls => (ls.flatMap content).count '=') h
  simp only [flatMap_append, count_append, hclosing, count_nil] at hall
  omega

/-- What lexemes come to be read as: brackets that were missing stand behind the ones, white space
    behind the others. -/
structure InStep (t : Text) (a : Lexeme) (G B C : List Lexeme) : Prop where
  lexemes_append : lexemes t ++ C = G ++ B
  text_eq : t = writeAfter a G
  formed : ∀ l ∈ G, Formed l
  last : ∀ l ∈ G.getLast?, l.isWhitespace = false
  blank : ∀ l ∈ B, l.isWhitespace = true
  closing : ∀ l ∈ C, ∃ b, l = .closed b

theorem Formed.isFault_eq_false (h : Formed l) : l.isFault = false := by
  cases l with
  | leaf d => cases d <;> first | rfl | exact h.2.elim
  | _ => rfl

theorem Formed.isComment_eq_false (h : Formed l) : l.isComment = false := by
  cases l with
  | leaf d => cases d <;> first | rfl | exact h.2.elim
  | _ => rfl

namespace InStep

variable {a : Lexeme} {G B C : List Lexeme}

/-- In step there are no faults: what is written of a fault is no lexeme. -/
theorem isFault_eq_false (h : InStep t a G B C) : ∀ l ∈ lexemes t, l.isFault = false := by
  intro l hl
  have hmem : l ∈ G ++ B := h.lexemes_append ▸ mem_append_left C hl
  rcases mem_append.mp hmem with hl | hl
  · exact (h.formed l hl).isFault_eq_false
  · have hblank := h.blank l hl
    cases l with
    | leaf d => cases d <;> first | rfl | contradiction
    | _ => rfl

/-- Where no lexeme is left, nothing is left at all. -/
theorem nil (h : InStep t a [] B C) : C = [] ∧ B = [] := by
  obtain rfl : t = [] := h.text_eq
  have hsame : C = B := by simpa [lexemes_nil] using h.lexemes_append
  subst hsame
  cases C with
  | nil => exact ⟨rfl, rfl⟩
  | cons l C =>
    obtain ⟨b, rfl⟩ := h.closing l mem_cons_self
    exact Bool.noConfusion (show false = true from h.blank _ mem_cons_self)

/-- A comment that is written is passed. -/
theorem of_comment (h : InStep t a (l :: G) B C) (hb : between a l = ['/', '*', '*', '/']) :
    ∃ u, t = ['/', '*', '*', '/'] ++ u ∧ InStep u (.opened .round) (l :: G) B C := by
  refine ⟨l.write ++ writeAfter l G, ?_, ?_⟩
  · rw [h.text_eq, writeAfter, hb, append_assoc]
  · have htext : t = ['/', '*', '*', '/'] ++ (l.write ++ writeAfter l G) := by
      rw [h.text_eq, writeAfter, hb, append_assoc]
    refine ⟨?_, ?_, h.formed, h.last, h.blank, h.closing⟩
    · rw [← lexemes_between, ← htext]
      exact h.lexemes_append
    · rw [writeAfter, between_opened, nil_append]

/-- No newline stands between, as it would have been read as white space. -/
theorem between_ne (h : InStep t a (l :: G) B C) : between a l ≠ ['\n'] := by
  intro hb
  have htext : t = '\n' :: (l.write ++ writeAfter l G) := by
    rw [h.text_eq, writeAfter, hb]
    rfl
  have hread := h.lexemes_append
  rw [htext, lexemes_cons, read_newline] at hread
  have hl : l = .leaf (.whitespace ('\n' :: (takeBlanks (l.write ++ writeAfter l G)).1)) :=
    (List.cons.inj hread).1.symm
  rw [hl] at hb
  exact between_ne_newline a _ hb

/-- A lexeme is read as it was written, and what follows it stays in step. -/
theorem of_lexeme (h : InStep t a (l :: G) B C) (hb : between a l = []) :
    ∃ c u, t = c :: u ∧ Settles (read c) u l (writeAfter l G) ∧
      lexemes t = l :: lexemes (writeAfter l G) ∧ InStep (writeAfter l G) l G B C := by
  have hl := h.formed l mem_cons_self
  have hG : ∀ m ∈ G, Formed m := fun m hm => h.formed m (mem_cons_of_mem _ hm)
  obtain ⟨c, w, hw, hc⟩ := hl.exists_write
  have htext : t = c :: (w ++ writeAfter l G) := by
    rw [h.text_eq, writeAfter, hb, hw]
    rfl
  -- Nothing that is read here is a comment: it would need a star behind a slash, which are never written side
  -- by side.
  have hcomment : ∀ m ∈ (read c (w ++ writeAfter l G)).1, m.isComment = false := by
    intro m hm
    by_contra hmc
    obtain ⟨u, rfl, hu, -⟩ := (reading_read c _).of_comment hm (by simpa using hmc)
    have hequals := equals_le (A := []) h.lexemes_append h.closing
    have hfault := h.isFault_eq_false
    rw [h.text_eq] at hequals hfault htext
    exact not_comment h.formed hb hfault hequals u (by rw [htext, hu])
  have hread : ∃ k, (read c (w ++ writeAfter l G)).1 = [k] := by
    refine (reading_read c _).eq_singleton fun m hm => isFault_of_mem_read ?_ hm
    rw [← htext]
    exact h.isFault_eq_false
  obtain ⟨k, hk⟩ := hread
  have hlexemes : lexemes t = k :: lexemes (read c (w ++ writeAfter l G)).2 := by
    rw [htext, lexemes_cons, hk]
    simp [hcomment k (by simp [hk])]
  have hall := h.lexemes_append
  rw [hlexemes] at hall
  obtain ⟨rfl, hrest⟩ := List.cons.inj hall
  -- So the lexeme read is the one that was written, and it settles where the next one begins.
  have hsettles : Settles (read c) (w ++ writeAfter k G) k (writeAfter k G) := by
    refine settles_read hk ?_ hl.isFault_eq_false hl.isComment_eq_false ?_
    · rw [hw]
      rfl
    · rintro first last rfl
      exact ends_writeAfter hG first last
  rw [hsettles.rest_eq] at hlexemes hrest
  refine ⟨c, _, htext, hsettles, hlexemes, hrest, rfl, hG, ?_, h.blank, h.closing⟩
  intro m hm
  cases G with
  | nil => contradiction
  | cons n G => exact h.last m hm

/-- After white space something is written. -/
theorem writeAfter_ne_nil (h : InStep t a (l :: G) B C) (hl : l.isWhitespace = true) :
    writeAfter l G ≠ [] := by
  cases G with
  | nil =>
    have := h.last l rfl
    rw [hl] at this
    contradiction
  | cons m G =>
    obtain ⟨c, w, hw, -⟩ := (h.formed m (by simp)).exists_write
    rw [writeAfter, hw]
    simp

/-- **What is written is scanned in step**: no bracket is missing, no white space is left, and a space
    or a semicolon behind the text changes nothing. -/
theorem scanned (h : InStep t a G B C) :
    C = [] ∧ B = [] ∧
      ∀ e, Stops e → ∀ r, lexemes (t ++ e :: r) = lexemes t ++ lexemes (e :: r) := by
  -- On the length of the text still to be read, as an empty comment is skipped without a lexeme.
  induction hn : t.length using Nat.strong_induction_on generalizing t a G with
  | _ n ih =>
    subst hn
    cases G with
    | nil =>
      obtain ⟨hC, hB⟩ := h.nil
      obtain rfl : t = [] := h.text_eq
      exact ⟨hC, hB, fun _ _ r => by rw [lexemes_nil]; rfl⟩
    | cons l G =>
      rcases between_eq_or a l with hb | hb | hb
      · obtain ⟨u, rfl, hu⟩ := h.of_comment hb
        have hlt : u.length < (['/', '*', '*', '/'] ++ u).length := by
          simp only [length_append, length_cons]
          omega
        obtain ⟨hC, hB, hstop⟩ := ih u.length hlt hu rfl
        refine ⟨hC, hB, fun e he r => ?_⟩
        rw [append_assoc, lexemes_between, lexemes_between, hstop e he]
      · exact absurd hb h.between_ne
      · obtain ⟨c, u, rfl, hsettles, hlexemes, hrest⟩ := h.of_lexeme hb
        have hlt : (writeAfter l G).length < (c :: u).length := by
          rw [← hsettles.rest_eq]
          exact Nat.lt_succ_of_le (read_length_le c u)
        obtain ⟨hC, hB, hstop⟩ := ih _ hlt hrest rfl
        refine ⟨hC, hB, fun e he r => ?_⟩
        have hl := (h.formed l mem_cons_self).isComment_eq_false
        rw [hlexemes, cons_append, lexemes_cons, hsettles.stop h.writeAfter_ne_nil e he r]
        simp [hl, hstop e he]

end InStep

end Lexeme

end CssShorthand
