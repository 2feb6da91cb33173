/-
  WELL-FORMED LEXEMES.

  `Lexeme.Formed` says what holds of the lexemes that are read of a text, faults and comments apart
  (`formed_of_reading`): names are not empty, numerals have the characters of numerals, white space is
  blank, and delimiters are made of characters that begin nothing else.  What is written of such a
  lexeme begins with a character that tells its kind (`Formed.exists_write`), and stands for no more
  than what the lexeme was given.

  Why this is needed: the writer chooses what to put between two components by their kinds. That nothing is
  read across the joint is seen from the characters at it, the last one of what is written first and the
  first one of what follows. So it has to be known with which characters a lexeme of each kind begins.
-/
import CssShorthand.Proofs.Component.Content
import CssShorthand.Proofs.Component.Normal

namespace CssShorthand

open List
open Name (unescape)

/-- A text of one class of characters holds none that is not in the class. -/
theorem Text.not_mem_of_class {p : Char → Bool} {t : Text} {c : Char} (h : ∀ d ∈ t, p d = true)
    (hc : p c = false) : c ∉ t := by
  intro hmem
  rw [h c hmem] at hc
  exact Bool.noConfusion hc

/-- Whether a text is that of a numeral. -/
def Number.IsNumeral (t : Text) : Prop := t ≠ [] ∧ ∀ c ∈ t, isNumeralChar c = true

namespace Lexeme

/-- The texts of delimiters. -/
inductive IsDelimiter : Text → Prop
  | hyphen : IsDelimiter ['-']
  | char {c : Char} (h : Name.isChar c = false) (hb : Text.isCssBlank c = false)
      (hr : c ≠ '\r') (hf : c ≠ '\x0C') : IsDelimiter [c]
  | equals {c : Char} (h : joinsEquals c = true) : IsDelimiter [c, '=']
  | bars : IsDelimiter ['|', '|']
  | opening : IsDelimiter ['<', '!', '-', '-']
  | closing : IsDelimiter ['-', '-', '>']

/-- Well-formed lexemes, faults and comments not among them. -/
def Formed (l : Lexeme) : Prop :=
  '\x00' ∉ l.content ∧ match l with
  | .leaf (.whitespace text) => text ≠ [] ∧ ∀ c ∈ text, Text.isCssBlank c = true
  | .leaf (.ident name) | .call name => name ≠ []
  | .leaf (.atKeyword _) | .leaf (.hash _ _) | .leaf (.unicodeRange _ _) => True
  | .leaf (.string _ isClosed) | .leaf (.url _ isClosed) => isClosed = true
  | .leaf (.number numeral) | .leaf (.percentage numeral) | .leaf (.dimension numeral _) =>
    Number.IsNumeral numeral
  | .leaf (.literal text) => IsDelimiter text
  | .leaf _ => False
  | .opened _ | .closed _ => True

variable {c : Char} {t r : Text} {ls : List Lexeme} {l : Lexeme}

/-- An identifier that starts has a character. -/
theorem take_ne_nil_of_startsIdentifier (h : Name.startsIdentifier (c :: t) = true) :
    (Name.take (c :: t)).1 ≠ [] := by
  intro hnil
  have hlen := take_length_lt_of_starts h
  rw [Name.take_of_not_startsName (Name.startsName_eq_false hnil), length_cons] at hlen
  omega

/-- A character that begins an identifier wherever it stands. -/
theorem startsIdentifier_of_isStart (h : Name.isStart c = true) (t : Text) :
    Name.startsIdentifier (c :: t) = true := by
  unfold Name.startsIdentifier
  split
  · rename_i heq
    rw [(List.cons.inj heq).1] at h
    exact absurd h (by decide)
  · rename_i heq
    rw [(List.cons.inj heq).1] at h
    exact absurd h (by decide)
  · rename_i heq
    rw [(List.cons.inj heq).1] at h
    exact absurd h (by decide)
  · rename_i heq
    rw [← (List.cons.inj heq).1, h]
  · rename_i heq
    exact absurd heq (by simp)

/-- What is read where no other lexeme begins is the text of a delimiter. -/
theorem exists_delimiter_of_symbol (hnormal : Normal (c :: t)) (hb : Text.isCssBlank c = false)
    (hs : Name.startsIdentifier (c :: t) = false) (hn : Number.take? (c :: t) = none) :
    ∃ text, (readDelimiter c t).1 = [delimiter text] ∧ IsDelimiter text := by
  obtain ⟨text, htext, -, hcases⟩ := readDelimiter_eq c t
  refine ⟨text, htext, ?_⟩
  rcases hcases with rfl | rfl | rfl | ⟨h, rfl⟩
  · by_cases hhyphen : c = '-'
    · subst hhyphen
      exact .hyphen
    · -- no name begins here and no number, so that the character is none of a name
      have hstart : Name.isStart c = false := by
        by_contra h
        rw [startsIdentifier_of_isStart (by simpa using h)] at hs
        exact Bool.noConfusion hs
      have hr : c ≠ '\r' := fun h => hnormal.2.1 (by simp [h])
      have hf : c ≠ '\x0C' := fun h => hnormal.2.2 (by simp [h])
      refine .char ?_ hb hr hf
      simp [Name.isChar, hstart, Number.isDigit_of_take_eq_none hn, hhyphen]
  · exact .opening
  · exact .bars
  · exact .equals h

/-- **Every lexeme that is read is well formed**, if it is no fault and no comment. -/
theorem formed_of_reading (h : Reading c t ls r) (hnormal : Normal (c :: t))
    (hfault : ∀ l ∈ ls, l.isFault = false) (hl : l ∈ ls) (hcomment : l.isComment = false) :
    Formed l := by
  -- NUL was replaced when the text was normalized, and no escape gives it back.
  have hcontent : '\x00' ∉ l.content := fun hmem =>
    Name.nul_not_mem_unescape hnormal.1
      ((content_sublist h hfault).subset (mem_append_left _ (mem_flatMap.mpr ⟨l, hl, hmem⟩)))
  refine ⟨hcontent, ?_⟩
  cases h with
  | blanks h =>
    obtain rfl := mem_singleton.mp hl
    refine ⟨by simp, fun d hd => ?_⟩
    rcases mem_cons.mp hd with rfl | hd
    · exact h
    · exact takeBlanks_subset t d hd
  | range | atKeyword | hash | opened | closed =>
    obtain rfl := mem_singleton.mp hl
    trivial
  | arrow h =>
    obtain rfl := mem_singleton.mp hl
    exact .closing
  | ident h | call h _ =>
    obtain rfl := mem_singleton.mp hl
    exact take_ne_nil_of_startsIdentifier h
  | dimension h | percentage h | number h =>
    obtain rfl := mem_singleton.mp hl
    exact ⟨(Number.take?_append h).2, fun d hd => Number.isNumeralChar_of_take h hd⟩
  | mark h =>
    obtain rfl := mem_singleton.mp hl
    rcases h with rfl | rfl <;> exact .char rfl rfl (by decide) (by decide)
  | url hr =>
    obtain ⟨v, he⟩ := eq_of_ofUrl hfault
    rw [he] at hl
    obtain rfl := mem_singleton.mp hl
    rfl
  | string h =>
    obtain ⟨v, he⟩ := eq_of_ofString hfault
    rw [he] at hl
    obtain rfl := mem_singleton.mp hl
    rfl
  | comment hc ht =>
    obtain rfl := mem_singleton.mp hl
    contradiction
  | symbol hb hs hn =>
    obtain ⟨text, htext, hdelimiter⟩ := exists_delimiter_of_symbol hnormal hb hs hn
    rw [htext] at hl
    obtain rfl := mem_singleton.mp hl
    exact hdelimiter

/-! ## How lexemes begin

  A table from kinds to characters, and its inverse: a slash begins a delimiter only, a star a delimiter
  only, and white space only white space.
-/

/-- The characters that the text of a lexeme can begin with. -/
def Begins : Lexeme → Char → Prop
  | .leaf (.whitespace _), c => Text.isCssBlank c = true
  | .leaf (.ident _), c | .call _, c => Name.isChar c = true ∨ c = '\\'
  | .leaf (.number _), c | .leaf (.percentage _), c | .leaf (.dimension _ _), c =>
    Number.isNumeralChar c = true
  | .leaf (.atKeyword _), c => c = '@'
  | .leaf (.hash _ _), c => c = '#'
  | .leaf (.string _ _), c => c = '"'
  | .leaf (.url _ _), c => c = 'u'
  | .leaf (.unicodeRange _ _), c => c = 'U'
  | .leaf (.literal text), c => text.head? = some c
  | .leaf _, _ => False
  | .opened b, c => c = b.opening
  | .closed b, c => c = b.closing

/-- What is written for the first character of a name is that character, or an escape. -/
theorem exists_writeStart (c : Char) :
    ∃ d w, Name.writeStart c = d :: w ∧ (Name.isChar d = true ∨ d = '\\') := by
  unfold Name.writeStart
  split
  · rename_i h
    exact ⟨c, [], rfl, Or.inl (by simp [Name.isChar, h])⟩
  · split
    · exact ⟨'\\', _, rfl, Or.inr rfl⟩
    · unfold Name.escaped
      split
      · exact ⟨'\\', _, rfl, Or.inr rfl⟩
      · split
        · exact ⟨'\\', _, rfl, Or.inr rfl⟩
        · split <;> exact ⟨'\\', _, rfl, Or.inr rfl⟩

/-- So a name that is written begins with a character of names or a backslash. -/
theorem exists_writeIdentifier {n : Text} (h : n ≠ []) :
    ∃ d w, Name.writeIdentifier n = d :: w ∧ (Name.isChar d = true ∨ d = '\\') := by
  unfold Name.writeIdentifier
  split
  · contradiction
  · exact ⟨'\\', _, rfl, Or.inr rfl⟩
  · exact ⟨'-', _, rfl, Or.inl rfl⟩
  · exact ⟨'-', _, rfl, Or.inl rfl⟩
  · rename_i c rest _ _ _
    obtain ⟨d, w, hw, hd⟩ := exists_writeStart c
    exact ⟨d, w ++ Name.write rest, by rw [hw, cons_append], hd⟩

/-- A well-formed lexeme has a text, and it begins as the kind says. -/
theorem Formed.exists_write (h : Formed l) : ∃ c w, l.write = c :: w ∧ Begins l c := by
  -- What begins with a number begins with a character of it.
  have hnumeral : ∀ n u : Text, Number.IsNumeral n → ∃ c w, n ++ u = c :: w ∧
      Number.isNumeralChar c = true := by
    intro n u hn
    obtain ⟨c, w, rfl⟩ := exists_cons_of_ne_nil hn.1
    exact ⟨c, w ++ u, rfl, hn.2 c mem_cons_self⟩
  cases l with
  | leaf d =>
    cases d with
    | whitespace text =>
      obtain ⟨c, w, rfl⟩ := exists_cons_of_ne_nil h.2.1
      exact ⟨c, w, rfl, h.2.2 c mem_cons_self⟩
    | ident name => exact exists_writeIdentifier h.2
    | atKeyword name => exact ⟨'@', _, rfl, rfl⟩
    | hash name isIdentifier => exact ⟨'#', _, rfl, rfl⟩
    | string value isClosed => exact ⟨'"', _, rfl, rfl⟩
    | url value isClosed => exact ⟨'u', _, rfl, rfl⟩
    | unicodeRange first last => exact ⟨'U', _, rfl, rfl⟩
    | number numeral =>
      obtain ⟨c, w, hw, hc⟩ := hnumeral numeral [] h.2
      exact ⟨c, w, (append_nil _).symm.trans hw, hc⟩
    | percentage numeral => exact hnumeral numeral ['%'] h.2
    | dimension numeral unit => exact hnumeral numeral (Name.writeUnit unit) h.2
    | literal text =>
      cases h.2 with
      | hyphen => exact ⟨'-', _, rfl, rfl⟩
      | char => exact ⟨_, _, rfl, rfl⟩
      | equals => exact ⟨_, _, rfl, rfl⟩
      | bars => exact ⟨'|', _, rfl, rfl⟩
      | opening => exact ⟨'<', _, rfl, rfl⟩
      | closing => exact ⟨'-', _, rfl, rfl⟩
    | comment text => exact h.2.elim
    | block b content => exact h.2.elim
    | function name arguments => exact h.2.elim
    | fault f => exact h.2.elim
  | call name =>
    obtain ⟨c, w, hw, hc⟩ := exists_writeIdentifier h.2
    exact ⟨c, w ++ ['('], by rw [write, hw, cons_append], hc⟩
  | opened b => exact ⟨b.opening, [], rfl, rfl⟩
  | closed b => exact ⟨b.closing, [], rfl, rfl⟩

/-- The characters that other lexemes than delimiters begin with, but for white space. -/
def beginsWord (c : Char) : Bool :=
  Name.isChar c || ['\\', '+', '.', '@', '#', '"', '{', '[', '(', '}', ']', ')'].contains c

/-- What begins with none of these characters is white space or a delimiter. -/
theorem eq_of_begins (hl : Begins l c) (hc : beginsWord c = false) :
    (∃ text, l = .leaf (.whitespace text)) ∨ ∃ text, l = delimiter text ∧ text.head? = some c := by
  -- Each form of a word begins with a character of words, or with a mark of its own.
  have hmark : ∀ d, beginsWord d = true → c ≠ d := by
    rintro d hd rfl
    rw [hc] at hd
    exact Bool.noConfusion hd
  have hname : ¬(Name.isChar c = true ∨ c = '\\') := by
    rintro (h | rfl)
    · simp [beginsWord, h] at hc
    · exact Bool.noConfusion hc
  have hnumeral : ¬Number.isNumeralChar c = true := by
    intro h
    simp only [Number.isNumeralChar, Bool.or_eq_true, beq_iff_eq] at h
    rcases h with ((((h | rfl) | rfl) | rfl) | rfl) | rfl
    · simp [beginsWord, Name.isChar, h] at hc
    all_goals exact Bool.noConfusion hc
  cases l with
  | leaf d =>
    cases d with
    | whitespace text => exact Or.inl ⟨text, rfl⟩
    | literal text => exact Or.inr ⟨text, rfl, hl⟩
    | ident name => exact absurd hl hname
    | atKeyword name => exact absurd hl (hmark '@' rfl)
    | hash name isIdentifier => exact absurd hl (hmark '#' rfl)
    | string value isClosed => exact absurd hl (hmark '"' rfl)
    | url value isClosed => exact absurd hl (hmark 'u' rfl)
    | unicodeRange first last => exact absurd hl (hmark 'U' rfl)
    | number numeral => exact absurd hl hnumeral
    | percentage numeral => exact absurd hl hnumeral
    | dimension numeral unit => exact absurd hl hnumeral
    | comment text => exact hl.elim
    | block b content => exact hl.elim
    | function name arguments => exact hl.elim
    | fault f => exact hl.elim
  | call name => exact absurd hl hname
  | opened b => exact absurd hl (hmark _ (by cases b <;> rfl))
  | closed b => exact absurd hl (hmark _ (by cases b <;> rfl))

/-- A lexeme is white space if its text begins with a blank. -/
theorem isWhitespace_of_begins (h : Formed l) (hl : Begins l c) (hc : Text.isCssBlank c = true) :
    l.isWhitespace = true := by
  have hword : beginsWord c = false := by
    simp only [Text.isCssBlank, Bool.or_eq_true, beq_iff_eq] at hc
    rcases hc with (rfl | rfl) | rfl <;> rfl
  rcases eq_of_begins hl hword with ⟨text, rfl⟩ | ⟨text, rfl, htext⟩
  · rfl
  · exfalso
    cases h.2 with
    | char hchar hb =>
      rw [Option.some.inj htext, hc] at hb
      exact Bool.noConfusion hb
    | equals hjoin =>
      rw [Option.some.inj htext] at hjoin
      simp only [Text.isCssBlank, Bool.or_eq_true, beq_iff_eq] at hc
      rcases hc with (rfl | rfl) | rfl <;> exact Bool.noConfusion hjoin
    | hyphen | bars | opening | closing =>
      rw [← Option.some.inj htext] at hc
      exact Bool.noConfusion hc

/-- A slash begins nothing but the delimiter. -/
theorem eq_slash_of_begins (h : Formed l) (hl : Begins l '/') : l = delimiter ['/'] := by
  rcases eq_of_begins hl rfl with ⟨text, rfl⟩ | ⟨text, rfl, htext⟩
  · exact Bool.noConfusion (show Text.isCssBlank '/' = true from hl)
  · cases h.2 with
    | char hchar hb => rw [Option.some.inj htext]
    | equals hjoin =>
      rw [Option.some.inj htext] at hjoin
      exact Bool.noConfusion hjoin
    | hyphen | bars | opening | closing => exact absurd htext (by decide)

/-- An asterisk begins two delimiters. -/
theorem eq_star_of_begins (h : Formed l) (hl : Begins l '*') :
    l = delimiter ['*'] ∨ l = delimiter ['*', '='] := by
  rcases eq_of_begins hl rfl with ⟨text, rfl⟩ | ⟨text, rfl, htext⟩
  · exact Bool.noConfusion (show Text.isCssBlank '*' = true from hl)
  · cases h.2 with
    | char hchar hb => rw [Option.some.inj htext]; exact Or.inl rfl
    | equals hjoin => rw [Option.some.inj htext]; exact Or.inr rfl
    | hyphen | bars | opening | closing => exact absurd htext (by decide)

/-! ## What is written

  Escapes undone, a lexeme is written with the equals signs it was given and with no others. The number of
  these signs is the measure by which `Rescan` excludes that a comment is read where two delimiters meet.
-/

/-- How many equals signs a text stands for. -/
def equals (t : Text) : Nat := (unescape t).count '='

/-- Text without escapes adds its own equals signs. -/
theorem equals_append {w : Text} (h : '\\' ∉ w) (t : Text) :
    equals (w ++ t) = w.count '=' + equals t := by
  rw [equals, Name.unescape_append h, count_append, equals]

/-- A text without equals signs and escapes stands for none. -/
theorem equals_append_of_not_mem {w : Text} (hback : '\\' ∉ w) (he : '=' ∉ w) (t : Text) :
    equals (w ++ t) = equals t := by
  rw [equals_append hback, count_eq_zero_of_not_mem he, Nat.zero_add]

/-- A number adds no equals sign. -/
theorem equals_append_of_isNumeral {n : Text} (h : Number.IsNumeral n) (t : Text) :
    equals (n ++ t) = equals t :=
  equals_append_of_not_mem (Text.not_mem_of_class h.2 rfl) (Text.not_mem_of_class h.2 rfl) t

theorem equals_cons (hc : c ≠ '\\') (he : c ≠ '=') (t : Text) : equals (c :: t) = equals t := by
  rw [equals, Name.unescape_cons hc, count_cons_of_ne he, equals]

/-- A written name adds the equals signs of the name, whether they are escaped or not. -/
theorem equals_of_take {n w : Text}
    (h : ∀ u, Name.take (w ++ u) = (n ++ (Name.take u).1, (Name.take u).2)) (t : Text) :
    equals (w ++ t) = n.count '=' + equals t := by
  rw [equals, Name.unescape_of_take h, count_append, equals]

/-- Escapes hold no equals sign, so a unit is written with as many of them as it has. -/
theorem equals_writeUnit (n t : Text) :
    equals (Name.writeUnit n ++ t) = n.count '=' + equals t := by
  obtain ⟨m, hm, htake⟩ := Name.take_writeUnit n
  rw [equals_of_take htake]
  rcases hm with rfl | ⟨u, rfl, rfl⟩
  · rfl
  · simp

/-- **What is written in a string stands for what the string holds.**  Quotes, backslashes and the ends of
    lines are written as escapes, and all other characters as they are. -/
theorem unescape_writeInString (v t : Text) :
    unescape (v.flatMap Name.writeInString ++ t) = v ++ unescape t := by
  have hone : ∀ (c : Char) (u : Text), unescape (Name.writeInString c ++ u) = c :: unescape u := by
    intro c u
    unfold Name.writeInString
    split
    · rename_i h
      subst h
      exact Name.unescape_escape rfl rfl
    · split
      · rename_i h
        subst h
        exact Name.unescape_escape rfl rfl
      · split
        · rename_i h
          rcases h with rfl | rfl | rfl
          all_goals exact Name.unescape_escape rfl rfl
        · rename_i hback _
          exact Name.unescape_cons hback u
  induction v with
  | nil => rfl
  | cons c v ih => rw [flatMap_cons, append_assoc, hone, ih, cons_append]

/-- **What is written in a URL stands for what the URL holds**, with brackets and blanks written as escapes as
    well. -/
theorem unescape_writeInUrl (v t : Text) :
    unescape (v.flatMap Name.writeInUrl ++ t) = v ++ unescape t := by
  have hone : ∀ (c : Char) (u : Text), unescape (Name.writeInUrl c ++ u) = c :: unescape u := by
    intro c u
    unfold Name.writeInUrl
    split
    · rename_i h
      rcases h with rfl | rfl | rfl | rfl | rfl | rfl
      all_goals exact Name.unescape_escape rfl rfl
    · split
      · rename_i h
        subst h
        exact Name.unescape_escape rfl rfl
      · split
        · rename_i h
          rcases h with rfl | rfl | rfl
          all_goals exact Name.unescape_escape rfl rfl
        · rename_i hmark _ _
          simp only [not_or] at hmark
          exact Name.unescape_cons hmark.2.2.1 u
  induction v with
  | nil => rfl
  | cons c v ih => rw [flatMap_cons, append_assoc, hone, ih, cons_append]

/-- The characters of a range of code points. -/
theorem not_mem_writeRange {c : Char} (hc : Name.isHexDigit c = false) (hU : c ≠ 'U') (hplus : c ≠ '+')
    (hhyphen : c ≠ '-') (first last : Nat) : c ∉ Component.writeRange first last := by
  have hhex : ∀ n, c ∉ Name.upperHex n := fun n h => by
    rw [Name.isHexDigit_of_mem_toDigits h] at hc
    exact Bool.noConfusion hc
  unfold Component.writeRange
  split <;> simp [hU, hplus, hhyphen, hhex]

/-- A string is written with as many equals signs as it holds. -/
theorem equals_writeString (value t : Text) :
    equals ((leaf (.string value true)).write ++ t) = value.count '=' + equals t := by
  have hwrite : (leaf (.string value true)).write ++ t =
      '"' :: (value.flatMap Name.writeInString ++ '"' :: t) := by
    simp [write, Component.write]
  rw [hwrite, equals_cons (by decide) (by decide), equals, unescape_writeInString, count_append]
  exact congrArg _ (equals_cons (by decide) (by decide) t)

/-- So is a URL. -/
theorem equals_writeUrl (value t : Text) :
    equals ((leaf (.url value true)).write ++ t) = value.count '=' + equals t := by
  have hwrite : (leaf (.url value true)).write ++ t =
      ['u', 'r', 'l', '('] ++ (value.flatMap Name.writeInUrl ++ ')' :: t) := by
    simp [write, Component.write]
  rw [hwrite, equals_append_of_not_mem (by decide) (by decide), equals, unescape_writeInUrl, count_append]
  exact congrArg _ (equals_cons (by decide) (by decide) t)

/-- One delimiter holds a backslash. -/
theorem IsDelimiter.backslash_not_mem {text : Text} (h : IsDelimiter text) (hne : text ≠ ['\\']) :
    '\\' ∉ text := by
  intro hmem
  cases h with
  | char hchar hb => exact hne (by rw [mem_singleton.mp hmem])
  | equals hjoin =>
    simp only [mem_cons, not_mem_nil, or_false] at hmem
    rcases hmem with rfl | hmem
    · exact Bool.noConfusion hjoin
    · exact absurd hmem (by decide)
  | hyphen | bars | opening | closing => exact absurd hmem (by decide)

/-- **What is written stands for no more than was given**, if it does not begin an escape. -/
theorem Formed.equals_write_le (h : Formed l) (hback : l ≠ delimiter ['\\']) (t : Text) :
    equals (l.write ++ t) ≤ l.content.count '=' + equals t := by
  -- Names, strings and URLs are read back as they were given; all else stands for no equals sign.
  cases l with
  | leaf d =>
    cases d with
    | whitespace text =>
      have hplain := equals_append_of_not_mem (Text.not_mem_of_class h.2.2 rfl)
        (Text.not_mem_of_class h.2.2 rfl) t
      exact hplain.le.trans (Nat.le_add_left _ _)
    | ident name => exact (equals_of_take (Name.take_writeIdentifier name) t).le
    | atKeyword name =>
      exact ((equals_cons (by decide) (by decide) _).trans
        (equals_of_take (Name.take_writeIdentifier name) t)).le
    | hash name isIdentifier =>
      refine ((equals_cons (by decide) (by decide) _).trans ?_).le
      cases isIdentifier with
      | true => exact equals_of_take (Name.take_writeIdentifier name) t
      | false => exact equals_of_take (Name.take_write name) t
    | string value isClosed =>
      obtain rfl : isClosed = true := h.2
      exact (equals_writeString value t).le
    | url value isClosed =>
      obtain rfl : isClosed = true := h.2
      exact (equals_writeUrl value t).le
    | unicodeRange first last =>
      refine (equals_append_of_not_mem ?_ ?_ t).le.trans (Nat.le_add_left _ _)
      all_goals exact not_mem_writeRange rfl (by decide) (by decide) (by decide) first last
    | number numeral => exact (equals_append_of_isNumeral h.2 t).le.trans (Nat.le_add_left _ _)
    | percentage numeral =>
      have hwrite : (leaf (.percentage numeral)).write ++ t = numeral ++ '%' :: t := by
        simp [write, Component.write]
      rw [hwrite, equals_append_of_isNumeral h.2, equals_cons (by decide) (by decide)]
      exact Nat.le_add_left _ _
    | dimension numeral unit =>
      have hwrite : (leaf (.dimension numeral unit)).write ++ t =
          numeral ++ (Name.writeUnit unit ++ t) := by
        simp [write, Component.write]
      rw [hwrite, equals_append_of_isNumeral h.2, equals_writeUnit]
      exact le_refl _
    | literal text =>
      have hne : text ≠ ['\\'] := fun heq => hback (by rw [heq]; rfl)
      exact (equals_append (h.2.backslash_not_mem hne) t).le
    | comment | block | function | fault => exact h.2.elim
  | call name =>
    have hwrite : (call name).write ++ t = Name.writeIdentifier name ++ '(' :: t := by simp [write]
    rw [hwrite, equals_of_take (Name.take_writeIdentifier name), equals_cons (by decide) (by decide)]
    exact le_refl _
  | opened b =>
    have hb : b.opening ≠ '\\' ∧ b.opening ≠ '=' := by cases b <;> decide
    exact (equals_cons hb.1 hb.2 t).le.trans (Nat.le_add_left _ _)
  | closed b =>
    have hb : b.closing ≠ '\\' ∧ b.closing ≠ '=' := by cases b <;> decide
    exact (equals_cons hb.1 hb.2 t).le.trans (Nat.le_add_left _ _)

/-- What is written between two lexemes. -/
theorem between_eq_or (a b : Lexeme) :
    between a b = ['/', '*', '*', '/'] ∨ between a b = ['\n'] ∨ between a b = [] := by
  have hcomponent : ∀ c d : Component, Component.between c d = ['/', '*', '*', '/'] ∨
      Component.between c d = ['\n'] ∨ Component.between c d = [] := by
    intro c d
    unfold Component.between
    split
    · exact Or.inl rfl
    · split
      · exact Or.inr (Or.inl rfl)
      · exact Or.inr (Or.inr rfl)
  unfold between
  split
  · exact hcomponent _ _
  · exact hcomponent _ _
  · exact hcomponent _ _
  · exact Or.inr (Or.inr rfl)

/-- After a backslash comes a newline, a closing bracket, or nothing. -/
theorem writeAfter_backslash (G : List Lexeme) :
    writeAfter (delimiter ['\\']) G = [] ∨ (∃ u, writeAfter (delimiter ['\\']) G = '\n' :: u) ∨
      ∃ (b : Bracket) (u : Text), writeAfter (delimiter ['\\']) G = b.closing :: u := by
  -- A backslash clashes with nothing; but what follows it on the same line would be escaped, so a line feed
  -- is put between.
  have hclash : ∀ d : Component, (Joint.of (.literal ['\\'])).clash (Joint.of d) = false := by
    intro d
    simp [Joint.of, Joint.clash]
  have hcomponent : ∀ d : Component, d.startsLine = false →
      Component.between (.literal ['\\']) d = ['\n'] := by
    intro d hd
    simp [Component.between, hclash, hd, Component.isDelimiter]
  cases G with
  | nil => exact Or.inl rfl
  | cons m G =>
    right
    cases m with
    | leaf d =>
      left
      cases hd : d.startsLine with
      | false => exact ⟨_, by rw [writeAfter, delimiter, between, hcomponent d hd]; rfl⟩
      | true =>
        have hnone : Component.between (.literal ['\\']) d = [] := by
          simp [Component.between, hclash, hd]
        unfold Component.startsLine at hd
        split at hd
        · exact ⟨_, by rw [writeAfter, delimiter, between, hnone]; rfl⟩
        · contradiction
    | call name => exact Or.inl ⟨_, by rw [writeAfter, delimiter, between, hcomponent _ rfl]; rfl⟩
    | opened b => exact Or.inl ⟨_, by rw [writeAfter, delimiter, between, hcomponent _ rfl]; rfl⟩
    | closed b => exact Or.inr ⟨b, _, rfl⟩

/-- So it does not escape an equals sign. -/
theorem equals_backslash_le (G : List Lexeme) :
    equals ('\\' :: writeAfter (delimiter ['\\']) G) ≤
      equals (writeAfter (delimiter ['\\']) G) := by
  rcases writeAfter_backslash G with h | ⟨u, h⟩ | ⟨b, u, h⟩
  · rw [h]
    decide +kernel
  · rw [h, equals, Name.unescape_of_not_escapes rfl, count_cons_of_ne (by decide), equals]
  · have htake : Name.takeEscape (b.closing :: u) = (b.closing, u) := by cases b <;> rfl
    have hescapes : Name.escapes (b.closing :: u) = true := by cases b <;> rfl
    rw [h, equals, Name.unescape_escape hescapes htake, equals,
      Name.unescape_cons (by cases b <;> decide)]

/-- **What is written after each other stands for no more than all was given.** -/
theorem equals_writeAfter_le {G : List Lexeme} (h : ∀ l ∈ G, Formed l) (a : Lexeme) :
    equals (writeAfter a G) ≤ (G.flatMap content).count '=' := by
  induction G generalizing a with
  | nil => exact (by decide +kernel : equals [] ≤ 0)
  | cons l G ih =>
    have hbetween : ∀ t, equals (between a l ++ t) = equals t := by
      intro t
      rcases between_eq_or a l with hb | hb | hb
      all_goals
        rw [hb, equals_append (by decide)]
        exact Nat.zero_add _
    have hrest := ih (fun m hm => h m (mem_cons_of_mem _ hm)) l
    rw [writeAfter, append_assoc, hbetween, flatMap_cons, count_append]
    by_cases hback : l = delimiter ['\\']
    · subst hback
      exact (equals_backslash_le G).trans (hrest.trans (Nat.le_add_left _ _))
    · exact ((h l mem_cons_self).equals_write_le hback _).trans (Nat.add_le_add_left hrest _)

/-- A delimiter is normal, unless it is NUL. -/
theorem IsDelimiter.normal {text : Text} (h : IsDelimiter text) (hnul : '\x00' ∉ text) : Normal text := by
  cases h with
  | char hchar hb hr hf =>
    refine ⟨hnul, ?_, ?_⟩
    · exact fun hmem => hr (mem_singleton.mp hmem).symm
    · exact fun hmem => hf (mem_singleton.mp hmem).symm
  | equals hjoin =>
    simp only [joinsEquals, Bool.or_eq_true, beq_iff_eq] at hjoin
    rcases hjoin with (((rfl | rfl) | rfl) | rfl) | rfl <;> decide
  | hyphen | bars | opening | closing => decide

/-- A text of one class of characters is normal if the class has only such characters. -/
theorem normal_of_class {p : Char → Bool} (h : ∀ d ∈ t, p d = true)
    (hp : p '\x00' = false ∧ p '\r' = false ∧ p '\x0C' = false) : Normal t :=
  ⟨Text.not_mem_of_class h hp.1, Text.not_mem_of_class h hp.2.1, Text.not_mem_of_class h hp.2.2⟩

/-- What is written is normal. -/
theorem Formed.normal_write (h : Formed l) : Normal l.write := by
  have hnumeral : ∀ n : Text, Number.IsNumeral n → Normal n := fun n hn =>
    normal_of_class hn.2 ⟨rfl, rfl, rfl⟩
  -- h.1 := Content is written escaped, and no escape holds a line end or NUL.
  have hcontent := h.1
  cases l with
  | leaf d =>
    cases d with
    | whitespace text => exact normal_of_class h.2.2 ⟨rfl, rfl, rfl⟩
    | ident name => exact normal_writeIdentifier hcontent
    | atKeyword name => exact normal_append.mpr ⟨(by decide : Normal ['@']), normal_writeIdentifier hcontent⟩
    | hash name isIdentifier =>
      refine normal_append.mpr ⟨(by decide : Normal ['#']), ?_⟩
      cases isIdentifier with
      | true => exact normal_writeIdentifier hcontent
      | false => exact Lexeme.normal_write hcontent
    | string value isClosed =>
      obtain rfl : isClosed = true := h.2
      refine normal_append.mpr ⟨normal_append.mpr ⟨(by decide : Normal ['"']), ?_⟩, by decide⟩
      exact normal_flatMap fun c hc => normal_writeInString fun heq => hcontent (heq ▸ hc)
    | url value isClosed =>
      obtain rfl : isClosed = true := h.2
      refine normal_append.mpr ⟨normal_append.mpr ⟨by decide, ?_⟩, by decide⟩
      exact normal_flatMap fun c hc => normal_writeInUrl fun heq => hcontent (heq ▸ hc)
    | unicodeRange first last => exact normal_writeRange first last
    | number numeral => exact hnumeral numeral h.2
    | percentage numeral => exact normal_append.mpr ⟨hnumeral numeral h.2, by decide⟩
    | dimension numeral unit =>
      exact normal_append.mpr ⟨hnumeral numeral h.2, normal_writeUnit hcontent⟩
    | literal text => exact h.2.normal hcontent
    | comment | block | function | fault => exact h.2.elim
  | call name => exact normal_append.mpr ⟨normal_writeIdentifier hcontent, by decide⟩
  | opened b => cases b <;> decide
  | closed b => cases b <;> decide

/-- What is written of well-formed lexemes is normal. -/
theorem normal_writeAfter {G : List Lexeme} (h : ∀ l ∈ G, Formed l) (a : Lexeme) :
    Normal (writeAfter a G) := by
  induction G generalizing a with
  | nil => exact (by decide : Normal [])
  | cons l G ih =>
    have hbetween : Normal (between a l) := by
      rcases between_eq_or a l with hb | hb | hb <;> rw [hb] <;> decide
    exact normal_append.mpr ⟨normal_append.mpr ⟨hbetween, (h l mem_cons_self).normal_write⟩,
      ih (fun m hm => h m (mem_cons_of_mem _ hm)) l⟩

end Lexeme

end CssShorthand
