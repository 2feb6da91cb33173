/-
  WHAT A TEXT STANDS FOR.

  `Name.unescape` reads the escapes of a text and keeps all its other characters, wherever they stand.
  What is read of a text is found in it in its order (`Lexeme.content_sublist`).

  This is how a proof about what was read goes back to the text: a character that is not in the text,
  escapes undone, is in no name, string or url that is read of it. The claims about NUL, about marks of
  importance and about the star of a comment use it, and the count of equals signs in `Rescan` does. The
  order is that of a sublist, since marks, blanks and signs are read without being kept.
-/
import CssShorthand.Proofs.Component.Reading

namespace CssShorthand

open List

namespace Name

/-- A text with its escapes read. -/
def unescape : Text → Text
  | [] => []
  | c :: t =>
    if c = '\\' ∧ escapes t then
      let escape := takeEscape t
      escape.1 :: unescape escape.2
    else c :: unescape t
termination_by t => t.length
decreasing_by
  · exact Nat.lt_succ_of_le (takeEscape_length_le t)
  · simp

variable {c : Char} {n t w : Text}

theorem unescape_cons (h : c ≠ '\\') (t : Text) : unescape (c :: t) = c :: unescape t := by
  rw [unescape]
  simp [h]

/-- In front of the first backslash nothing is changed. -/
theorem unescape_append (h : '\\' ∉ w) (t : Text) : unescape (w ++ t) = w ++ unescape t := by
  induction w with
  | nil => rfl
  | cons c w ih =>
    simp only [mem_cons, not_or] at h
    rw [List.cons_append, unescape_cons (Ne.symm h.1), ih h.2, List.cons_append]

/-- What stands behind characters without a backslash is found in the text. -/
theorem unescape_sublist (h : '\\' ∉ w) (t : Text) : unescape t <+ unescape (w ++ t) := by
  rw [unescape_append h]
  exact sublist_append_right w _

/-- An escape stands for one character. -/
theorem unescape_escape {e : Text} (he : escapes t = true) (htake : takeEscape t = (c, e)) :
    unescape ('\\' :: t) = c :: unescape e := by
  rw [unescape]
  simp [he, htake]

/-- A backslash before a line end stands for itself. -/
theorem unescape_of_not_escapes (he : escapes t = false) :
    unescape ('\\' :: t) = '\\' :: unescape t := by
  rw [unescape]
  simp [he]

/-- A name that is read is what its text stands for. -/
theorem unescape_take (t : Text) : unescape t = (take t).1 ++ unescape (take t).2 := by
  fun_induction take t with
  | case1 => rfl
  | case2 c t hc more ih =>
    have hne : c ≠ '\\' := by
      rintro rfl
      revert hc
      decide
    rw [unescape_cons hne, ih]
    rfl
  | case3 c t hc he escape more ih =>
    obtain ⟨rfl, he⟩ := he
    have hescape : takeEscape t = (escape.1, escape.2) := rfl
    rw [unescape_escape he hescape, ih]
    rfl
  | case4 => rfl

/-- A name that is read, and what follows it, are found in the text. -/
theorem sublist_take (t : Text) : (take t).1 ++ unescape (take t).2 <+ unescape t :=
  unescape_take t ▸ Sublist.refl _

/-- What is read as a name whatever follows it stands for that name. -/
theorem unescape_of_take (h : ∀ u, take (w ++ u) = (n ++ (take u).1, (take u).2)) (t : Text) :
    unescape (w ++ t) = n ++ unescape t := by
  rw [unescape_take, h, unescape_take t, List.append_assoc]

/-- No escape stands for NUL, since the replacement character is read in its place. -/
theorem charOfCode_ne_nul (m : Nat) : charOfCode m ≠ '\x00' := by
  unfold charOfCode
  split
  · rename_i hvalid
    split
    · decide
    · rename_i hne
      intro h
      have hval : (Char.ofNatAux m hvalid).toNat = m := by
        simp [Char.ofNatAux, Char.toNat]
      rw [h] at hval
      exact hne hval.symm
  · decide

/-- No escape denotes NUL. -/
theorem nul_not_mem_unescape (h : '\x00' ∉ t) : '\x00' ∉ unescape t := by
  fun_induction unescape t with
  | case1 => exact h
  | case2 c t he escape ih =>
    have ht : '\x00' ∉ t := fun hmem => h (mem_cons_of_mem _ hmem)
    have hescape : escape.1 ≠ '\x00' := by
      show (takeEscape t).1 ≠ _
      unfold takeEscape
      split
      · decide
      · split
        · exact charOfCode_ne_nul _
        · exact fun heq => ht (heq ▸ mem_cons_self)
    simp only [mem_cons, not_or]
    exact ⟨hescape.symm, ih fun hmem => ht ((takeEscape_suffix t).subset hmem)⟩
  | case3 c t he ih =>
    simp only [mem_cons, not_or] at h ⊢
    exact ⟨h.1, ih h.2⟩

end Name

open Name (unescape)

/-! ## Reading

  The readers that keep text: each gives a sublist of what it takes. The recursions are those of the readers
  themselves.
-/

/-- Text in front of an enclosed text leaves it closed, or not. -/
theorem Enclosed.prepend_eq_closed {front v : Text} {e : Enclosed} (h : e.prepend front = .closed v) :
    ∃ w, e = .closed w ∧ v = front ++ w := by
  cases e with
  | closed w => exact ⟨w, rfl, (Enclosed.closed.inj h).symm⟩
  | unclosed w => contradiction
  | broken => contradiction

/-- A backslash is one of an escape before every character but a newline. -/
theorem escapes_of_ne {c : Char} (h : c ≠ '\n') (t : Text) : Name.escapes (c :: t) = true := by
  unfold Name.escapes
  split
  · rename_i heq
    exact absurd (List.cons.inj heq).1 h
  · rfl

/-- In a string, what an escape stands for and what is left are found in the text with its escapes read; a
    backslash before a newline stands for nothing. -/
theorem Quotation.sublist_takeEscape (t : Text) :
    (takeEscape t).1 ++ unescape (takeEscape t).2 <+ unescape ('\\' :: t) := by
  cases t with
  | nil => simp [takeEscape, unescape]
  | cons c t =>
    by_cases hc : c = '\n'
    · subst hc
      rw [Name.unescape_of_not_escapes rfl, Name.unescape_cons (by decide)]
      exact ((Sublist.refl _).cons _).cons _
    · have hescape : Name.takeEscape (c :: t) =
          ((Name.takeEscape (c :: t)).1, (Name.takeEscape (c :: t)).2) := rfl
      rw [Name.unescape_escape (escapes_of_ne hc t) hescape]
      simp [takeEscape, hc]

/-- What a string holds is found in its text. -/
theorem Quotation.sublist_take {q : Char} (hq : q ≠ '\\') {t v r : Text}
    (h : take q t = (.closed v, r)) : v ++ unescape r <+ unescape t := by
  fun_induction take q t generalizing v with
  | case1 => simp at h
  | case2 t =>
    simp only [Prod.mk.injEq, Enclosed.closed.injEq] at h
    obtain ⟨rfl, rfl⟩ := h
    rw [Name.unescape_cons hq]
    exact (Sublist.refl _).cons _
  | case3 => simp at h
  | case4 =>
    rename_i t escape more _ _ ih
    obtain ⟨hmore, rfl⟩ := Prod.mk.inj h
    obtain ⟨w, hw, rfl⟩ := Enclosed.prepend_eq_closed hmore
    have hinside := ih (Prod.ext hw rfl)
    rw [append_assoc]
    exact (hinside.append_left escape.1).trans (sublist_takeEscape t)
  | case5 =>
    rename_i c t _ _ hback more ih
    obtain ⟨hmore, rfl⟩ := Prod.mk.inj h
    obtain ⟨w, hw, rfl⟩ := Enclosed.prepend_eq_closed hmore
    rw [Name.unescape_cons hback]
    exact (ih (Prod.ext hw rfl)).cons_cons c

namespace UrlText

/-- No blank begins an escape. -/
theorem unescape_dropWhile (t : Text) : unescape (t.dropWhile Text.isCssBlank) <+ unescape t := by
  induction t with
  | nil => exact Sublist.refl _
  | cons c t ih =>
    cases hc : Text.isCssBlank c with
    | true =>
      have hne : c ≠ '\\' := by
        rintro rfl
        exact Bool.noConfusion hc
      rw [Name.unescape_cons hne, dropWhile_cons_of_pos hc]
      exact ih.cons c
    | false => simp [hc]

/-- What a URL holds is found in its text. -/
theorem sublist_takeRest {t v r : Text} (h : takeRest t = (.closed v, r)) :
    v ++ unescape r <+ unescape t := by
  -- The cases are those of the reading: the end, the bracket, an escape, white space before the bracket, a
  -- forbidden character, and any other.
  fun_induction takeRest t generalizing v with
  | case1 => simp at h
  | case2 t =>
    simp only [Prod.mk.injEq, Enclosed.closed.injEq] at h
    obtain ⟨rfl, rfl⟩ := h
    rw [Name.unescape_cons (by decide)]
    exact (Sublist.refl _).cons _
  | case3 =>
    rename_i c t _ hescape escape more ih
    obtain ⟨rfl, he⟩ := hescape
    obtain ⟨hmore, rfl⟩ := Prod.mk.inj h
    obtain ⟨w, hw, rfl⟩ := Enclosed.prepend_eq_closed hmore
    have htake : Name.takeEscape t = (escape.1, escape.2) := rfl
    rw [Name.unescape_escape he htake]
    exact (ih (Prod.ext hw rfl)).cons_cons escape.1
  | case4 c t hparen hescape hblank =>
    have hdrop := unescape_dropWhile t
    have hne : c ≠ '\\' := by
      rintro rfl
      exact Bool.noConfusion hblank
    rw [Name.unescape_cons hne]
    refine Sublist.cons c (Sublist.trans ?_ hdrop)
    unfold takeEnd at h
    split at h
    · simp at h
    · rename_i hend
      simp only [Prod.mk.injEq, Enclosed.closed.injEq] at h
      obtain ⟨rfl, rfl⟩ := h
      rw [hend, Name.unescape_cons (by decide)]
      exact (Sublist.refl _).cons _
    · simp at h
  | case5 => simp at h
  | case6 =>
    rename_i c t _ hescape _ _ more ih
    obtain ⟨hmore, rfl⟩ := Prod.mk.inj h
    obtain ⟨w, hw, rfl⟩ := Enclosed.prepend_eq_closed hmore
    have hcons : unescape (c :: t) = c :: unescape t := by
      rw [unescape]
      simp [hescape]
    rw [hcons]
    exact (ih (Prod.ext hw rfl)).cons_cons c

theorem sublist_take {t v r : Text} (h : take t = (.closed v, r)) :
    v ++ unescape r <+ unescape t :=
  (sublist_takeRest h).trans (unescape_dropWhile t)

end UrlText

namespace CommentText

/-- A comment goes on until a star and a slash stand side by side. -/
theorem take_cons (c : Char) (t : Text) :
    (take (c :: t)).2 = (take t).2 ∨ c = '*' ∧ t = '/' :: (take (c :: t)).2 := by
  by_cases h : c = '*' ∧ ∃ u, t = '/' :: u
  · obtain ⟨rfl, u, rfl⟩ := h
    exact Or.inr ⟨rfl, rfl⟩
  · left
    rw [take]
    rintro u rfl rfl
    exact h ⟨rfl, u, rfl⟩

/-- Text without a star is passed within a comment. -/
theorem take_append {w : Text} (h : '*' ∉ w) (t : Text) : (take (w ++ t)).2 = (take t).2 := by
  induction w with
  | nil => rfl
  | cons c w ih =>
    simp only [mem_cons, not_or] at h
    rcases take_cons c (w ++ t) with hc | ⟨hc, -⟩
    · exact hc.trans (ih h.2)
    · exact absurd hc.symm h.1

/-- An escape by a code point has no part in the end of a comment. -/
theorem exists_of_isHexDigit {c : Char} (hc : Name.isHexDigit c = true) (t : Text) :
    ∃ w, c :: t = w ++ (Name.takeEscape (c :: t)).2 ∧ '*' ∉ w := by
  have hdigits := Name.takeAtMost_fst_append Name.isHexDigit 6 (c :: t)
  have hhex := (UnicodeRange.takeAtMost_fst (p := Name.isHexDigit) 6 (c :: t)).2
  have hstar : '*' ∉ (Name.takeAtMost Name.isHexDigit 6 (c :: t)).1 := fun h => by
    have := hhex _ h
    revert this
    decide
  have htake : (Name.takeEscape (c :: t)).2 =
      Name.dropOneBlank (Name.takeAtMost Name.isHexDigit 6 (c :: t)).2 := by
    simp [Name.takeEscape, hc]
  rw [htake]
  -- From here on only the digits and the rest count, not how they were taken.
  generalize Name.takeAtMost Name.isHexDigit 6 (c :: t) = digits at *
  obtain ⟨ds, u⟩ := digits
  -- Behind the digits one blank belongs to the escape.
  cases u with
  | nil => exact ⟨ds, hdigits.symm, hstar⟩
  | cons d u =>
    cases hd : Text.isCssBlank d with
    | false => exact ⟨ds, by simpa [Name.dropOneBlank, hd] using hdigits.symm, hstar⟩
    | true =>
      refine ⟨ds ++ [d], by simpa [Name.dropOneBlank, hd] using hdigits.symm, ?_⟩
      simp only [mem_append, mem_singleton, not_or]
      refine ⟨hstar, ?_⟩
      rintro rfl
      exact Bool.noConfusion hd

/-- What is left of a text after a comment is found in the text. -/
theorem sublist_take (t : Text) : unescape (take t).2 <+ unescape t := by
  induction hn : t.length using Nat.strong_induction_on generalizing t with
  | _ n ih =>
    subst hn
    cases t with
    | nil => exact Sublist.refl _
    | cons c t =>
      have hnext : ∀ x u, u.length < (c :: t).length →
          unescape (take (x :: u)).2 <+ unescape u := by
        intro x u hlt
        rcases take_cons x u with h | ⟨-, h⟩
        · rw [h]
          exact ih _ hlt u rfl
        · conv_rhs => rw [h, Name.unescape_cons (by decide)]
          exact (Sublist.refl _).cons _
      by_cases hescape : c = '\\' ∧ Name.escapes t = true
      · obtain ⟨rfl, he⟩ := hescape
        have htake : Name.takeEscape t = ((Name.takeEscape t).1, (Name.takeEscape t).2) := rfl
        rw [Name.unescape_escape he htake]
        refine Sublist.cons _ ?_
        rw [(take_cons '\\' t).resolve_right fun h => absurd h.1 (by decide)]
        cases t with
        | nil => exact Sublist.refl _
        | cons x u =>
          cases hx : Name.isHexDigit x with
          | true =>
            obtain ⟨w, hw, hstar⟩ := exists_of_isHexDigit hx u
            have hlen := Name.takeEscape_length_le (x :: u)
            conv_lhs => rw [hw, take_append hstar]
            exact ih _ (Nat.lt_succ_of_le hlen) _ rfl
          | false =>
            have hrest : (Name.takeEscape (x :: u)).2 = u := by simp [Name.takeEscape, hx]
            rw [hrest]
            exact hnext x u (by simp only [List.length_cons]; omega)
      · have hcons : unescape (c :: t) = c :: unescape t := by
          rw [unescape]
          simp [hescape]
        rw [hcons]
        exact (hnext c t (by simp)).cons c

end CommentText

/-! ## What is read

  The content of a lexeme is the text it was given; that of a whole text is the content of its lexemes in a
  row. The cases are those of `Lexeme.Reading`.
-/

namespace Number

/-- The characters of numerals. -/
def isNumeralChar (c : Char) : Bool :=
  c.isDigit || c == '+' || c == '-' || c == '.' || c == 'e' || c == 'E'

/-- Digits are characters of numerals. -/
theorem isNumeralChar_of_mem_takeDigits {c : Char} (t : Text) (h : c ∈ (takeDigits t).1) :
    isNumeralChar c = true := by
  induction t with
  | nil => simp [takeDigits] at h
  | cons d t ih =>
    cases hd : d.isDigit with
    | false => simp [takeDigits, hd] at h
    | true =>
      simp only [takeDigits, hd, if_true, mem_cons] at h
      rcases h with rfl | h
      · simp [isNumeralChar, hd]
      · exact ih h

/-- A sign is one of the characters of numerals. -/
theorem isNumeralChar_of_mem_takeSign {c : Char} (t : Text) (h : c ∈ (takeSign t).1) :
    isNumeralChar c = true := by
  unfold takeSign at h
  split at h
  · obtain rfl := mem_singleton.mp h
    rfl
  · obtain rfl := mem_singleton.mp h
    rfl
  · simp at h

/-- A decimal is made of these characters, the point included. -/
theorem isNumeralChar_of_mem_takeDecimal {c : Char} {t d r : Text} (ht : takeDecimal? t = some (d, r))
    (h : c ∈ d) : isNumeralChar c = true := by
  have hwhole := isNumeralChar_of_mem_takeDigits (c := c) t
  unfold takeDecimal? at ht
  dsimp only at ht
  split at ht
  · rename_i u hu
    split at ht
    · split at ht
      · simp at ht
      · rw [Option.some.inj ht] at hwhole
        exact hwhole h
    · simp only [Option.some.injEq, Prod.mk.injEq] at ht
      obtain ⟨rfl, -⟩ := ht
      simp only [mem_append, mem_cons] at h
      rcases h with h | rfl | h
      · exact hwhole h
      · rfl
      · exact isNumeralChar_of_mem_takeDigits u h
  · split at ht
    · simp at ht
    · rw [Option.some.inj ht] at hwhole
      exact hwhole h

/-- So is an exponent, with its letter and its sign. -/
theorem isNumeralChar_of_mem_takeExponent {c : Char} (t : Text) (h : c ∈ (takeExponent t).1) :
    isNumeralChar c = true := by
  unfold takeExponent at h
  split at h
  · simp at h
  · split at h
    · rename_i d u hd
      dsimp only at h
      split at h
      · simp at h
      · simp only [cons_append, mem_cons, mem_append] at h
        rcases h with rfl | h | h
        · rcases hd with rfl | rfl <;> rfl
        · exact isNumeralChar_of_mem_takeSign _ h
        · exact isNumeralChar_of_mem_takeDigits _ h
    · simp at h

/-- **A number that is read is made of characters of numerals.** -/
theorem isNumeralChar_of_take {c : Char} {t n r : Text} (ht : take? t = some (n, r)) (h : c ∈ n) :
    isNumeralChar c = true := by
  unfold take? at ht
  dsimp only at ht
  split at ht
  · simp at ht
  · rename_i d s hd
    simp only [Option.some.injEq, Prod.mk.injEq] at ht
    obtain ⟨rfl, -⟩ := ht
    simp only [mem_append] at h
    rcases h with (h | h) | h
    · exact isNumeralChar_of_mem_takeSign _ h
    · exact isNumeralChar_of_mem_takeDecimal hd h
    · exact isNumeralChar_of_mem_takeExponent _ h

/-- A number starts with every digit. -/
theorem isDigit_of_take_eq_none {c : Char} {t : Text} (h : take? (c :: t) = none) :
    c.isDigit = false := by
  by_contra hc
  have hc : c.isDigit = true := by simpa using hc
  have hsign : takeSign (c :: t) = ([], c :: t) := by
    unfold takeSign
    split
    · rename_i heq
      rw [(List.cons.inj heq).1] at hc
      exact absurd hc (by decide)
    · rename_i heq
      rw [(List.cons.inj heq).1] at hc
      exact absurd hc (by decide)
    · rfl
  have hdigits : (takeDigits (c :: t)).1.isEmpty = false := by simp [takeDigits, hc]
  have hsome : ∃ d, takeDecimal? (c :: t) = some d := by
    unfold takeDecimal?
    dsimp only
    split
    · split <;> simp [hdigits]
    · simp [hdigits]
  obtain ⟨d, hd⟩ := hsome
  simp [take?, hsign, hd] at h

/-- What follows a numeral is found in the text: no escape is read in a numeral. -/
theorem unescape_sublist_of_take {t n r : Text} (ht : take? t = some (n, r)) :
    unescape r <+ unescape t := by
  have hback : '\\' ∉ n := fun hmem => absurd (isNumeralChar_of_take ht hmem) (by decide)
  rw [← (take?_append ht).1]
  exact Name.unescape_sublist hback r

end Number

namespace Lexeme

/-- The text that a lexeme was given, without its numeral. -/
def content : Lexeme → Text
  | .leaf (.ident name) | .leaf (.atKeyword name) | .leaf (.hash name _) => name
  | .leaf (.string value _) | .leaf (.url value _) => value
  | .leaf (.dimension _ unit) => unit
  | .leaf (.literal text) => text
  | .call name => name
  | _ => []

variable {c : Char} {t r : Text} {ls : List Lexeme}

/-- What is taken as white space is white space. -/
theorem takeBlanks_subset (t : Text) : ∀ d ∈ (takeBlanks t).1, Text.isCssBlank d = true := by
  induction t with
  | nil => simp [takeBlanks]
  | cons c t ih =>
    cases hc : Text.isCssBlank c with
    | true =>
      simp only [takeBlanks, hc, if_true, mem_cons]
      rintro d (rfl | hd)
      · exact hc
      · exact ih d hd
    | false => simp [takeBlanks, hc]

/-- What a delimiter can be. -/
theorem readDelimiter_eq (c : Char) (t : Text) :
    ∃ text, (readDelimiter c t).1 = [delimiter text] ∧ text ++ (readDelimiter c t).2 = c :: t ∧
      (text = [c] ∨ text = ['<', '!', '-', '-'] ∨ text = ['|', '|'] ∨
        (joinsEquals c = true ∧ text = [c, '='])) := by
  obtain ⟨text, htext, happend⟩ := readDelimiter_append c t
  refine ⟨text, htext, happend, ?_⟩
  -- By the first character: `<`, `|`, one that is joined with an equals sign, or any other.
  unfold readDelimiter at htext
  split at htext
  · split at htext
    all_goals simp only [List.cons.injEq, and_true, delimiter, leaf.injEq, Component.literal.injEq]
      at htext
    · exact Or.inr (Or.inl htext.symm)
    · exact Or.inl htext.symm
  · split at htext
    all_goals simp only [List.cons.injEq, and_true, delimiter, leaf.injEq, Component.literal.injEq]
      at htext
    · exact Or.inr (Or.inr (Or.inl htext.symm))
    · exact Or.inl htext.symm
  · split at htext
    all_goals simp only [List.cons.injEq, and_true, delimiter, leaf.injEq, Component.literal.injEq]
      at htext
    · rename_i h
      exact Or.inr (Or.inr (Or.inr ⟨h, htext.symm⟩))
    · exact Or.inl htext.symm
  · simp only [List.cons.injEq, and_true, delimiter, leaf.injEq, Component.literal.injEq] at htext
    exact Or.inl htext.symm

/-- A delimiter is found as it stands, also a backslash that begins no escape. -/
theorem unescape_delimiter {c : Char} {t : Text} (h : c = '\\' → Name.escapes t = false) :
    (readDelimiter c t).1.flatMap content ++ unescape (readDelimiter c t).2 = unescape (c :: t) := by
  obtain ⟨text, htext, happend, hcases⟩ := readDelimiter_eq c t
  rw [htext]
  show text ++ [] ++ unescape _ = _
  rw [append_nil]
  by_cases hc : c = '\\'
  · subst hc
    rw [Name.unescape_of_not_escapes (h rfl)]
    rcases hcases with rfl | rfl | rfl | ⟨hjoins, -⟩
    · have hrest : (readDelimiter '\\' t).2 = t := (List.cons.inj happend).2
      rw [hrest]
      rfl
    · exact absurd (List.cons.inj happend).1 (by decide)
    · exact absurd (List.cons.inj happend).1 (by decide)
    · exact absurd hjoins (by decide)
  · have hback : '\\' ∉ text := by
      rcases hcases with rfl | rfl | rfl | ⟨-, rfl⟩
      · simpa using Ne.symm hc
      · decide
      · decide
      · simpa using Ne.symm hc
    rw [← happend, Name.unescape_append hback]

/-- What follows blanks is found in the text. -/
theorem sublist_of_blanks (h : Text.isCssBlank c = true) :
    unescape (takeBlanks t).2 <+ unescape (c :: t) := by
  have hback : '\\' ∉ c :: (takeBlanks t).1 := by
    intro hmem
    have hblank : Text.isCssBlank '\\' = true := by
      rcases mem_cons.mp hmem with heq | hmem
      · rw [heq, h]
      · exact takeBlanks_subset t _ hmem
    exact Bool.noConfusion hblank
  have happend : c :: t = (c :: (takeBlanks t).1) ++ (takeBlanks t).2 := by
    rw [cons_append, takeBlanks_fst_append]
  rw [happend]
  exact Name.unescape_sublist hback _

/-- What follows a range is found in the text. -/
theorem sublist_of_range (hc : c = 'u' ∨ c = 'U') (ht : UnicodeRange.starts t = true) :
    unescape (UnicodeRange.take (t.drop 1)).2 <+ unescape (c :: t) := by
  obtain ⟨u, rfl⟩ : ∃ u, t = '+' :: u := by
    unfold UnicodeRange.starts at ht
    split at ht
    · exact ⟨_, rfl⟩
    · contradiction
  obtain ⟨w, hw, hback⟩ := UnicodeRange.exists_append_take u
  have hfront : '\\' ∉ c :: '+' :: w := by
    simp only [mem_cons, not_or]
    refine ⟨?_, by decide, hback⟩
    rcases hc with rfl | rfl <;> decide
  have happend : c :: '+' :: u = (c :: '+' :: w) ++ (UnicodeRange.take u).2 :=
    congrArg (c :: '+' :: ·) hw
  rw [happend]
  exact Name.unescape_sublist hfront _

/-- The name of a function, and what follows its bracket, are found in the text. -/
theorem sublist_of_call (hr : (Name.take t).2 = '(' :: r) :
    (Name.take t).1 ++ unescape r <+ unescape t := by
  have hname := Name.sublist_take t
  rw [hr, Name.unescape_cons (by decide)] at hname
  exact (Sublist.append_left ((Sublist.refl _).cons '(') _).trans hname

/-- A URL, and what follows it, are found in the text. -/
theorem sublist_of_url (hr : (Name.take t).2 = '(' :: r)
    (hfault : ∀ l ∈ ofUrl (UrlText.take r).1, l.isFault = false) :
    (ofUrl (UrlText.take r).1).flatMap content ++ unescape (UrlText.take r).2 <+ unescape t := by
  obtain ⟨v, hv⟩ := eq_of_ofUrl hfault
  have htext : v ++ unescape (UrlText.take r).2 <+ unescape r := UrlText.sublist_take (Prod.ext hv rfl)
  have hrest : unescape r <+ unescape t := (sublist_append_right _ _).trans (sublist_of_call hr)
  simpa [hv, ofUrl, content] using htext.trans hrest

/-- A string, and what follows it, are found in the text behind the quote. -/
theorem sublist_of_string (hc : c ≠ '\\')
    (hfault : ∀ l ∈ ofString (Quotation.take c t).1, l.isFault = false) :
    (ofString (Quotation.take c t).1).flatMap content ++ unescape (Quotation.take c t).2 <+ unescape t := by
  obtain ⟨v, hv⟩ := eq_of_ofString hfault
  have htext := Quotation.sublist_take hc (t := t) (r := (Quotation.take c t).2) (Prod.ext hv rfl)
  simpa [hv, ofString, content] using htext

/-- **What is read is found in the text**, in its order. -/
theorem content_sublist (h : Reading c t ls r) (hfault : ∀ l ∈ ls, l.isFault = false) :
    ls.flatMap content ++ unescape r <+ unescape (c :: t) := by
  have hsymbol : c ≠ '\\' → unescape (c :: t) = c :: unescape t := fun hc =>
    Name.unescape_cons hc t
  cases h with
  | blanks h => exact sublist_of_blanks h
  | range hc ht => exact sublist_of_range hc ht
  | arrow h =>
    rw [h, Name.unescape_cons (by decide), Name.unescape_cons (by decide),
      Name.unescape_cons (by decide)]
    exact Sublist.refl _
  | ident h =>
    simp only [flatMap_cons, flatMap_nil, append_nil, content]
    exact Name.sublist_take (c :: t)
  | call h hr =>
    simp only [flatMap_cons, flatMap_nil, append_nil, content]
    exact sublist_of_call hr
  | url hr => exact sublist_of_url hr hfault
  -- The numeral itself is no content, only the unit behind it is.
  | dimension h =>
    simp only [flatMap_cons, flatMap_nil, append_nil, content]
    exact (Name.sublist_take _).trans (Number.unescape_sublist_of_take h)
  | percentage h =>
    have hsign := Number.unescape_sublist_of_take h
    rw [Name.unescape_cons (by decide)] at hsign
    exact (sublist_cons_self _ _).trans hsign
  | number h => exact Number.unescape_sublist_of_take h
  | atKeyword h =>
    simp only [flatMap_cons, flatMap_nil, append_nil, content]
    rw [hsymbol (by rw [h]; decide)]
    exact (Name.sublist_take t).cons c
  | hash h =>
    simp only [flatMap_cons, flatMap_nil, append_nil, content]
    rw [hsymbol (by rw [h]; decide)]
    exact (Name.sublist_take t).cons c
  | mark h =>
    rw [hsymbol (by rcases h with rfl | rfl <;> decide)]
    exact Sublist.refl _
  | opened b h =>
    rw [hsymbol (by rw [h]; cases b <;> decide)]
    exact sublist_cons_self c _
  | closed b h =>
    rw [hsymbol (by rw [h]; cases b <;> decide)]
    exact sublist_cons_self c _
  | string h =>
    have hc : c ≠ '\\' := by rcases h with rfl | rfl <;> decide
    rw [hsymbol hc]
    exact (sublist_of_string hc hfault).cons c
  | comment hc ht =>
    subst hc ht
    rw [hsymbol (by decide), Name.unescape_cons (by decide)]
    exact ((CommentText.sublist_take _).cons _).cons _
  -- A backslash that begins no escape is a delimiter, and stands for itself.
  | symbol hb hs hn =>
    have hescapes : c = '\\' → Name.escapes t = false := by
      rintro rfl
      exact hs
    rw [unescape_delimiter hescapes]

end Lexeme

end CssShorthand
