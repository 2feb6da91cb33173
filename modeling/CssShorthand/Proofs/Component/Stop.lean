/-
  WHERE READING STOPS.

  No reader looks beyond a space, a semicolon or a slash that it does not read.  So each of them reads of a
  text followed by one of these what it reads of the text alone, and leaves what it leaves of the text,
  followed by the same.  Only what such a character could be a part of has to be looked at: an escape, a
  string, a URL, a comment, and white space.

  Where no backslash is read, a tab or a newline stops reading as well (`Halts`): a newline behind a
  backslash is the one thing that tells it from a space.

  Each lemma compares a reader on a text with the same reader on the text followed by such a character and
  anything else. By this the scan of a text can be cut at a semicolon, a blank or a slash, which is what
  writing a block or a list of values relies on. The proofs are by recursion over the reader; the character
  is looked at once, at the end.
-/
import CssShorthand.Component.Lexeme

namespace CssShorthand

/-- The characters that go on with nothing that is read before them. -/
inductive Stops : Char → Prop
  | space : Stops ' '
  | semicolon : Stops ';'
  | slash : Stops '/'

/-- The characters that go on with nothing but a backslash before them. -/
inductive Halts : Char → Prop
  | space : Halts ' '
  | tab : Halts '\t'
  | newline : Halts '\n'
  | semicolon : Halts ';'
  | slash : Halts '/'

/-- What stops a name stops every run of characters of a word. -/
theorem Stops.halts {e : Char} (he : Stops e) : Halts e := by
  cases he
  · exact .space
  · exact .semicolon
  · exact .slash

section

variable {e : Char} (r : Text)

/-- A front that holds no stop is not found across one. -/
theorem Text.dropFront?_stop {front : Text} (h : e ∉ front) (t : Text) :
    dropFront? front (t ++ e :: r) = (dropFront? front t).map (· ++ e :: r) := by
  induction front generalizing t with
  | nil => rfl
  | cons f front ih =>
    simp only [List.mem_cons, not_or] at h
    cases t with
    | nil => simp [dropFront?, Ne.symm h.1]
    | cons c t =>
      by_cases hfc : f = c
      · simp [dropFront?, hfc, ih h.2]
      · simp [dropFront?, hfc]

/-- What a text begins with that goes on behind a stop, it begins with before the stop. -/
theorem Text.exists_append_of_stop (front : Text) {t v : Text} (h : e ∉ front)
    (ht : t ++ e :: r = front ++ v) : ∃ w, t = front ++ w := by
  have hsome := Text.dropFront?_eq_some_iff.mpr ht
  rw [Text.dropFront?_stop r h] at hsome
  obtain ⟨w, hw, -⟩ := Option.map_eq_some_iff.mp hsome
  exact ⟨w, Text.dropFront?_eq_some_iff.mp hw⟩

/-- Of a class without the stop no more is taken than before. -/
theorem Name.takeAtMost_stop {p : Char → Bool} (hp : p e = false) (n : Nat) (t : Text) :
    takeAtMost p n (t ++ e :: r) = ((takeAtMost p n t).1, (takeAtMost p n t).2 ++ e :: r) := by
  induction n generalizing t with
  | zero => rfl
  | succ n ih =>
    cases t with
    | nil => simp [takeAtMost, hp]
    | cons c t =>
      cases hc : p c with
      | true => simp [takeAtMost, hc, ih]
      | false => simp [takeAtMost, hc]

end

namespace Halts

variable {e : Char}

theorem isHexDigit_eq_false (he : Halts e) : Name.isHexDigit e = false := by cases he <;> rfl

theorem isWildcard_eq_false (he : Halts e) : UnicodeRange.isWildcard e = false := by
  cases he <;> rfl

/-- Such a character is no part of the delimiters of more than one character. -/
theorem notMem (he : Halts e) : e ∉ ['-', '>', '<', '!', '|', '='] := by cases he <;> decide

end Halts

namespace Name

variable {e : Char} (he : Stops e) (r : Text)
include he

/-- A stop ends no line, so a backslash before it would still begin an escape. -/
theorem escapes_stop (t : Text) : escapes (t ++ e :: r) = escapes t := by
  match t with
  | [] => cases he <;> rfl
  | c :: t =>
    by_cases hc : c = '\n'
    · subst hc
      rfl
    · simp [escapes, hc]

/-- Whether a name begins is told by three characters at most, and a stop is none that is looked for. -/
theorem startsIdentifier_stop (t : Text) : startsIdentifier (t ++ e :: r) = startsIdentifier t := by
  match t with
  | [] => cases he <;> rfl
  | [c] =>
    by_cases hc : c = '-'
    · subst hc
      cases he <;> rfl
    · by_cases hc' : c = '\\'
      · subst hc'
        cases he <;> rfl
      · simp [startsIdentifier, hc]
  | c :: d :: t =>
    by_cases hc : c = '-'
    · subst hc
      by_cases hd : d = '\\'
      · subst hd
        exact escapes_stop he r t
      · simp [startsIdentifier]
    · by_cases hc' : c = '\\'
      · subst hc'
        exact escapes_stop he r (d :: t)
      · simp [startsIdentifier, hc]

end Name

variable {e : Char} (he : Halts e) (r : Text)
include he

namespace UnicodeRange

/-- Whether a range begins is told by two. -/
theorem starts_stop (t : Text) : starts (t ++ e :: r) = starts t := by
  match t with
  | [] => cases he <;> rfl
  | [c] =>
    by_cases hc : c = '+'
    · subst hc
      cases he <;> rfl
    · simp [starts, hc]
  | c :: d :: t =>
    by_cases hc : c = '+'
    · subst hc
      rfl
    · simp [starts, hc]

/-- A range takes digits, wildcards and one hyphen, and a stop is none of these. -/
theorem take_stop (t : Text) : take (t ++ e :: r) = ((take t).1, (take t).2 ++ e :: r) := by
  unfold take
  simp only [Name.takeAtMost_stop r he.isHexDigit_eq_false,
    Name.takeAtMost_stop r he.isWildcard_eq_false]
  split
  · -- The hyphen of a range counts only before another digit.
    match h : (Name.takeAtMost Name.isHexDigit 6 t).2 with
    | [] => cases he <;> rfl
    | [c] =>
      by_cases hc : c = '-'
      · subst hc
        cases he <;> rfl
      · simp [hc]
    | c :: d :: u =>
      by_cases hc : c = '-'
      · subst hc
        simp only [List.cons_append]
        split
        · have := Name.takeAtMost_stop r he.isHexDigit_eq_false 6 (d :: u)
          simp only [List.cons_append] at this
          simp [this]
        · rfl
      · simp [hc]
  · rfl

end UnicodeRange

namespace Number

/-- Digits are taken up to the stop at most. -/
theorem takeDigits_stop (t : Text) :
    takeDigits (t ++ e :: r) = ((takeDigits t).1, (takeDigits t).2 ++ e :: r) := by
  induction t with
  | nil => cases he <;> rfl
  | cons c t ih =>
    cases hc : c.isDigit with
    | true => simp [takeDigits, hc, ih]
    | false => simp [takeDigits, hc]

/-- A stop is no sign. -/
theorem takeSign_stop (t : Text) :
    takeSign (t ++ e :: r) = ((takeSign t).1, (takeSign t).2 ++ e :: r) := by
  match t with
  | [] => cases he <;> rfl
  | c :: t =>
    by_cases hc : c = '+'
    · subst hc
      rfl
    · by_cases hc' : c = '-'
      · subst hc'
        rfl
      · simp [takeSign, hc, hc']

/-- A decimal ends before the stop: a point in front of it has no digits behind it. -/
theorem takeDecimal?_stop (t : Text) :
    takeDecimal? (t ++ e :: r) = (takeDecimal? t).map fun d => (d.1, d.2 ++ e :: r) := by
  have hwhole : ∀ w : Text × Text,
      (if w.1.isEmpty then none else some (w.1, w.2 ++ e :: r)) =
        (if w.1.isEmpty then none else some w).map fun d : Text × Text => (d.1, d.2 ++ e :: r) := by
    intro w
    split <;> rfl
  unfold takeDecimal?
  simp only [takeDigits_stop he]
  match h : (takeDigits t).2 with
  | [] => cases he <;> simpa [h] using hwhole (takeDigits t)
  | c :: u =>
    by_cases hc : c = '.'
    · subst hc
      simp only [List.cons_append, takeDigits_stop he]
      split
      · simpa [h] using hwhole (takeDigits t)
      · rfl
    · simpa [h, hc] using hwhole (takeDigits t)

/-- So does an exponent, of which a letter or a sign alone is not taken. -/
theorem takeExponent_stop (t : Text) :
    takeExponent (t ++ e :: r) = ((takeExponent t).1, (takeExponent t).2 ++ e :: r) := by
  match t with
  | [] => cases he <;> rfl
  | c :: t =>
    show takeExponent (c :: (t ++ e :: r)) = _
    unfold takeExponent
    simp only [takeSign_stop he, takeDigits_stop he]
    split
    · split <;> rfl
    · rfl

/-- **A number ends before the stop.** -/
theorem take?_stop (t : Text) :
    take? (t ++ e :: r) = (take? t).map fun n => (n.1, n.2 ++ e :: r) := by
  unfold take?
  simp only [takeSign_stop he, takeDecimal?_stop he]
  cases takeDecimal? (takeSign t).2 with
  | none => rfl
  | some d => simp [takeExponent_stop he]

end Number

omit he in
/-- What follows `url(` is a quoted URL if a quote follows, whatever comes after it. -/
theorem UrlText.starts_append {t : Text} (h : starts t = false) (u : Text) :
    starts (t ++ u) = false := by
  unfold starts at h
  split at h
  · contradiction
  · rename_i c v hc
    have hdrop : (t ++ u).dropWhile Text.isCssBlank = c :: (v ++ u) := by
      rw [List.dropWhile_append, hc]
      rfl
    rw [starts, hdrop]
    exact h

namespace Lexeme

omit he in
/-- A hash sign looks at one character. -/
theorem startsName_stop (he : Stops e) (r t : Text) : startsName (t ++ e :: r) = startsName t := by
  cases t with
  | nil => cases he <;> rfl
  | cons c t =>
    show (Name.isChar c || (c == '\\' && Name.escapes (t ++ e :: r))) = _
    rw [Name.escapes_stop he]
    rfl

omit he in
/-- White space ends where it ended, unless it ended with the text. -/
theorem takeBlanks_append {t : Text} (h : (takeBlanks t).2 ≠ []) (u : Text) :
    takeBlanks (t ++ u) = ((takeBlanks t).1, (takeBlanks t).2 ++ u) := by
  induction t with
  | nil => exact absurd rfl h
  | cons c t ih =>
    cases hc : Text.isCssBlank c with
    | true =>
      simp only [takeBlanks, hc, if_true] at h
      simp [takeBlanks, hc, ih h]
    | false => simp [takeBlanks, hc]

omit he in
/-- A character is a delimiter for itself, if what follows cannot be joined to any. -/
theorem readDelimiter_of_ne (hmark : ∀ v, t ≠ '!' :: '-' :: '-' :: v) (hbar : ∀ v, t ≠ '|' :: v)
    (hequals : ∀ v, t ≠ '=' :: v) (c : Char) : readDelimiter c t = ([delimiter [c]], t) := by
  unfold readDelimiter
  split
  · exact absurd rfl (hmark _)
  · exact absurd rfl (hbar _)
  · exact absurd rfl (hequals _)
  · rfl

omit he in
/-- So it is, whatever follows, if nothing can be joined to the character. -/
theorem readDelimiter_of_not_joins {c : Char} (hmark : c ≠ '<') (hjoins : joinsEquals c = false)
    (t : Text) : readDelimiter c t = ([delimiter [c]], t) := by
  have hbar : c ≠ '|' := by
    rintro rfl
    contradiction
  unfold readDelimiter
  split
  · rw [if_neg hmark]
  · rw [if_neg hbar]
  · simp [hjoins]
  · rfl

/-- **Delimiters** look at three characters at most, and only at bars, equals signs and the mark of a comment
    in markup. -/
theorem readDelimiter_stop (c : Char) (t : Text) :
    readDelimiter c (t ++ e :: r) = ((readDelimiter c t).1, (readDelimiter c t).2 ++ e :: r) := by
  by_cases hbar : ∃ v, t = '|' :: v
  · obtain ⟨v, rfl⟩ := hbar
    show (if c = '|' then _ else _) = _
    unfold readDelimiter
    split <;> rfl
  by_cases hequals : ∃ v, t = '=' :: v
  · obtain ⟨v, rfl⟩ := hequals
    show (if joinsEquals c then _ else _) = _
    unfold readDelimiter
    split <;> rfl
  by_cases hmark : ∃ v, t = '!' :: '-' :: '-' :: v
  · obtain ⟨v, rfl⟩ := hmark
    show (if c = '<' then _ else _) = _
    unfold readDelimiter
    split <;> rfl
  have hstop := he.notMem
  simp only [List.mem_cons, not_or] at hstop
  rw [readDelimiter_of_ne (not_exists.mp hmark) (not_exists.mp hbar) (not_exists.mp hequals)]
  -- Nor does the text begin with any of these where the stop follows.
  apply readDelimiter_of_ne
  · exact fun v hv => hmark (Text.exists_append_of_stop r ['!', '-', '-'] (by simp [hstop]) hv)
  · exact fun v hv => hbar (Text.exists_append_of_stop r ['|'] (by simp [hstop]) hv)
  · exact fun v hv => hequals (Text.exists_append_of_stop r ['='] (by simp [hstop]) hv)

end Lexeme

end CssShorthand
