/-
  WHAT IS WRITTEN AS IT IS READ.

  A name that needs no escape is read as it stands (`lexemes_name`), and so are the marks between the
  parts of a declaration (`lexemes_mark`).  A value is whole (`Component.Whole`) if it is read without
  faults and is written as it is read: such a value is scanned to its end, whatever stops the reading
  behind it (`Whole.lexemes_append`).

  Declarations are written with a colon, a mark and a semicolon around a name and a value; all three stop
  the reading. So the lexemes of a written declaration are those of its parts in a row.
-/
import CssShorthand.Proofs.Component.Joined
import CssShorthand.Proofs.Declaration.Cleaning

namespace CssShorthand

open List

/-! ## Names without escapes

  An escape makes the written name longer than the name, so a name that is written at its own length is
  written as it is.
-/

namespace Name

variable {n : Text}

/-- An escape is a backslash and at least one character. -/
theorem two_le_length_escaped (c : Char) : 2 ≤ (escaped c).length := by
  unfold escaped
  split
  · decide
  · split
    · decide
    · split <;> simp

/-- A name is written with no fewer characters than it has. -/
theorem length_le_write (n : Text) : n.length ≤ (write n).length := by
  induction n with
  | nil => exact Nat.le_refl 0
  | cons c n ih =>
    have hc := two_le_length_escaped c
    have hwrite : write (c :: n) = (if isChar c then [c] else escaped c) ++ write n := rfl
    rw [hwrite, length_append, length_cons]
    split
    · rw [length_singleton]
      omega
    · omega

/-- A name that is written as it stands has no character that needs an escape. -/
theorem isChar_of_write_eq (h : write n = n) : ∀ c ∈ n, isChar c = true := by
  induction n with
  | nil => simp
  | cons c n ih =>
    have hwrite : (if isChar c then [c] else escaped c) ++ write n = c :: n := h
    cases hc : isChar c with
    | true =>
      rw [hc, if_pos rfl] at hwrite
      exact forall_mem_cons.mpr ⟨hc, ih (List.cons.inj hwrite).2⟩
    | false =>
      have hlen := congrArg List.length hwrite
      have hescaped := two_le_length_escaped c
      have hrest := length_le_write n
      rw [hc, if_neg Bool.false_ne_true, length_append, length_cons] at hlen
      omega

/-- So is the first character of an identifier that is written as it stands. -/
theorem isStart_of_writeStart_eq {c : Char} (h : writeStart c ++ write n = c :: n) :
    isStart c = true ∧ write n = n := by
  unfold writeStart at h
  split at h
  · rename_i hc
    exact ⟨hc, (List.cons.inj h).2⟩
  · exfalso
    have hrest := length_le_write n
    have hlen := congrArg List.length h
    rw [length_append, length_cons] at hlen
    split at hlen
    · simp only [cons_append, length_cons, length_append, length_nil] at hlen
      omega
    · have hescaped := two_le_length_escaped c
      omega

/-- **An identifier that is written as it stands** has only characters of names, and starts whatever
    follows. -/
theorem isChar_of_writeIdentifier_eq (h : writeIdentifier n = n) (hne : n ≠ []) :
    (∀ c ∈ n, isChar c = true) ∧ ∀ r, startsIdentifier (n ++ r) = true := by
  unfold writeIdentifier at h
  split at h
  · contradiction
  · simp at h
  · rename_i rest
    have hrest := isChar_of_write_eq (List.cons.inj (List.cons.inj h).2).2
    refine ⟨?_, fun r => rfl⟩
    simpa [show isChar '-' = true from rfl] using hrest
  · rename_i c rest _
    obtain ⟨hc, hrest⟩ := isStart_of_writeStart_eq (List.cons.inj h).2
    have hchar : isChar c = true := by simp [isChar, hc]
    refine ⟨?_, fun r => ?_⟩
    · simpa [show isChar '-' = true from rfl, hchar] using isChar_of_write_eq hrest
    · have hback : c ≠ '\\' := by
        rintro rfl
        exact Bool.noConfusion hc
      simp [startsIdentifier, hc]
  · rename_i c rest _ _ _
    obtain ⟨hc, hrest⟩ := isStart_of_writeStart_eq h
    have hchar : isChar c = true := by simp [isChar, hc]
    refine ⟨?_, fun r => Lexeme.startsIdentifier_of_isStart hc _⟩
    simpa [hchar] using isChar_of_write_eq hrest

/-- A name without escapes is written as it is. -/
theorem write_of_isChar (h : ∀ c ∈ n, isChar c = true) : write n = n := by
  induction n with
  | nil => rfl
  | cons c n ih =>
    have hrest := ih fun d hd => h d (mem_cons_of_mem _ hd)
    rw [write] at hrest ⊢
    simp [h c mem_cons_self, hrest]

/-- **An identifier without escapes** is written as it is, if it begins with no hyphen. -/
theorem writeIdentifier_of_isStart {c : Char} (hc : isStart c = true) (hn : ∀ d ∈ n, isChar d = true) :
    writeIdentifier (c :: n) = c :: n := by
  have hhyphen : c ≠ '-' := by
    rintro rfl
    exact absurd hc (by decide)
  generalize hm : c :: n = m
  unfold writeIdentifier
  split
  · contradiction
  · exact absurd (cons.inj hm).1 hhyphen
  · exact absurd (cons.inj hm).1 hhyphen
  · exact absurd (cons.inj hm).1 hhyphen
  · obtain ⟨rfl, rfl⟩ := cons.inj hm
    rw [writeStart, if_pos hc, write_of_isChar hn]
    rfl

/-- A word of letters is written as it is. -/
theorem writeIdentifier_of_isAlpha {n : Text} (h : ∀ c ∈ n, c.isAlpha = true) :
    writeIdentifier n = n := by
  cases n with
  | nil => rfl
  | cons c n =>
    exact writeIdentifier_of_isStart (by simp [isStart, h c mem_cons_self]) fun d hd => by
      simp [isChar, isStart, h d (mem_cons_of_mem _ hd)]

end Name

namespace Lexeme

variable {n t : Text} {l : Lexeme}

/-- **A name that needs no escape is read as it stands**, before a colon or a semicolon. -/
theorem lexemes_name (h : Name.writeIdentifier n = n) (hne : n ≠ []) {e : Char}
    (he : e = ':' ∨ e = ';') (r : Text) : lexemes (n ++ e :: r) = .leaf (.ident n) :: lexemes (e :: r) := by
  obtain ⟨hchars, hstarts⟩ := Name.isChar_of_writeIdentifier_eq h hne
  have htake : Name.take (n ++ e :: r) = (n, e :: r) := by
    have hnone : startsName (e :: r) = false := by rcases he with rfl | rfl <;> rfl
    rw [Name.take_append_of_isChar hchars, Name.take_of_not_startsName hnone, append_nil]
  have hname : readName (n ++ e :: r) = ([.leaf (.ident n)], e :: r) := by
    refine readName_ident htake fun u hu => ?_
    rcases he with rfl | rfl <;> simp at hu
  obtain ⟨c, m, rfl⟩ := exists_cons_of_ne_nil hne
  have hread : read c (m ++ e :: r) = readName (c :: m ++ e :: r) := by
    refine read_name hchars (hstarts _) ?_ ?_ <;> rcases he with rfl | rfl <;> first | rfl | simp
  rw [cons_append, lexemes_cons, hread, hname]
  rfl

/-- The marks of declarations are read one by one, whatever follows. -/
theorem lexemes_mark {c : Char} (hc : c = ':' ∨ c = ';' ∨ c = '!') (t : Text) :
    lexemes (c :: t) = delimiter [c] :: lexemes t := by
  have hread : read c t = readDelimiter c t := by rcases hc with rfl | rfl | rfl <;> rfl
  have hdelimiter : readDelimiter c t = ([delimiter [c]], t) := by
    rcases hc with rfl | rfl | rfl <;> exact readDelimiter_of_not_joins (by decide) rfl t
  rw [lexemes_cons, hread, hdelimiter]
  rfl

/-- A slash is read for itself, if it begins no comment. -/
theorem lexemes_slash (h : t.head? ≠ some '*') : lexemes ('/' :: t) = delimiter ['/'] :: lexemes t := by
  have hread : read '/' t = readDelimiter '/' t := by
    show readSymbol '/' t = _
    rw [readSymbol]
    rintro r rfl
    exact h rfl
  rw [lexemes_cons, hread, readDelimiter_of_not_joins (by decide) rfl]
  rfl

/-- The text of lexemes ends with that of the last one. -/
theorem write_suffix_writeAfter (a : Lexeme) (G : List Lexeme) (l : Lexeme) :
    l.write <:+ writeAfter a (G ++ [l]) := by
  induction G generalizing a with
  | nil => exact ⟨between a l, by simp [writeAfter]⟩
  | cons m G ih => exact (ih m).trans (suffix_append _ _)

end Lexeme

/-! ## Whole values

  Being whole is stronger than being parsed without faults: also the white space and the comments between
  the components are those that the writer puts there.
-/

namespace Component

open Lexeme (lexemes writeAfter)

/-- A value that is read without faults and is written as it is read. -/
structure Whole (v : Text) : Prop where
  faultless : Faultless (parse v)
  writeList_eq : writeList (parse v) = v

variable {v : Text}

theorem Whole.normal (h : Whole v) : Lexeme.Normal v := by
  have hnormal := Lexeme.normal_writeAfter (formed_of_mem_flatList_parse h.faultless)
    (.opened .round)
  rwa [← writeList_eq_writeAfter h.faultless, h.writeList_eq] at hnormal

/-- **A whole value is scanned to its end**, whatever stops the reading behind it. -/
theorem Whole.lexemes_append (h : Whole v) (htrim : Text.trim v = v) {e : Char} (he : Stops e)
    (r : Text) : lexemes (v ++ e :: r) = flatList (parse v) ++ lexemes (e :: r) := by
  have hformed := formed_of_mem_flatList_parse h.faultless
  obtain ⟨closing, hflat, hclosing⟩ := exists_flatList_parse h.faultless
  rw [Lexeme.normalize_of_normal h.normal] at hflat
  have htext : v = writeAfter (.opened .round) (flatList (parse v)) := by
    rw [← writeList_eq_writeAfter h.faultless, h.writeList_eq]
  -- White space at the end would have been trimmed.
  have hlast : ∀ l ∈ (flatList (parse v)).getLast?, l.isWhitespace = false := by
    intro l hl
    by_contra hblank
    obtain ⟨G, hG⟩ := getLast?_eq_some_iff.mp hl
    obtain ⟨w, rfl, hne, hw⟩ : ∃ w, l = .leaf (.whitespace w) ∧ w ≠ [] ∧
        ∀ c ∈ w, Text.isCssBlank c = true := by
      have hl := hformed l (by simp [hG])
      cases l with
      | leaf d =>
        cases d with
        | whitespace w => exact ⟨w, rfl, hl.2⟩
        | _ => exact absurd rfl hblank
      | _ => exact absurd rfl hblank
    have hsuffix := Lexeme.write_suffix_writeAfter (.opened .round) G (.leaf (.whitespace w))
    rw [← hG, ← htext] at hsuffix
    obtain ⟨w, c, rfl⟩ := (eq_nil_or_concat w).resolve_left hne
    rw [concat_eq_append] at hsuffix hw
    obtain ⟨u, hu⟩ := hsuffix
    have hu : v = (u ++ w) ++ [c] := by rw [← hu, append_assoc]; rfl
    obtain ⟨-, t, d, hd, hdblank⟩ := Text.exists_ends_of_trim htrim (by simp [hu])
    have hcd : c = d := singleton_inj.mp (append_inj_right' (hu.symm.trans hd) rfl)
    rw [← hcd, Text.isBlank_of_isCssBlank (hw c (by simp))] at hdblank
    exact Bool.noConfusion hdblank
  have hstep : Lexeme.InStep v (.opened .round) (flatList (parse v)) [] closing :=
    ⟨by rw [append_nil, hflat], htext, hformed, hlast, by simp, hclosing⟩
  obtain ⟨rfl, -, hstop⟩ := hstep.scanned
  rw [hstop e he r, hflat, append_nil]

end Component

end CssShorthand
