/-
  READING WHAT IS WRITTEN: names, strings and URLs.

  What is written for a name is read as that name whatever follows it, and goes on with the name that
  the text goes on with (`Name.take_write`): an escape that is written has its end, a blank after its
  digits or a character that is no digit.  A string and a URL that are written end with their mark
  (`Quotation.take_write`, `UrlText.takeRest_write`), but a URL may hold characters that cannot stand in
  one without quotes, and is then read as broken.

  An escape by code takes up to six digits and one blank behind them, and the writer always puts the blank;
  so what follows is never taken for a digit of it. An escape by a backslash is only written before
  characters that are no digits of a code and no line ends.
-/
import Mathlib
import CssShorthand.Component.Writer
import CssShorthand.Proofs.Component.Stop

namespace CssShorthand

namespace Name

variable {c : Char} {n t : Text}

/-! ## Escapes

  A character that may not stand in a name is written by an escape that is read as this character and
  nothing more.
-/

/-- Hexadecimal digits are characters of names, so they are never written as escapes. -/
theorem isChar_of_isHexDigit (h : isHexDigit c = true) : isChar c = true := by
  simp only [isHexDigit, Bool.or_eq_true, Bool.and_eq_true, decide_eq_true_eq] at h
  simp only [isChar, isStart, Char.isAlpha, Char.isUpper, Char.isLower, Bool.or_eq_true,
    Bool.and_eq_true, decide_eq_true_eq]
  rcases h with (h | h) | h
  · exact Or.inl (Or.inr h)
  · have h' : 'a'.val ≤ c.val ∧ c.val ≤ 'z'.val := ⟨h.1, Nat.le_trans h.2 (by decide)⟩
    exact Or.inl (Or.inl (Or.inl (Or.inl (Or.inr h'))))
  · have h' : 'A'.val ≤ c.val ∧ c.val ≤ 'Z'.val := ⟨h.1, Nat.le_trans h.2 (by decide)⟩
    exact Or.inl (Or.inl (Or.inl (Or.inl (Or.inl h'))))

/-- An escape is read as the character it was written for, up to its end. -/
theorem takeEscape_escaped (hc : isChar c = false) (t : Text) :
    ∃ e, escaped c = '\\' :: e ∧ escapes (e ++ t) = true ∧ takeEscape (e ++ t) = (c, t) := by
  have hhex : isHexDigit c = false := by
    by_contra h
    rw [isChar_of_isHexDigit (by simpa using h)] at hc
    exact Bool.noConfusion hc
  -- The line ends are written by their codes, any other character behind a backslash.
  unfold escaped
  split
  · rename_i h
    exact ⟨['A', ' '], rfl, rfl, h ▸ rfl⟩
  · split
    · rename_i h
      exact ⟨['D', ' '], rfl, rfl, h ▸ rfl⟩
    · split
      · rename_i h
        exact ⟨['C', ' '], rfl, rfl, h ▸ rfl⟩
      · rename_i hnewline _ _
        refine ⟨[c], rfl, ?_, ?_⟩
        · show escapes (c :: t) = true
          unfold escapes
          split
          · rename_i heq
            exact absurd (List.cons.inj heq).1 hnewline
          · rfl
        · show takeEscape (c :: t) = (c, t)
          simp [takeEscape, hhex]

/-- A number in hexadecimal is made of hexadecimal digits. -/
theorem isHexDigit_of_mem_toDigits {m : Nat} (h : c ∈ upperHex m) : isHexDigit c = true := by
  have hdigit : ∀ d < 16, isHexDigit (Nat.digitChar d).toUpper = true := by decide
  have hcore : ∀ fuel m ds, (∀ x ∈ ds, isHexDigit x.toUpper = true) →
      ∀ x ∈ Nat.toDigitsCore 16 fuel m ds, isHexDigit x.toUpper = true := by
    intro fuel
    induction fuel with
    | zero => exact fun m ds h => h
    | succ fuel ih =>
      intro m ds hds
      have hcons : ∀ x ∈ Nat.digitChar (m % 16) :: ds, isHexDigit x.toUpper = true := by
        intro x hx
        rcases List.mem_cons.mp hx with rfl | hx
        · exact hdigit _ (Nat.mod_lt _ (by decide))
        · exact hds x hx
      unfold Nat.toDigitsCore
      simp only
      split
      · exact hcons
      · exact ih _ _ hcons
  obtain ⟨x, hx, rfl⟩ := List.mem_map.mp h
  exact hcore _ _ [] (by simp) x hx

/-! ## Names

  The first character of a name has rules of its own: a digit there is written by its code, and so is a
  hyphen by itself. A unit that begins with `e` would be read as an exponent, and is escaped as well.
-/

/-- A character of a name is taken as it stands. -/
theorem take_cons_of_isChar (hc : isChar c = true) (t : Text) :
    take (c :: t) = (c :: (take t).1, (take t).2) := by
  rw [take]
  simp [hc]

/-- A name goes on through characters of names. -/
theorem take_append_of_isChar (h : ∀ c ∈ n, isChar c = true) (t : Text) :
    take (n ++ t) = (n ++ (take t).1, (take t).2) := by
  induction n with
  | nil => rfl
  | cons c n ih =>
    rw [List.cons_append, take_cons_of_isChar (h c List.mem_cons_self),
      ih fun d hd => h d (List.mem_cons_of_mem _ hd)]
    rfl

/-- An escape is taken for the character it stands for. -/
theorem take_escape {e : Text} (he : escapes t = true) (htake : takeEscape t = (c, e)) :
    take ('\\' :: t) = (c :: (take e).1, (take e).2) := by
  rw [take]
  have hchar : isChar '\\' = false := by decide
  simp [hchar, he, htake]

/-- An escaped character is taken back. -/
theorem take_escaped (hc : isChar c = false) (t : Text) :
    take (escaped c ++ t) = (c :: (take t).1, (take t).2) := by
  obtain ⟨e, he, hescapes, htake⟩ := takeEscape_escaped hc t
  rw [he]
  exact take_escape hescapes htake

/-- **A name that is written is read**, and goes on as the text goes on. -/
theorem take_write (n t : Text) : take (write n ++ t) = (n ++ (take t).1, (take t).2) := by
  induction n with
  | nil => rfl
  | cons c n ih =>
    show take ((if isChar c then [c] else escaped c) ++ write n ++ t) = _
    rw [List.append_assoc]
    cases hc : isChar c with
    | true =>
      show take (c :: (write n ++ t)) = _
      rw [take_cons_of_isChar hc, ih]
      rfl
    | false =>
      show take (escaped c ++ (write n ++ t)) = _
      rw [take_escaped hc, ih]
      rfl

/-- The digits are the only characters of names that cannot begin an identifier by themselves, but for
    the hyphen. -/
theorem take_writeStart (hc : c ≠ '-') (t : Text) :
    take (writeStart c ++ t) = (c :: (take t).1, (take t).2) := by
  unfold writeStart
  split
  · rename_i hstart
    exact take_cons_of_isChar (by simp [isChar, hstart]) t
  · rename_i hstart
    split
    · rename_i hdigit
      -- A digit at the start is written by its code: ten cases, each by computation.
      have hdigits : ∀ d < 10, ∀ t : Text,
          upperHex (48 + d) ++ [' '] ++ t = '3' :: Nat.digitChar d :: ' ' :: t ∧
            takeEscape ('3' :: Nat.digitChar d :: ' ' :: t) = (Char.ofNat (48 + d), t) := by
        intro d hd t
        interval_cases d <;> exact ⟨rfl, rfl⟩
      obtain ⟨d, hd, rfl⟩ : ∃ d < 10, c = Char.ofNat (48 + d) := by
        simp only [Char.isDigit, Bool.and_eq_true, decide_eq_true_eq, UInt32.le_iff_toNat_le] at hdigit
        have h0 : '0'.val.toNat = 48 := rfl
        have h9 : '9'.val.toNat = 57 := rfl
        refine ⟨c.toNat - 48, ?_, ?_⟩
        · show c.val.toNat - 48 < 10
          omega
        · have hle : 48 ≤ c.toNat := hdigit.1
          rw [Nat.add_sub_cancel' hle, Char.ofNat_toNat]
      have hcode : (Char.ofNat (48 + d)).toNat = 48 + d := by
        interval_cases d <;> rfl
      obtain ⟨hwrite, htake⟩ := hdigits d hd t
      show take ('\\' :: (upperHex (Char.ofNat (48 + d)).toNat ++ [' '] ++ t)) = _
      rw [hcode, hwrite]
      exact take_escape rfl htake
    · rename_i hdigit
      apply take_escaped
      simp only [isChar, Bool.or_eq_false_iff, beq_eq_false_iff_ne]
      exact ⟨⟨by simpa using hstart, by simpa using hdigit⟩, hc⟩

/-- An identifier that is written is read, and goes on as the text goes on. -/
theorem take_writeIdentifier (n t : Text) :
    take (writeIdentifier n ++ t) = (n ++ (take t).1, (take t).2) := by
  unfold writeIdentifier
  split
  · rfl
  · exact take_escape rfl rfl
  · rename_i rest
    show take ('-' :: '-' :: (write rest ++ t)) = _
    rw [take_cons_of_isChar rfl, take_cons_of_isChar rfl, take_write]
    rfl
  · rename_i c rest hc
    show take ('-' :: (writeStart c ++ write rest ++ t)) = _
    rw [take_cons_of_isChar rfl, List.append_assoc, take_writeStart fun h => hc (h ▸ rfl), take_write]
    rfl
  · rename_i c rest h₁ h₂ h₃
    rw [List.append_assoc, take_writeStart, take_write]
    · rfl
    · rintro rfl
      cases rest with
      | nil => exact h₁ rfl rfl
      | cons d rest => exact h₃ d rest rfl rfl

/-- The escape of `e` keeps a unit from being read as an exponent. -/
theorem take_escape_e (t : Text) :
    take (['\\', '6', '5', ' '] ++ t) = ('e' :: (take t).1, (take t).2) :=
  take_escape rfl rfl

/-- A unit that is written is read, in lower case if it begins as an exponent does. -/
theorem take_writeUnit (n : Text) :
    ∃ m, (m = n ∨ ∃ r, n = 'E' :: r ∧ m = 'e' :: r) ∧
      ∀ t, take (writeUnit n ++ t) = (m ++ (take t).1, (take t).2) := by
  unfold writeUnit
  split
  · split
    · rename_i c hc
      refine ⟨['e'], ?_, take_escape_e⟩
      exact hc.elim (fun h => Or.inl (h ▸ rfl)) fun h => Or.inr ⟨[], h ▸ rfl, rfl⟩
    · exact ⟨_, Or.inl rfl, take_writeIdentifier _⟩
  · rename_i c rest
    split
    · rename_i hc
      refine ⟨'e' :: '-' :: rest, ?_, fun t => ?_⟩
      · exact hc.elim (fun h => Or.inl (h ▸ rfl)) fun h => Or.inr ⟨'-' :: rest, h ▸ rfl, rfl⟩
      · rw [List.append_assoc, take_escape_e, take_write]
        rfl
    · exact ⟨_, Or.inl rfl, take_writeIdentifier _⟩
  · exact ⟨_, Or.inl rfl, take_writeIdentifier _⟩

/-- Where no name goes on nothing is read. -/
theorem take_of_not_startsName (h : Lexeme.startsName t = false) : take t = ([], t) := by
  cases t with
  | nil => rw [take]
  | cons c t =>
    simp only [Lexeme.startsName, Bool.or_eq_false_iff, Bool.and_eq_false_iff, beq_eq_false_iff_ne]
      at h
    rw [take]
    have hescape : ¬(c = '\\' ∧ escapes t = true) := fun hc =>
      h.2.elim (fun hne => hne hc.1) fun he => by simp [hc.2] at he
    simp [h.1, hescape]

/-- Where a name goes on something is read. -/
theorem startsName_eq_false (h : (take t).1 = []) : Lexeme.startsName t = false := by
  cases t with
  | nil => rfl
  | cons c t =>
    rw [take] at h
    split at h
    · contradiction
    · rename_i hchar
      split at h
      · contradiction
      · rename_i hescape
        simp only [Lexeme.startsName, Bool.or_eq_false_iff, Bool.and_eq_false_iff,
          beq_eq_false_iff_ne]
        refine ⟨by simpa using hchar, ?_⟩
        by_cases hc : c = '\\'
        · exact Or.inr (by simpa [hc] using hescape)
        · exact Or.inl hc

/-- A text that is read as a name whatever follows, and of which nothing more was read, is read as that
    name where reading stops as well. -/
theorem take_ends {w y : Text} (hw : ∀ u, take (w ++ u) = (n ++ (take u).1, (take u).2))
    (h : (take (w ++ y)).1 = n) :
    take (w ++ y) = (n, y) ∧
      ∀ e, Stops e → ∀ r, take (w ++ y ++ e :: r) = (n, y ++ e :: r) := by
  have hnone : (take y).1 = [] := by
    rw [hw] at h
    simpa using h
  have hstarts := startsName_eq_false hnone
  constructor
  · rw [hw, take_of_not_startsName hstarts]
    simp
  · intro e he r
    have hstop : Lexeme.startsName (y ++ e :: r) = false :=
      (Lexeme.startsName_stop he r y).trans hstarts
    rw [List.append_assoc, hw, take_of_not_startsName hstop]
    simp

end Name

/-! ## Strings

  Quotes, backslashes and line ends are escaped; any other character stands for itself.
-/

namespace Quotation

/-- A character of a string is read as it is written. -/
theorem take_writeInString (c : Char) (t : Text) :
    take '"' (Name.writeInString c ++ t) = ((take '"' t).1.prepend [c], (take '"' t).2) := by
  have hescape : ∀ e r : Text, takeEscape e = ([c], r) →
      take '"' ('\\' :: e) = ((take '"' r).1.prepend [c], (take '"' r).2) := by
    intro e r h
    rw [take]
    simp [h]
  unfold Name.writeInString
  split
  · rename_i h
    subst h
    exact hescape _ t rfl
  · split
    · rename_i h
      subst h
      exact hescape _ t rfl
    · split
      · rename_i h
        rcases h with rfl | rfl | rfl
        all_goals exact hescape _ t rfl
      · rename_i hquote hback hline
        show take '"' (c :: t) = _
        rw [take]
        simp only [not_or] at hline
        simp [hquote, hback, hline.1]

/-- **A string that is written is read.** -/
theorem take_write (v t : Text) :
    take '"' (v.flatMap Name.writeInString ++ '"' :: t) = (.closed v, t) := by
  induction v with
  | nil =>
    show take '"' ('"' :: t) = _
    rw [take]
    simp
  | cons c v ih =>
    rw [List.flatMap_cons, List.append_assoc, take_writeInString, ih]
    rfl

end Quotation

/-! ## URLs

  Blanks, quotes and brackets are escaped. Characters that cannot be printed are not, and a url with one of
  them is read as broken; so the lemma has two cases.
-/

namespace UrlText

/-- A character of a URL is read as it is written, or breaks the URL. -/
theorem takeRest_writeInUrl (c : Char) :
    (∀ t, takeRest (Name.writeInUrl c ++ t) = ((takeRest t).1.prepend [c], (takeRest t).2)) ∨
      ∀ t, (takeRest (Name.writeInUrl c ++ t)).1 = .broken := by
  have hescape : ∀ e r : Text, Name.escapes e = true → Name.takeEscape e = (c, r) →
      takeRest ('\\' :: e) = ((takeRest r).1.prepend [c], (takeRest r).2) := by
    intro e r he h
    rw [takeRest]
    simp [he, h]
  -- What is escaped is read back; of what is not, only the forbidden characters break the url.
  unfold Name.writeInUrl
  split
  · rename_i h
    left
    intro t
    rcases h with rfl | rfl | rfl | rfl | rfl | rfl
    all_goals exact hescape _ t rfl rfl
  · split
    · rename_i h
      subst h
      exact Or.inl fun t => hescape _ t rfl rfl
    · split
      · rename_i h
        left
        intro t
        rcases h with rfl | rfl | rfl
        all_goals exact hescape _ t rfl rfl
      · rename_i hmark htab hline
        simp only [not_or] at hmark hline
        have hblank : Text.isCssBlank c = false := by
          simp [Text.isCssBlank, hmark.2.2.2.1, htab, hline.1]
        cases hforbidden : isForbidden c with
        | true =>
          right
          intro t
          show (takeRest (c :: t)).1 = _
          rw [takeRest]
          simp [hmark, hblank, hforbidden]
        | false =>
          left
          intro t
          show takeRest (c :: t) = _
          rw [takeRest]
          simp [hmark, hblank, hforbidden]

/-- **A URL that is written is read**, or it holds a character that breaks it. -/
theorem takeRest_write (v : Text) :
    (∀ t, takeRest (v.flatMap Name.writeInUrl ++ ')' :: t) = (.closed v, t)) ∨
      ∀ t, (takeRest (v.flatMap Name.writeInUrl ++ ')' :: t)).1 = .broken := by
  induction v with
  | nil =>
    left
    intro t
    show takeRest (')' :: t) = _
    rw [takeRest]
    simp
  | cons c v ih =>
    simp only [List.flatMap_cons, List.append_assoc]
    rcases takeRest_writeInUrl c with h | h
    · rcases ih with ih | ih
      · left
        intro t
        rw [h, ih]
        rfl
      · right
        intro t
        rw [h, ih]
        rfl
    · exact Or.inr fun t => h _

/-- What is written of a URL begins with no blank and no quote. -/
theorem dropWhile_write (v t : Text) :
    (v.flatMap Name.writeInUrl ++ ')' :: t).dropWhile Text.isCssBlank =
      v.flatMap Name.writeInUrl ++ ')' :: t ∧
    starts (v.flatMap Name.writeInUrl ++ ')' :: t) = true := by
  have hhead : ∀ c : Char, ∀ r : Text, Text.isCssBlank c = false → c ≠ '"' → c ≠ '\'' →
      (c :: r).dropWhile Text.isCssBlank = c :: r ∧ starts (c :: r) = true := by
    intro c r hblank hquote hquote'
    have hdrop : (c :: r).dropWhile Text.isCssBlank = c :: r := by simp [hblank]
    refine ⟨hdrop, ?_⟩
    rw [starts, hdrop]
    simp [hquote, hquote']
  -- The first character is the bracket, a backslash, or a character that needs no escape: none of them white
  -- space or a quote.
  cases v with
  | nil => exact hhead ')' t rfl (by decide) (by decide)
  | cons c v =>
    rw [List.flatMap_cons]
    unfold Name.writeInUrl
    split
    · exact hhead '\\' _ rfl (by decide) (by decide)
    · split
      · exact hhead '\\' _ rfl (by decide) (by decide)
      · split
        · rename_i h
          rcases h with rfl | rfl | rfl
          all_goals exact hhead '\\' _ rfl (by decide) (by decide)
        · rename_i hmark htab hline
          simp only [not_or] at hmark hline
          exact hhead c _ (by simp [Text.isCssBlank, hmark.2.2.2.1, htab, hline.1]) hmark.2.1 hmark.1

end UrlText

end CssShorthand
