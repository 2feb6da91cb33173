/-
  ALL THAT CAN BE READ AT A PLACE.

  `Lexeme.Reading` lists the ways in which a text can begin, each with the lexemes that are read and the
  text that is left, and `reading_read` says that these are all.  What holds of every lexeme of a text
  is shown by these cases.

  The reader is a chain of tests, and most of them exclude each other only by their order. The cases of
  `Lexeme.Reading` carry what the tests have found, so that a proof looks at one case without unfolding the
  chain. Faults are among the lexemes that are read, as those of a url or a string that breaks.
-/
import Mathlib.Tactic.ByContra
import CssShorthand.Proofs.Component.Reread

namespace CssShorthand

namespace Lexeme

/-- How a text that begins with `c`, followed by `t`, can be read. -/
inductive Reading (c : Char) (t : Text) : List Lexeme → Text → Prop
  | blanks (h : Text.isCssBlank c = true) :
      Reading c t [.leaf (.whitespace (c :: (takeBlanks t).1))] (takeBlanks t).2
  | range (hc : c = 'u' ∨ c = 'U') (ht : UnicodeRange.starts t = true) :
      Reading c t
        [.leaf (.unicodeRange (UnicodeRange.take (t.drop 1)).1.1 (UnicodeRange.take (t.drop 1)).1.2)]
        (UnicodeRange.take (t.drop 1)).2
  | arrow {r : Text} (h : c :: t = '-' :: '-' :: '>' :: r) :
      Reading c t [delimiter ['-', '-', '>']] r
  | ident (h : Name.startsIdentifier (c :: t) = true) :
      Reading c t [.leaf (.ident (Name.take (c :: t)).1)] (Name.take (c :: t)).2
  | call {r : Text} (h : Name.startsIdentifier (c :: t) = true)
      (hr : (Name.take (c :: t)).2 = '(' :: r) : Reading c t [.call (Name.take (c :: t)).1] r
  | url {r : Text} (hr : (Name.take (c :: t)).2 = '(' :: r) :
      Reading c t (ofUrl (UrlText.take r).1) (UrlText.take r).2
  | dimension {n r : Text} (h : Number.take? (c :: t) = some (n, r)) :
      Reading c t [.leaf (.dimension n (Name.take r).1)] (Name.take r).2
  | percentage {n r : Text} (h : Number.take? (c :: t) = some (n, '%' :: r)) :
      Reading c t [.leaf (.percentage n)] r
  | number {n r : Text} (h : Number.take? (c :: t) = some (n, r)) :
      Reading c t [.leaf (.number n)] r
  | atKeyword (h : c = '@') : Reading c t [.leaf (.atKeyword (Name.take t).1)] (Name.take t).2
  | hash (h : c = '#') :
      Reading c t [.leaf (.hash (Name.take t).1 (Name.startsIdentifier t))] (Name.take t).2
  | mark (h : c = '@' ∨ c = '#') : Reading c t [delimiter [c]] t
  | opened (b : Bracket) (h : c = b.opening) : Reading c t [.opened b] t
  | closed (b : Bracket) (h : c = b.closing) : Reading c t [.closed b] t
  | string (h : c = '"' ∨ c = '\'') :
      Reading c t (ofString (Quotation.take c t).1) (Quotation.take c t).2
  | comment {r : Text} (hc : c = '/') (ht : t = '*' :: r) :
      Reading c t [.leaf (.comment (CommentText.take r).1)] (CommentText.take r).2
  | symbol (hb : Text.isCssBlank c = false) (hs : Name.startsIdentifier (c :: t) = false)
      (hn : Number.take? (c :: t) = none) :
      Reading c t (readDelimiter c t).1 (readDelimiter c t).2

variable {c : Char} {t : Text}

/-- What begins like a name is read as a name, a call or a URL. -/
theorem reading_readName (h : Name.startsIdentifier (c :: t) = true) :
    Reading c t (readName (c :: t)).1 (readName (c :: t)).2 := by
  unfold readName
  dsimp only
  split
  · rename_i r hr
    split
    · exact .url hr
    · exact .call h hr
  · exact .ident h

/-- What begins like a number is read as a number, a percentage or a dimension. -/
theorem reading_readNumber {n r : Text} (h : Number.take? (c :: t) = some (n, r)) :
    Reading c t (readNumber n r).1 (readNumber n r).2 := by
  unfold readNumber
  split
  · exact .dimension h
  · split
    · exact .percentage h
    · exact .number h

/-- Everything else is read by its first character. -/
theorem reading_readSymbol (hb : Text.isCssBlank c = false)
    (hs : Name.startsIdentifier (c :: t) = false) (hn : Number.take? (c :: t) = none) :
    Reading c t (readSymbol c t).1 (readSymbol c t).2 := by
  -- The cases are those of the reader, in its order.
  unfold readSymbol
  split
  · unfold readAt
    split
    · exact .atKeyword rfl
    · exact .mark (Or.inl rfl)
  · unfold readHash
    split
    · exact .hash rfl
    · exact .mark (Or.inr rfl)
  · exact .opened .brace rfl
  · exact .opened .square rfl
  · exact .opened .round rfl
  · exact .closed .brace rfl
  · exact .closed .square rfl
  · exact .closed .round rfl
  · exact .string (Or.inl rfl)
  · exact .string (Or.inr rfl)
  · split
    · exact .comment rfl rfl
    · exact .symbol hb hs hn
  · exact .symbol hb hs hn

/-- **A text is read in one of these ways.** -/
theorem reading_read (c : Char) (t : Text) : Reading c t (read c t).1 (read c t).2 := by
  unfold read
  split
  · rename_i hb
    exact .blanks hb
  · rename_i hb
    split
    · rename_i hu
      exact .range hu.1 hu.2
    · split
      · rename_i r hr
        exact .arrow (Text.dropFront?_eq_some_iff.mp hr)
      · split
        · rename_i hs
          exact reading_readName hs
        · rename_i hs
          split
          · rename_i n r hn
            exact reading_readNumber hn
          · rename_i hn
            exact reading_readSymbol (by simpa using hb) (by simpa using hs) hn

/-- A URL is read, or a fault is. -/
theorem mem_ofUrl {e : Enclosed} {l : Lexeme} (h : l ∈ ofUrl e) :
    (∃ v isClosed, l = .leaf (.url v isClosed)) ∨ ∃ f, l = .leaf (.fault f) := by
  cases e with
  | closed v => exact Or.inl ⟨v, true, List.mem_singleton.mp h⟩
  | unclosed v =>
    rcases List.mem_cons.mp h with h | h
    · exact Or.inl ⟨v, false, h⟩
    · exact Or.inr ⟨_, List.mem_singleton.mp h⟩
  | broken => exact Or.inr ⟨_, List.mem_singleton.mp h⟩

/-- A string is read, or a fault is. -/
theorem mem_ofString {e : Enclosed} {l : Lexeme} (h : l ∈ ofString e) :
    (∃ v isClosed, l = .leaf (.string v isClosed)) ∨ ∃ f, l = .leaf (.fault f) := by
  cases e with
  | closed v => exact Or.inl ⟨v, true, List.mem_singleton.mp h⟩
  | unclosed v =>
    rcases List.mem_cons.mp h with h | h
    · exact Or.inl ⟨v, false, h⟩
    · exact Or.inr ⟨_, List.mem_singleton.mp h⟩
  | broken => exact Or.inr ⟨_, List.mem_singleton.mp h⟩

/-- Without faults the URL or string is closed. -/
theorem eq_of_ofUrl {e : Enclosed} (h : ∀ l ∈ ofUrl e, l.isFault = false) : ∃ v, e = .closed v := by
  cases e with
  | closed v => exact ⟨v, rfl⟩
  | unclosed v => exact absurd (h (.leaf (.fault .endInUrl)) (by simp [ofUrl])) (by decide)
  | broken => exact absurd (h (.leaf (.fault .badUrl)) (by simp [ofUrl])) (by decide)

/-- A string that is read without a fault is closed. -/
theorem eq_of_ofString {e : Enclosed} (h : ∀ l ∈ ofString e, l.isFault = false) :
    ∃ v, e = .closed v := by
  cases e with
  | closed v => exact ⟨v, rfl⟩
  | unclosed v => exact absurd (h (.leaf (.fault .endInString)) (by simp [ofString])) (by decide)
  | broken => exact absurd (h (.leaf (.fault .badString)) (by simp [ofString])) (by decide)

end Lexeme

/-! ## What is left

  What a reader leaves is the end of its text. This gives the recursions over a text their measure, and says
  that a character behind a lexeme was a character of the text.
-/

open List

namespace Name

/-- What is taken and what is left make the text. -/
theorem takeAtMost_fst_append (p : Char → Bool) (n : Nat) (t : Text) :
    (takeAtMost p n t).1 ++ (takeAtMost p n t).2 = t := by
  induction n generalizing t with
  | zero => rfl
  | succ n ih =>
    cases t with
    | nil => rfl
    | cons c t => cases hc : p c <;> simp [takeAtMost, hc, ih]

/-- The reader of escapes leaves an end of the text that it was given, as every reader does. -/
theorem takeEscape_suffix (t : Text) : (takeEscape t).2 <:+ t := by
  have hblank : ∀ u : Text, dropOneBlank u <:+ u := by
    intro u
    cases u with
    | nil => exact suffix_refl _
    | cons c u => cases hc : Text.isCssBlank c <;> simp [dropOneBlank, hc]
  unfold takeEscape
  split
  · exact suffix_refl _
  · rename_i c t
    split
    · exact (hblank _).trans ⟨_, takeAtMost_fst_append isHexDigit 6 (c :: t)⟩
    · exact suffix_cons c t

theorem take_suffix (t : Text) : (take t).2 <:+ t := by
  fun_induction take t with
  | case1 => exact suffix_refl _
  | case2 c t _ _ ih => exact ih.trans (suffix_cons c t)
  | case3 c t _ _ _ _ ih => exact ih.trans ((takeEscape_suffix t).trans (suffix_cons c t))
  | case4 => exact suffix_refl _

end Name

/-- A string ends within the text, or at its end. -/
theorem Quotation.take_suffix (q : Char) (t : Text) : (take q t).2 <:+ t := by
  have hescape : ∀ u, (takeEscape u).2 <:+ u := by
    intro u
    cases u with
    | nil => exact suffix_refl _
    | cons c u =>
      unfold takeEscape
      dsimp only
      split
      · exact suffix_cons c u
      · exact Name.takeEscape_suffix _
  fun_induction take q t with
  | case1 => exact suffix_refl _
  | case2 t => exact suffix_cons q t
  | case3 => exact suffix_refl _
  | case4 t _ _ _ _ ih => exact ih.trans ((hescape t).trans (suffix_cons _ t))
  | case5 c t _ _ _ _ ih => exact ih.trans (suffix_cons c t)

namespace UrlText

/-- What is dropped of a broken URL is a front of it. -/
theorem dropBroken_suffix (t : Text) : dropBroken t <:+ t := by
  fun_induction dropBroken t with
  | case1 => exact suffix_refl _
  | case2 t ih => exact ih.trans ((suffix_cons _ t).trans (suffix_cons _ _))
  | case3 t => exact suffix_cons _ t
  | case4 c t _ _ ih => exact ih.trans (suffix_cons c t)

/-- Behind the last blanks of a URL an end of the text is left. -/
theorem takeEnd_suffix (t : Text) : (takeEnd t).2 <:+ t := by
  have h := dropWhile_suffix Text.isCssBlank (l := t)
  unfold takeEnd
  split
  · exact nil_suffix
  · rename_i r hr
    exact (suffix_cons _ r).trans (hr ▸ h)
  · exact (dropBroken_suffix _).trans h

/-- A URL without quotes leaves an end of the text. -/
theorem takeRest_suffix (t : Text) : (takeRest t).2 <:+ t := by
  fun_induction takeRest t with
  | case1 => exact suffix_refl _
  | case2 t => exact suffix_cons _ t
  | case3 c t _ _ _ _ ih => exact ih.trans ((Name.takeEscape_suffix t).trans (suffix_cons c t))
  | case4 c t => exact (takeEnd_suffix t).trans (suffix_cons c t)
  | case5 c t => exact (dropBroken_suffix t).trans (suffix_cons c t)
  | case6 c t _ _ _ _ _ ih => exact ih.trans (suffix_cons c t)

theorem take_suffix (t : Text) : (take t).2 <:+ t :=
  (takeRest_suffix _).trans (dropWhile_suffix _)

end UrlText

/-- What is behind a comment is the end of the text. -/
theorem CommentText.take_suffix (t : Text) : (take t).2 <:+ t := by
  fun_induction take t with
  | case1 => exact suffix_refl _
  | case2 t => exact (suffix_cons _ t).trans (suffix_cons _ _)
  | case3 c t _ _ ih => exact ih.trans (suffix_cons c t)

/-- A range of code points is read off the text. -/
theorem UnicodeRange.exists_append_take (t : Text) : ∃ w, t = w ++ (take t).2 ∧ '\\' ∉ w := by
  have hmost : ∀ (p : Char → Bool) n (u : Text), p '\\' = false →
      u = (Name.takeAtMost p n u).1 ++ (Name.takeAtMost p n u).2 ∧
        '\\' ∉ (Name.takeAtMost p n u).1 := by
    intro p n u hp
    refine ⟨(Name.takeAtMost_fst_append p n u).symm, fun h => ?_⟩
    have := (takeAtMost_fst (p := p) n u).2 _ h
    rw [hp] at this
    exact Bool.noConfusion this
  obtain ⟨hdigits, hfirst⟩ := hmost Name.isHexDigit 6 t rfl
  -- A second bound, none, or wildcards: in each case only digits, a hyphen and wildcards are taken.
  unfold take
  dsimp only
  split
  · split
    · rename_i c r hr
      split
      · obtain ⟨hlast, hsecond⟩ := hmost Name.isHexDigit 6 (c :: r) rfl
        refine ⟨(Name.takeAtMost Name.isHexDigit 6 t).1 ++
          '-' :: (Name.takeAtMost Name.isHexDigit 6 (c :: r)).1, ?_, ?_⟩
        · rw [append_assoc, cons_append, ← hlast, ← hr, ← hdigits]
        · simp only [mem_append, mem_cons, not_or]
          exact ⟨hfirst, by decide, hsecond⟩
      · exact ⟨_, hdigits, hfirst⟩
    · exact ⟨_, hdigits, hfirst⟩
  · obtain ⟨hwild, hmarks⟩ := hmost isWildcard
      (6 - (Name.takeAtMost Name.isHexDigit 6 t).1.length) (Name.takeAtMost Name.isHexDigit 6 t).2 rfl
    refine ⟨_, (hdigits.trans (congrArg _ hwild)).trans (append_assoc ..).symm, fun h => ?_⟩
    exact (mem_append.mp h).elim hfirst hmarks

/-- **What is left of a text is the end of it.** -/
theorem Lexeme.Reading.suffix {c : Char} {t r : Text} {ls : List Lexeme} (h : Reading c t ls r) :
    r <:+ c :: t := by
  have hcons : ∀ {u : Text}, u <:+ t → u <:+ c :: t := fun hu => hu.trans (suffix_cons c t)
  have hnumber : ∀ {n u : Text}, Number.take? (c :: t) = some (n, u) → u <:+ c :: t := fun hn =>
    ⟨_, (Number.take?_append hn).1⟩
  have hparen : ∀ {u : Text}, (Name.take (c :: t)).2 = '(' :: u → u <:+ c :: t := fun {u} hu =>
    (suffix_cons '(' u).trans (hu ▸ Name.take_suffix (c :: t))
  -- Every reading takes a front of the text.
  cases h with
  | blanks h => exact hcons ⟨_, takeBlanks_fst_append t⟩
  | range hc ht =>
    obtain ⟨w, hw, -⟩ := UnicodeRange.exists_append_take (t.drop 1)
    exact hcons ((show _ <:+ t.drop 1 from ⟨w, hw.symm⟩).trans (drop_suffix 1 t))
  | arrow h => exact ⟨['-', '-', '>'], h.symm⟩
  | ident h => exact Name.take_suffix _
  | call h hr => exact hparen hr
  | url hr => exact (UrlText.take_suffix _).trans (hparen hr)
  | dimension h => exact (Name.take_suffix _).trans (hnumber h)
  | percentage h => exact (suffix_cons '%' _).trans (hnumber h)
  | number h => exact hnumber h
  | atKeyword h => exact hcons (Name.take_suffix t)
  | hash h => exact hcons (Name.take_suffix t)
  | mark h => exact hcons (suffix_refl t)
  | opened b h => exact hcons (suffix_refl t)
  | closed b h => exact hcons (suffix_refl t)
  | string h => exact hcons (Quotation.take_suffix c t)
  | comment hc ht => exact hcons (ht ▸ (CommentText.take_suffix _).trans (suffix_cons '*' _))
  | symbol hb hs hn =>
    obtain ⟨text, -, happend⟩ := readDelimiter_append c t
    exact ⟨text, happend⟩

end CssShorthand
