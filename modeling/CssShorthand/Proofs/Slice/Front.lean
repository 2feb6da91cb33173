/-
  VALUES THAT STAND FOR NO KEYWORD.

  A value is a keyword for every property only if it begins with the name of one
  (`Component.lower_take_of_soleKeyword?`).  So a value that begins with another name, or with a letter
  that none of them begins with, is none, and neither are values of which it is the first (`Leads`).

  Why the front is enough: a keyword of every property is the only component of its value, and the first
  component of a text is read from its front. So a value that begins with `solid` or with a digit is no such
  keyword whatever comes behind, and none of these values needs to be parsed.
-/
import CssShorthand.Proofs.Cascade.Border
import CssShorthand.Proofs.Component.Sole

namespace CssShorthand

open List

/-- A plain character does not separate components. -/
theorem Text.isCssBlank_of_isPlain {c : Char} (h : isPlain c = true) : isCssBlank c = false := by
  by_contra hblank
  have hb := isBlank_of_isCssBlank (by simpa using hblank)
  rw [isBlank_of_isPlain h] at hb
  contradiction

/-- A keyword begins like the word that is the keyword in some case. -/
theorem Text.head?_of_lower_cons {c : Char} {t : Text} {k : String} (h : toString (lower (c :: t)) = k) :
    (ofString k).head?.map foldCase = some (foldCase c) := by
  have hfold : (ofString k).map foldCase = (c :: t).map foldCase := by
    rw [← h, ← map_foldCase_lower (c :: t)]
    simp [toString, ofString]
  rw [← head?_map, hfold]
  rfl

/-- A first character that no line end is made of stays. -/
theorem Lexeme.normalize_cons {c : Char} (h : Normal [c]) (t : Text) :
    normalize (c :: t) = c :: normalize t :=
  normalize_append h t

variable {c : Char} {r w : Text}

/-- **A value that begins with another name** is no keyword for every property. -/
theorem cssWideKeyword?_of_name (hne : w ≠ [])
    (hw : ∀ c ∈ w, Text.isPlain c = true ∧ Name.isChar c = true)
    (hr : r = [] ∨ ∃ e s, r = e :: s ∧ (e = ' ' ∨ e = '('))
    (hnot : Text.toString (Text.lower w) ∉ cssWideKeywords) : cssWideKeyword? (w ++ r) = none := by
  cases hk : cssWideKeyword? (w ++ r) with
  | none => rfl
  | some k =>
    exfalso
    obtain ⟨hsole, hmem⟩ := cssWideKeyword?_eq_some_iff.mp hk
    obtain ⟨c, w, rfl⟩ := exists_cons_of_ne_nil hne
    have hnormal : Lexeme.Normal (c :: w) := Lexeme.normal_of_plain fun d hd => (hw d hd).1
    -- The name ends where the blank or the bracket stands, so a keyword would have to be the name.
    have htake : (Name.take (c :: w ++ Lexeme.normalize r)).1 = c :: w := by
      rw [Name.take_append_of_isChar fun d hd => (hw d hd).2]
      suffices hrest : (Name.take (Lexeme.normalize r)).1 = [] by rw [hrest, append_nil]
      rcases hr with rfl | ⟨e, s, rfl, he⟩
      · simp [Lexeme.normalize, Text.unifyLineEnds, Name.take]
      · have hcons : Lexeme.normalize (e :: s) = e :: Lexeme.normalize s :=
          Lexeme.normalize_cons (by rcases he with rfl | rfl <;> decide) s
        have hstop : Lexeme.startsName (e :: Lexeme.normalize s) = false := by
          rcases he with rfl | rfl <;> rfl
        rw [hcons, Name.take_of_not_startsName hstop]
    have hplain := (hw c mem_cons_self).1
    have htext : Lexeme.normalize (c :: w ++ r) = c :: (w ++ Lexeme.normalize r) :=
      Lexeme.normalize_append hnormal r
    have hkeyword := Component.lower_take_of_soleKeyword? hsole htext
      (Text.isCssBlank_of_isPlain hplain) fun he => absurd (he ▸ hplain) (by decide)
    rw [← cons_append, htake] at hkeyword
    exact hnot (hkeyword ▸ hmem)

/-- **A value that begins with another letter** than the keywords is none of them. -/
theorem cssWideKeyword?_of_head
    (hfold : ∀ k ∈ cssWideKeywords, (Text.ofString k).head?.map Text.foldCase ≠ some (Text.foldCase c))
    (hnormal : Lexeme.Normal [c]) (hblank : Text.isCssBlank c = false) (hslash : c ≠ '/')
    (hback : c ≠ '\\') (r : Text) : cssWideKeyword? (c :: r) = none := by
  cases hk : cssWideKeyword? (c :: r) with
  | none => rfl
  | some k =>
    exfalso
    obtain ⟨hsole, hmem⟩ := cssWideKeyword?_eq_some_iff.mp hk
    have hkeyword := Component.lower_take_of_soleKeyword? hsole
      (Lexeme.normalize_cons hnormal r) hblank hslash
    cases hc : Name.isChar c with
    | true =>
      rw [Name.take_cons_of_isChar hc] at hkeyword
      exact hfold k hmem (Text.head?_of_lower_cons hkeyword)
    | false =>
      have hstop : Lexeme.startsName (c :: Lexeme.normalize r) = false := by
        simp [Lexeme.startsName, hc, hback]
      rw [Name.take_of_not_startsName hstop] at hkeyword
      exact absurd (hkeyword ▸ hmem) (by decide : Text.toString (Text.lower []) ∉ cssWideKeywords)

/-! ## The first of several values

  The same for a row: its first value begins it.
-/

/-- A value that is no keyword for every property, alone or before others. -/
structure Leads (v : Text) : Prop where
  own : Text.toString (Text.lower v) ∉ cssWideKeywords
  front : ∀ r, (r = [] ∨ ∃ s, r = ' ' :: s) → cssWideKeyword? (v ++ r) = none

namespace Leads

/-- A name of its own leads, and so does a call. -/
theorem of_name {n x : Text} (hne : n ≠ []) (hn : ∀ c ∈ n, Text.isPlain c = true ∧ Name.isChar c = true)
    (hx : x = [] ∨ ∃ y, x = '(' :: y) (hnot : Text.toString (Text.lower n) ∉ cssWideKeywords) :
    Leads (n ++ x) where
  own hmem := by
    rcases hx with rfl | ⟨y, rfl⟩
    · rw [append_nil] at hmem
      exact hnot hmem
    · have hletters : ∀ k ∈ cssWideKeywords, (Text.ofString k).all Char.isAlpha = true := by decide
      exact absurd (Text.isAlpha_of_lower rfl (hletters _ hmem) '(' (by simp)) (by decide)
  front r hr := by
    rw [append_assoc]
    refine cssWideKeyword?_of_name hne hn ?_ hnot
    rcases hx with rfl | ⟨y, rfl⟩
    · exact hr.imp_right fun ⟨s, hs⟩ => ⟨' ', s, hs, Or.inl rfl⟩
    · exact Or.inr ⟨'(', y ++ r, rfl, Or.inr rfl⟩

/-- What begins with another letter than the keywords leads. -/
theorem of_head {t : Text}
    (hfold : ∀ k ∈ cssWideKeywords, (Text.ofString k).head?.map Text.foldCase ≠ some (Text.foldCase c))
    (hnormal : Lexeme.Normal [c]) (hblank : Text.isCssBlank c = false) (hslash : c ≠ '/')
    (hback : c ≠ '\\') : Leads (c :: t) where
  own hmem := hfold _ hmem (Text.head?_of_lower_cons rfl)
  front r _ := cssWideKeyword?_of_head hfold hnormal hblank hslash hback (t ++ r)

end Leads

end CssShorthand
