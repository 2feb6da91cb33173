/-
  A NUMBER THAT WAS READ IS READ AGAIN.

  A number is read as far as it goes, so what stood behind it matters only where it could go on: with a
  digit, a point or an exponent (`Number.Ended`).  Any other text can take its place
  (`Number.take?_again`), the letters of a unit among them, and so can nothing at all.  Where a number
  starts no other lexeme does (`Lexeme.read_of_take?`).

  Numbers are read greedily, in three parts, and what is read of each depends on the character behind it.
  Written numbers come back with something else behind: a unit, a blank or the end. `Number.Ended` collects
  the three things that must not follow, and is computed for the units that occur.
-/
import CssShorthand.Proofs.Component.Content

namespace CssShorthand

open List

variable {d n r t u x : Text} {c : Char}

namespace Number

/-! ## The parts of a number

  Each part is read again when the character behind it would not have been taken.
-/

/-- What is taken as digits is digits. -/
theorem isDigit_of_mem_takeDigits (t : Text) : ∀ c ∈ (takeDigits t).1, c.isDigit = true := by
  induction t with
  | nil => exact nofun
  | cons c t ih =>
    cases hc : c.isDigit with
    | false => simp [takeDigits, hc]
    | true => simpa [takeDigits, hc] using ih

/-- Digits are read up to the first other character. -/
theorem takeDigits_eq (hd : ∀ c ∈ d, c.isDigit = true) (hu : ∀ c ∈ u.head?, c.isDigit = false) :
    takeDigits (d ++ u) = (d, u) := by
  induction d with
  | nil =>
    cases u with
    | nil => rfl
    | cons c u => simp [takeDigits, hu c rfl]
  | cons c d ih =>
    obtain ⟨hc, hd⟩ := forall_mem_cons.mp hd
    simp [takeDigits, hc, ih hd]

/-- The digits begin with a digit or a point. -/
theorem exists_head_of_takeDecimal? (h : takeDecimal? t = some (d, r)) :
    ∃ c u, d = c :: u ∧ (c.isDigit = true ∨ c = '.') := by
  have hdigits := isDigit_of_mem_takeDigits t
  have hwhole : (takeDigits t).1 ≠ [] → ∀ x, ∃ c u, (takeDigits t).1 ++ x = c :: u ∧
      (c.isDigit = true ∨ c = '.') := by
    intro hne x
    obtain ⟨c, u, hcu⟩ := exists_cons_of_ne_nil hne
    exact ⟨c, u ++ x, by rw [hcu]; rfl, Or.inl (hdigits c (by rw [hcu]; exact mem_cons_self))⟩
  have hnone : takeDigits t = (d, r) → (takeDigits t).1.isEmpty = false →
      ∃ c u, d = c :: u ∧ (c.isDigit = true ∨ c = '.') := by
    intro heq hne
    obtain ⟨c, u, hcu, hc⟩ := hwhole (isEmpty_eq_false_iff.mp hne) []
    rw [append_nil, heq] at hcu
    exact ⟨c, u, hcu, hc⟩
  -- Digits with a point and more digits, digits with a point that is left, or digits alone.
  unfold takeDecimal? at h
  dsimp only at h
  split at h
  · split at h
    · split at h
      · contradiction
      · rename_i hne
        exact hnone (Option.some.inj h) (by simpa using hne)
    · obtain ⟨rfl, -⟩ := Prod.mk.inj (Option.some.inj h)
      by_cases hne : (takeDigits t).1 = []
      · exact ⟨'.', _, by rw [hne]; rfl, Or.inr rfl⟩
      · exact hwhole hne _
  · split at h
    · contradiction
    · rename_i hne
      exact hnone (Option.some.inj h) (by simpa using hne)

/-- The digits are read again before what is no digit and no point. -/
theorem takeDecimal?_again (h : takeDecimal? t = some (d, r)) (hu : ∀ c ∈ u.head?, c.isDigit = false)
    (hpoint : u.head? ≠ some '.') : takeDecimal? (d ++ u) = some (d, u) := by
  have hwhole := isDigit_of_mem_takeDigits t
  have hdigits : takeDigits t = (d, r) → (takeDigits t).1.isEmpty = false →
      takeDecimal? (d ++ u) = some (d, u) := by
    intro heq hne
    rw [heq] at hwhole hne
    unfold takeDecimal?
    rw [takeDigits_eq hwhole hu]
    dsimp only
    split
    · exact absurd rfl hpoint
    · rw [if_neg (by simpa using hne)]
  unfold takeDecimal? at h
  dsimp only at h
  split at h
  · rename_i w hw
    split at h
    · split at h
      · contradiction
      · rename_i hne
        exact hdigits (Option.some.inj h) (by simpa using hne)
    · rename_i hfraction
      obtain ⟨rfl, -⟩ := Prod.mk.inj (Option.some.inj h)
      -- The digits before the point stop at it, and those behind it at what follows, as they did in the first
      -- text.
      have hfront : takeDigits ((takeDigits t).1 ++ '.' :: (takeDigits w).1 ++ u) =
          ((takeDigits t).1, '.' :: ((takeDigits w).1 ++ u)) := by
        rw [append_assoc]
        exact takeDigits_eq hwhole (by simp)
      have hagain := takeDigits_eq (isDigit_of_mem_takeDigits w) hu
      unfold takeDecimal?
      rw [hfront]
      simp [hagain, hfraction]
  · split at h
    · contradiction
    · rename_i hne
      exact hdigits (Option.some.inj h) (by simpa using hne)

/-- A sign is read again before what is no sign. -/
theorem takeSign_again (hu : ∀ c ∈ u.head?, c ≠ '+' ∧ c ≠ '-') :
    takeSign ((takeSign t).1 ++ u) = ((takeSign t).1, u) := by
  have hnone : takeSign u = ([], u) := by
    unfold takeSign
    split
    · exact absurd rfl (hu '+' rfl).1
    · exact absurd rfl (hu '-' rfl).2
    · rfl
  have hcases : (takeSign t).1 = ['+'] ∨ (takeSign t).1 = ['-'] ∨ (takeSign t).1 = [] := by
    unfold takeSign
    split <;> simp
  rcases hcases with h | h | h
  · rw [h]
    rfl
  · rw [h]
    rfl
  · rw [h]
    exact hnone

theorem not_isSign (h : c.isDigit = true ∨ c = '.') : c ≠ '+' ∧ c ≠ '-' := by
  constructor <;> rintro rfl <;> exact absurd h (by decide)

/-- An exponent is read again before what is no digit. -/
theorem takeExponent_again (h : takeExponent t = (x, r)) (hx : x ≠ [])
    (hu : ∀ c ∈ u.head?, c.isDigit = false) :
    takeExponent (x ++ u) = (x, u) ∧ ∃ c y, x = c :: y ∧ (c = 'e' ∨ c = 'E') := by
  unfold takeExponent at h
  split at h
  · exact absurd (Prod.mk.inj h).1.symm hx
  · rename_i c t
    split at h
    · rename_i hc
      dsimp only at h
      split at h
      · exact absurd (Prod.mk.inj h).1.symm hx
      · rename_i hdigits
        obtain ⟨rfl, -⟩ := Prod.mk.inj h
        have hall := isDigit_of_mem_takeDigits (takeSign t).2
        -- Behind the sign there is a digit, so no second sign is taken.
        have hsign : takeSign ((takeSign t).1 ++ ((takeDigits (takeSign t).2).1 ++ u)) =
            ((takeSign t).1, (takeDigits (takeSign t).2).1 ++ u) := by
          refine takeSign_again fun d hd => not_isSign (Or.inl ?_)
          obtain ⟨e, w, hew⟩ := exists_cons_of_ne_nil (show (takeDigits (takeSign t).2).1 ≠ [] by
            simpa using hdigits)
          rw [hew] at hall hd
          obtain rfl := Option.some.inj hd
          exact hall e mem_cons_self
        refine ⟨?_, c, _, rfl, hc⟩
        rw [cons_append, cons_append, append_assoc, takeExponent, if_pos hc, hsign]
        dsimp only
        rw [takeDigits_eq hall hu, if_neg hdigits, cons_append]
    · exact absurd (Prod.mk.inj h).1.symm hx

/-! ## Numbers

  The parts in a row: a number read of one text is read of its own characters, followed by anything that
  ends it.
-/

/-- A number does not go on with this text. -/
structure Ended (u : Text) : Prop where
  digit : ∀ c ∈ u.head?, c.isDigit = false
  point : u.head? ≠ some '.'
  exponent : takeExponent u = ([], u)

theorem ended_nil : Ended [] := ⟨nofun, nofun, rfl⟩

/-- A letter is no digit. -/
theorem isDigit_of_isAlpha (h : c.isAlpha = true) : c.isDigit = false := by
  simp only [Char.isAlpha, Char.isUpper, Char.isLower, Char.isDigit, Bool.or_eq_true, Bool.and_eq_true,
    decide_eq_true_eq, Bool.and_eq_false_iff, decide_eq_false_iff_not, UInt32.le_iff_toNat_le] at h ⊢
  have h9 : '9'.val.toNat = 57 := rfl
  have hA : 'A'.val.toNat = 65 := rfl
  have ha : 'a'.val.toNat = 97 := rfl
  omega

/-- Letters do not go on with a number, not even after an `e`. -/
theorem ended_of_isAlpha (h : ∀ c ∈ u, c.isAlpha = true) : Ended u := by
  have hdigit : ∀ {w : Text}, (∀ c ∈ w, c.isAlpha = true) → ∀ c ∈ w.head?, c.isDigit = false :=
    fun hw c hc => isDigit_of_isAlpha (hw c (mem_of_mem_head? hc))
  refine ⟨hdigit h, fun hpoint => absurd (h _ (mem_of_mem_head? hpoint)) (by decide), ?_⟩
  cases u with
  | nil => rfl
  | cons c u =>
    have hu := (forall_mem_cons.mp h).2
    have hsign : takeSign u = ([], u) := takeSign_again (t := []) fun d hd => by
      constructor <;> rintro rfl <;> exact absurd (hu _ (mem_of_mem_head? hd)) (by decide)
    have hdigits : takeDigits u = ([], u) := takeDigits_eq (d := []) nofun (hdigit hu)
    simp [takeExponent, hsign, hdigits]

/-- **A number is read again** before any text that it does not go on with. -/
theorem take?_again (h : take? t = some (n, r)) (hu : Ended u) : take? (n ++ u) = some (n, u) := by
  unfold take? at h
  dsimp only at h
  split at h
  · contradiction
  · rename_i d w hd
    obtain ⟨rfl, -⟩ := Prod.mk.inj (Option.some.inj h)
    -- What stands behind the digits: the exponent, or else `u`.
    have hback : takeExponent ((takeExponent w).1 ++ u) = ((takeExponent w).1, u) ∧
        (∀ c ∈ ((takeExponent w).1 ++ u).head?, c.isDigit = false) ∧
        ((takeExponent w).1 ++ u).head? ≠ some '.' := by
      by_cases hx : (takeExponent w).1 = []
      · rw [hx]
        exact ⟨hu.exponent, hu.digit, hu.point⟩
      · obtain ⟨hagain, c, y, hcy, hc⟩ := takeExponent_again (Prod.mk.eta (p := takeExponent w)).symm hx hu.digit
        refine ⟨hagain, ?_⟩
        rw [hcy]
        rcases hc with rfl | rfl <;> exact ⟨by simp, by simp⟩
    obtain ⟨hexponent, hdigit, hpoint⟩ := hback
    obtain ⟨c, y, hcy, hc⟩ := exists_head_of_takeDecimal? hd
    have hsign := takeSign_again (t := t) (u := d ++ ((takeExponent w).1 ++ u)) fun e he => by
      rw [hcy] at he
      obtain rfl := Option.some.inj he
      exact not_isSign hc
    have hdecimal := takeDecimal?_again hd hdigit hpoint
    rw [append_assoc, append_assoc, take?, hsign]
    dsimp only
    rw [hdecimal]
    dsimp only
    rw [hexponent, append_assoc]

/-! ## Where a number is read

  The first character of a number is a digit, a sign or a point, with which neither a name nor an arrow nor
  a range begins.
-/

/-- **A number begins with a digit or a point**, or with a sign before one of them. -/
theorem exists_head_of_take? (h : take? (c :: t) = some (n, r)) : (c.isDigit = true ∨ c = '.') ∨
    (c = '+' ∨ c = '-') ∧ ∃ d u, t = d :: u ∧ (d.isDigit = true ∨ d = '.') := by
  unfold take? at h
  dsimp only at h
  split at h
  · contradiction
  · rename_i e w hdecimal
    obtain ⟨d, y, rfl, hd⟩ := exists_head_of_takeDecimal? hdecimal
    have happend := (takeDecimal?_append hdecimal).1
    unfold takeSign at happend
    split at happend
    · rename_i heq
      obtain ⟨rfl, rfl⟩ := cons.inj heq
      exact Or.inr ⟨Or.inl rfl, d, y ++ w, happend.symm, hd⟩
    · rename_i heq
      obtain ⟨rfl, rfl⟩ := cons.inj heq
      exact Or.inr ⟨Or.inr rfl, d, y ++ w, happend.symm, hd⟩
    · obtain ⟨rfl, -⟩ := cons.inj happend
      exact Or.inl hd

/-- No name begins with a digit. -/
theorem isStart_of_isDigit (h : c.isDigit = true) : Name.isStart c = false := by
  by_contra hstart
  simp only [Name.isStart, Bool.not_eq_false, Bool.or_eq_true, beq_iff_eq, decide_eq_true_eq] at hstart
  rcases hstart with (halpha | rfl) | hlarge
  · rw [isDigit_of_isAlpha halpha] at h
    contradiction
  · exact absurd h (by decide)
  · simp only [Char.isDigit, Bool.and_eq_true, decide_eq_true_eq, UInt32.le_iff_toNat_le] at h
    have h9 : '9'.val.toNat = 57 := rfl
    simp only [Char.toNat] at hlarge
    omega

/-- What a number begins with, or has behind its sign, begins no identifier. -/
theorem not_startsName (h : c.isDigit = true ∨ c = '.') : c ≠ '-' ∧ c ≠ '\\' ∧ Name.isStart c = false := by
  refine ⟨(not_isSign h).2, ?_, ?_⟩
  · rintro rfl
    exact absurd h (by decide)
  · rcases h with h | rfl
    · exact isStart_of_isDigit h
    · rfl

/-- Where a number starts no identifier does. -/
theorem startsIdentifier_of_take? (h : take? (c :: t) = some (n, r)) :
    Name.startsIdentifier (c :: t) = false := by
  rcases exists_head_of_take? h with hc | ⟨rfl | rfl, d, y, rfl, hd⟩
  · obtain ⟨hdash, hback, hstart⟩ := not_startsName hc
    unfold Name.startsIdentifier
    split
    · rename_i heq
      exact absurd (cons.inj heq).1 hdash
    · rename_i heq
      exact absurd (cons.inj heq).1 hdash
    · rename_i heq
      exact absurd (cons.inj heq).1 hback
    · rename_i heq
      rwa [← (cons.inj heq).1]
    · rfl
  · rfl
  · obtain ⟨hdash, hback, hstart⟩ := not_startsName hd
    simp [Name.startsIdentifier, hstart, hdash]

end Number

namespace Lexeme

/-- **Where a number starts it is read**, and nothing else. -/
theorem read_of_take? (h : Number.take? (c :: t) = some (n, u)) : read c t = readNumber n u := by
  have hchar : Number.isNumeralChar c = true := by
    obtain ⟨happend, hne⟩ := Number.take?_append h
    obtain ⟨d, y, rfl⟩ := exists_cons_of_ne_nil hne
    obtain ⟨rfl, -⟩ := cons.inj happend
    exact Number.isNumeralChar_of_take h mem_cons_self
  have hblank : Text.isCssBlank c = false := by
    by_contra hblank
    simp only [Text.isCssBlank, Bool.not_eq_false, Bool.or_eq_true, beq_iff_eq] at hblank
    rcases hblank with (rfl | rfl) | rfl <;> exact absurd hchar (by decide)
  have hrange : ¬((c = 'u' ∨ c = 'U') ∧ UnicodeRange.starts t = true) := by
    rintro ⟨rfl | rfl, -⟩ <;> exact absurd hchar (by decide)
  have harrow : Text.dropFront? ['-', '-', '>'] (c :: t) = none := by
    by_contra hsome
    obtain ⟨w, hw⟩ := Option.ne_none_iff_exists'.mp hsome
    obtain ⟨rfl, rfl⟩ := cons.inj (Text.dropFront?_eq_some_iff.mp hw)
    rcases Number.exists_head_of_take? h with hc | ⟨-, d, y, hdy, hd⟩
    · exact absurd hc (by decide)
    · exact (Number.not_isSign hd).2 (cons.inj hdy).1.symm
  have hother : BeginsOther c t := ⟨by simp [hblank], hrange, harrow⟩
  exact hother.read_of_number (Number.startsIdentifier_of_take? h) h

end Lexeme

end CssShorthand
