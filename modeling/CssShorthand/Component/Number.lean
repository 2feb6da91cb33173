/-
  HOW NUMBERS AND UNICODE RANGES ARE READ.

  A number is an optional sign, digits with at most one point that has a digit after it, and an
  exponent if `e` is followed by digits.  A range of code points is `U+`, then up to six hexadecimal
  digits and question marks, or two such groups of digits with `-` between.
-/
import CssShorthand.Component.Name

namespace CssShorthand

namespace Number

/-- The leading digits and the rest. -/
def takeDigits : Text → Text × Text
  | [] => ([], [])
  | c :: t =>
    if c.isDigit then
      let more := takeDigits t
      (c :: more.1, more.2)
    else ([], c :: t)

/-- Reads a sign, if there is one. -/
def takeSign : Text → Text × Text
  | '+' :: t => (['+'], t)
  | '-' :: t => (['-'], t)
  | t => ([], t)

/-- Reads the digits of a number with the point among them. -/
def takeDecimal? (t : Text) : Option (Text × Text) :=
  let whole := takeDigits t
  match whole.2 with
  | '.' :: r =>
    let fraction := takeDigits r
    if fraction.1.isEmpty then (if whole.1.isEmpty then none else some whole)
    else some (whole.1 ++ '.' :: fraction.1, fraction.2)
  | _ => if whole.1.isEmpty then none else some whole

/-- Reads an exponent, if there is one. -/
def takeExponent : Text → Text × Text
  | [] => ([], [])
  | c :: t =>
    if c = 'e' ∨ c = 'E' then
      let sign := takeSign t
      let digits := takeDigits sign.2
      if digits.1.isEmpty then ([], c :: t) else (c :: sign.1 ++ digits.1, digits.2)
    else ([], c :: t)

/-- Reads a number, if one starts here. -/
def take? (t : Text) : Option (Text × Text) :=
  let sign := takeSign t
  match takeDecimal? sign.2 with
  | none => none
  | some (decimal, r) =>
    let exponent := takeExponent r
    some (sign.1 ++ decimal ++ exponent.1, exponent.2)

/-! ## Nothing is lost -/

/-- Digits are a front of the text. -/
theorem takeDigits_append (t : Text) : (takeDigits t).1 ++ (takeDigits t).2 = t := by
  induction t with
  | nil => rfl
  | cons c t ih => by_cases h : c.isDigit <;> simp [takeDigits, h, ih]

/-- A sign is a front of the text. -/
theorem takeSign_append (t : Text) : (takeSign t).1 ++ (takeSign t).2 = t := by
  unfold takeSign
  split <;> rfl

/-- Digits with or without a point are a front of the text, and not an empty one. The cases are those of the
    reading: digits before the point, behind it, or both. -/
theorem takeDecimal?_append {t d r : Text} (h : takeDecimal? t = some (d, r)) :
    d ++ r = t ∧ d ≠ [] := by
  have whole := takeDigits_append t
  unfold takeDecimal? at h
  dsimp only at h
  split at h
  · rename_i s hs
    have fraction := takeDigits_append s
    split at h
    · split at h
      · simp at h
      · rename_i hne
        simp only [Option.some.injEq] at h
        rw [h] at whole hne
        exact ⟨whole, by simpa using hne⟩
    · simp only [Option.some.injEq, Prod.mk.injEq] at h
      obtain ⟨rfl, rfl⟩ := h
      refine ⟨?_, by simp⟩
      rw [List.append_assoc, List.cons_append, fraction, ← hs, whole]
  · split at h
    · simp at h
    · rename_i hne
      simp only [Option.some.injEq] at h
      rw [h] at whole hne
      exact ⟨whole, by simpa using hne⟩

/-- An exponent is a front of the text, and empty if its digits are missing. -/
theorem takeExponent_append (t : Text) : (takeExponent t).1 ++ (takeExponent t).2 = t := by
  unfold takeExponent
  split
  · rfl
  · rename_i c t
    split
    · dsimp only
      split
      · rfl
      · have sign := takeSign_append t
        have digits := takeDigits_append (takeSign t).2
        simp only [List.cons_append, List.append_assoc, digits, sign]
    · rfl

/-- The text of a number and the rest make up the text, and a number has a text. -/
theorem take?_append {t n r : Text} (h : take? t = some (n, r)) : n ++ r = t ∧ n ≠ [] := by
  unfold take? at h
  dsimp only at h
  split at h
  · simp at h
  · rename_i d s hd
    have ⟨decimal, hne⟩ := takeDecimal?_append hd
    simp only [Option.some.injEq, Prod.mk.injEq] at h
    obtain ⟨rfl, rfl⟩ := h
    refine ⟨?_, by simp [hne]⟩
    rw [List.append_assoc, takeExponent_append, List.append_assoc, decimal, takeSign_append]

/-- A number takes at least one digit, so the scan goes on with a shorter text. -/
theorem take?_length_lt {t n r : Text} (h : take? t = some (n, r)) : r.length < t.length := by
  have ⟨h₁, h₂⟩ := take?_append h
  have := congrArg List.length h₁
  have := List.length_pos_iff.mpr h₂
  simp only [List.length_append] at *
  omega

end Number

namespace UnicodeRange

/-- A question mark, which stands for any hexadecimal digit. -/
def isWildcard (c : Char) : Bool := c == '?'

/-- Whether a range of code points starts after `U`. -/
def starts : Text → Bool
  | '+' :: c :: _ => Name.isHexDigit c || isWildcard c
  | _ => false

/-- Reads the two ends of a range, of which `U+` is already read. -/
def take (t : Text) : (Nat × Nat) × Text :=
  let digits := Name.takeAtMost Name.isHexDigit 6 t
  let wild := Name.takeAtMost isWildcard (6 - digits.1.length) digits.2
  let first := Name.ofHexDigits digits.1
  let width := Nat.pow 16 wild.1.length
  if wild.1.isEmpty then
    match digits.2 with
    | '-' :: c :: r =>
      if Name.isHexDigit c then
        let last := Name.takeAtMost Name.isHexDigit 6 (c :: r)
        ((first, Name.ofHexDigits last.1), last.2)
      else ((first, first), digits.2)
    | _ => ((first, first), digits.2)
  else ((first * width, first * width + (width - 1)), wild.2)

/-- The rest behind a range is not longer than the text. -/
theorem take_length_le (t : Text) : (take t).2.length ≤ t.length := by
  have digits := Name.takeAtMost_length Name.isHexDigit 6 t
  unfold take
  dsimp only
  split
  · split
    · rename_i c r hr
      split
      · have last := Name.takeAtMost_length Name.isHexDigit 6 (c :: r)
        have := congrArg List.length hr
        simp only [List.length_cons] at *
        omega
      · simp only
        omega
    · simp only
      omega
  · have wild := Name.takeAtMost_length isWildcard
      (6 - (Name.takeAtMost Name.isHexDigit 6 t).1.length) (Name.takeAtMost Name.isHexDigit 6 t).2
    simp only
    omega

end UnicodeRange

end CssShorthand
