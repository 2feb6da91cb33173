/-
  NAMES AND ESCAPES.

  The characters of identifiers, and how a name is read: name characters stand for themselves, and
  an escape (a backslash before anything but a newline) stands for the character it denotes.  Each
  reader returns what it read and the rest of the text; the lemmas say that the rest is no longer
  than the text, which is why scanning ends.
-/
import CssShorthand.Text.Blank

namespace CssShorthand

namespace Name

/-- The characters an identifier can begin with: ASCII letters, `_`, and all beyond ASCII. -/
def isStart (c : Char) : Bool := c.isAlpha || c == '_' || 0x7F < c.toNat

/-- The characters of names: those that can begin one, digits and `-`. -/
def isChar (c : Char) : Bool := isStart c || c.isDigit || c == '-'

/-- The hexadecimal digits. -/
def isHexDigit (c : Char) : Bool :=
  c.isDigit || ('a' ≤ c && c ≤ 'f') || ('A' ≤ c && c ≤ 'F')

/-- The value of a hexadecimal digit. -/
def hexValue (c : Char) : Nat :=
  if c.isDigit then c.toNat - 48 else if 'a' ≤ c then c.toNat - 87 else c.toNat - 55

/-- The number written by hexadecimal digits. -/
def ofHexDigits (digits : Text) : Nat := digits.foldl (fun n c => 16 * n + hexValue c) 0

/-- Stands for what no character can be put for. -/
def replacement : Char := '\uFFFD'

/-- The character with a code point; `replacement` where there is none, and for zero. -/
def charOfCode (n : Nat) : Char :=
  if h : n.isValidChar then (if n = 0 then replacement else Char.ofNatAux n h) else replacement

/-- At most `n` characters from the start that satisfy `p`, and the rest. -/
def takeAtMost (p : Char → Bool) : Nat → Text → Text × Text
  | 0, t => ([], t)
  | _ + 1, [] => ([], [])
  | n + 1, c :: t =>
    if p c then
      let more := takeAtMost p n t
      (c :: more.1, more.2)
    else ([], c :: t)

/-- Drops one character if it is white space of CSS. -/
def dropOneBlank : Text → Text
  | [] => []
  | c :: t => if Text.isCssBlank c then t else c :: t

/-- Reads an escape, of which the backslash is already read: up to six hexadecimal digits and a
    blank, or the next character; at the end of the text, `replacement`. -/
def takeEscape : Text → Char × Text
  | [] => (replacement, [])
  | c :: t =>
    if isHexDigit c then
      let digits := takeAtMost isHexDigit 6 (c :: t)
      (charOfCode (ofHexDigits digits.1), dropOneBlank digits.2)
    else (c, t)

/-- Whether a backslash before `t` makes an escape. -/
def escapes : Text → Bool
  | '\n' :: _ => false
  | _ => true

/-- Whether an identifier starts here. -/
def startsIdentifier : Text → Bool
  | '-' :: '\\' :: t => escapes t
  | '-' :: c :: _ => isStart c || c == '-'
  | '\\' :: t => escapes t
  | c :: _ => isStart c
  | [] => false

/-! ## Lengths of the rests -/

/-- Taking a bounded front splits the text. -/
theorem takeAtMost_length (p : Char → Bool) (n : Nat) (t : Text) :
    (takeAtMost p n t).1.length + (takeAtMost p n t).2.length = t.length := by
  induction n generalizing t with
  | zero => simp [takeAtMost]
  | succ n ih =>
    cases t with
    | nil => simp [takeAtMost]
    | cons c t =>
      have := ih t
      by_cases h : p c
      · simp only [takeAtMost, h, if_true, List.length_cons]
        omega
      · simp [takeAtMost, h]

/-- One blank behind an escape is dropped. -/
theorem dropOneBlank_length_le (t : Text) : (dropOneBlank t).length ≤ t.length := by
  unfold dropOneBlank
  split
  · simp
  · split <;> simp

/-- An escape takes up to six digits and a blank, or one character. -/
theorem takeEscape_length_le (t : Text) : (takeEscape t).2.length ≤ t.length := by
  unfold takeEscape
  split
  · simp
  · rename_i c t
    split
    · have h₁ := takeAtMost_length isHexDigit 6 (c :: t)
      have h₂ := dropOneBlank_length_le (takeAtMost isHexDigit 6 (c :: t)).2
      simp only
      omega
    · simp

/-- Reads a name: name characters and escapes as far as they go. -/
def take : Text → Text × Text
  | [] => ([], [])
  | c :: t =>
    if isChar c then
      let more := take t
      (c :: more.1, more.2)
    else if c = '\\' ∧ escapes t then
      let escape := takeEscape t
      let more := take escape.2
      (escape.1 :: more.1, more.2)
    else ([], c :: t)
termination_by t => t.length
decreasing_by
  · simp
  · exact Nat.lt_succ_of_le (takeEscape_length_le t)

/-- The rest behind a name is not longer than the text. -/
theorem take_length_le (t : Text) : (take t).2.length ≤ t.length := by
  fun_induction take t with
  | case1 => simp
  | case2 c t _ _ ih => exact Nat.le_succ_of_le ih
  | case3 c t _ _ _ _ ih =>
    exact Nat.le_succ_of_le (Nat.le_trans ih (takeEscape_length_le t))
  | case4 => simp

end Name

end CssShorthand
