/-
  BLANKS AND WORDS.

  `isBlank` is the white space of plain text: the ASCII blanks and separators and the spaces of
  Unicode.  It is wider than the white space of CSS (space, tab and newline, `isCssBlank`), and the
  two are kept apart: values are trimmed and collapsed by the first and tokenized by the second.

  `words` cuts a text at its blanks, `collapse` writes the words with single spaces between them.
-/
import CssShorthand.Text.Basic

namespace CssShorthand

namespace Text

/-- White space of plain text. -/
def isBlank (c : Char) : Bool :=
  let n := c.toNat
  if n < 0x80 then (0x09 ≤ n && n ≤ 0x0D) || (0x1C ≤ n && n ≤ 0x20)
  else n == 0x85 || n == 0xA0 || n == 0x1680 || (0x2000 ≤ n && n ≤ 0x200A) || n == 0x2028 ||
    n == 0x2029 || n == 0x202F || n == 0x205F || n == 0x3000

/-- White space of CSS: space, tab and newline. -/
def isCssBlank (c : Char) : Bool := c == ' ' || c == '\t' || c == '\n'

/-- Every white space of CSS is a blank. -/
theorem isBlank_of_isCssBlank {c : Char} (h : isCssBlank c = true) : isBlank c = true := by
  simp only [isCssBlank, Bool.or_eq_true, beq_iff_eq] at h
  rcases h with (rfl | rfl) | rfl <;> rfl

/-! ## Trimming -/

/-- The text without the blanks at its start. -/
def trimStart (t : Text) : Text := t.dropWhile isBlank

/-- The text without the blanks at its end. -/
def trimEnd (t : Text) : Text := (t.reverse.dropWhile isBlank).reverse

/-- The text without the blanks at its two ends. -/
def trim (t : Text) : Text := trimEnd (trimStart t)

/-- Trimming makes no text longer; recursions over the rest end by this. -/
theorem trimStart_length_le (t : Text) : (trimStart t).length ≤ t.length :=
  (List.dropWhile_sublist _).length_le

/-- Text that does not begin with a blank has nothing to lose at its start. -/
theorem trimStart_of_head {c : Char} {t : Text} (h : isBlank c = false) :
    trimStart (c :: t) = c :: t := by
  simp [trimStart, h]

theorem trimStart_idem (t : Text) : trimStart (trimStart t) = trimStart t := by
  unfold trimStart
  induction t with
  | nil => rfl
  | cons c t ih => cases h : isBlank c <;> simp [h, ih]

theorem trimEnd_idem (t : Text) : trimEnd (trimEnd t) = trimEnd t := by
  have := trimStart_idem t.reverse
  unfold trimStart at this
  simp [trimEnd, this]

/-- Trimming the end leaves a text that begins with no blank as it begins. -/
theorem trimStart_trimEnd_of_trimStart {t : Text} (h : trimStart t = t) :
    trimStart (trimEnd t) = trimEnd t := by
  cases t with
  | nil => rfl
  | cons c t =>
    have hc : isBlank c = false := by
      cases hb : isBlank c with
      | false => rfl
      | true =>
        have := trimStart_length_le t
        simp only [trimStart, List.dropWhile_cons, hb, if_true] at h this
        rw [h, List.length_cons] at this
        omega
    cases hr : trimEnd (c :: t) with
    | nil => rfl
    | cons d r =>
      have hd : d = c := by
        have hp : trimEnd (c :: t) <+: c :: t := by
          have := List.dropWhile_suffix (l := (c :: t).reverse) isBlank
          simpa [trimEnd] using List.reverse_prefix.mpr this
        rw [hr] at hp
        exact (List.cons_prefix_cons.mp hp).1
      exact trimStart_of_head (hd ▸ hc)

/-- A trimmed text has nothing more to trim. -/
theorem trim_idem (t : Text) : trim (trim t) = trim t := by
  unfold trim
  rw [trimStart_trimEnd_of_trimStart (trimStart_idem t), trimEnd_idem]

/-! ## Words -/

/-- Whether no word goes on here: the end of the text or a blank. -/
def atBreak : Text → Bool
  | [] => true
  | c :: _ => isBlank c

/-- The maximal runs of characters that are no blanks, in order. -/
def words : Text → List Text
  | [] => []
  | c :: t =>
    if isBlank c then words t
    else if atBreak t then [c] :: words t
    else extendFirst c (words t)

/-- The words with single spaces between them. -/
def collapse (t : Text) : Text := join [' '] (words t)

end Text

end CssShorthand
