/-
  WHAT IS READ UP TO AN END: strings, URLs and comments.

  Each reader starts after the opening mark.  It ends at the closing mark, at the end of the text, or
  where the text breaks off what was begun; the result says which.
-/
import CssShorthand.Component.Name

namespace CssShorthand

/-- How a string or URL ended: with its mark, with the text, or broken. -/
inductive Enclosed where
  | closed (value : Text)
  | unclosed (value : Text)
  | broken
  deriving Repr, DecidableEq

namespace Enclosed

/-- Puts characters in front of what is enclosed. -/
def prepend (front : Text) : Enclosed → Enclosed
  | .closed v => .closed (front ++ v)
  | .unclosed v => .unclosed (front ++ v)
  | .broken => .broken

end Enclosed

namespace Quotation

/-- The characters that an escape in a string denotes, of which the backslash is already read: none
    for an escaped newline and for a backslash at the end of the text, otherwise one. -/
def takeEscape : Text → Text × Text
  | [] => ([], [])
  | c :: t =>
    if c = '\n' then ([], t)
    else
      let escape := Name.takeEscape (c :: t)
      ([escape.1], escape.2)

/-- An escape leaves no more than it was given. -/
theorem takeEscape_length_le (t : Text) : (takeEscape t).2.length ≤ t.length := by
  unfold takeEscape
  split
  · simp
  · split
    · simp
    · exact Name.takeEscape_length_le _

/-- Reads a string up to `quote`.  A bare newline breaks the string and is not read. -/
def take (quote : Char) : Text → Enclosed × Text
  | [] => (.unclosed [], [])
  | c :: t =>
    if c = quote then (.closed [], t)
    else if c = '\n' then (.broken, c :: t)
    else if c = '\\' then
      let escape := takeEscape t
      let more := take quote escape.2
      (more.1.prepend escape.1, more.2)
    else
      let more := take quote t
      (more.1.prepend [c], more.2)
termination_by t => t.length
decreasing_by
  · exact Nat.lt_succ_of_le (takeEscape_length_le t)
  · simp

theorem take_length_le (quote : Char) (t : Text) : (take quote t).2.length ≤ t.length := by
  fun_induction take quote t with
  | case1 => simp
  | case2 => simp
  | case3 => simp
  | case4 t _ _ _ _ ih =>
    exact Nat.le_succ_of_le (Nat.le_trans ih (takeEscape_length_le t))
  | case5 c t _ _ _ _ ih => exact Nat.le_succ_of_le ih

end Quotation

namespace UrlText

/-- Whether a character cannot stand in a URL without quotes. -/
def isForbidden (c : Char) : Bool :=
  let n := c.toNat
  c == '"' || c == '\'' || c == '(' || (1 ≤ n && n ≤ 8) || n == 0xB || (0xE ≤ n && n ≤ 0x1F) ||
    n == 0x7F

/-- Drops what is left of a broken URL: all up to the next `)` that has no backslash before it. -/
def dropBroken : Text → Text
  | [] => []
  | '\\' :: ')' :: t => dropBroken t
  | c :: t => if c = ')' then t else dropBroken t

/-- The rest after blanks within a URL, where nothing but its end can follow. -/
def takeEnd (t : Text) : Enclosed × Text :=
  match t.dropWhile Text.isCssBlank with
  | [] => (.unclosed [], [])
  | ')' :: r => (.closed [], r)
  | r => (.broken, dropBroken r)

/-- Reads the rest of a URL up to `)`. -/
def takeRest : Text → Enclosed × Text
  | [] => (.unclosed [], [])
  | c :: t =>
    if c = ')' then (.closed [], t)
    else if c = '\\' ∧ Name.escapes t then
      let escape := Name.takeEscape t
      let more := takeRest escape.2
      (more.1.prepend [escape.1], more.2)
    else if Text.isCssBlank c then takeEnd t
    else if isForbidden c then (.broken, dropBroken t)
    else
      let more := takeRest t
      (more.1.prepend [c], more.2)
termination_by t => t.length
decreasing_by
  · exact Nat.lt_succ_of_le (Name.takeEscape_length_le t)
  · simp

/-- Reads a URL, of which `url(` is already read. -/
def take (t : Text) : Enclosed × Text := takeRest (t.dropWhile Text.isCssBlank)

/-- Whether what follows `url(` is a URL without quotes, and not a quoted one. -/
def starts (t : Text) : Bool :=
  match t.dropWhile Text.isCssBlank with
  | [] => true
  | c :: _ => c != '"' && c != '\''

/-- A broken url is skipped to its end. -/
theorem dropBroken_length_le (t : Text) : (dropBroken t).length ≤ t.length := by
  fun_induction dropBroken t with
  | case1 => simp
  | case2 t ih => simp only [List.length_cons]; omega
  | case3 => simp
  | case4 c t _ _ ih => simp only [List.length_cons]; omega

/-- The end of a url is taken off the text. -/
theorem takeEnd_length_le (t : Text) : (takeEnd t).2.length ≤ t.length := by
  have h : (t.dropWhile Text.isCssBlank).length ≤ t.length := (List.dropWhile_sublist _).length_le
  unfold takeEnd
  split
  · simp
  · rename_i r hr
    rw [hr] at h
    simp only [List.length_cons] at h
    simp only
    omega
  · exact Nat.le_trans (dropBroken_length_le _) h

/-- The rest behind an unquoted url is not longer than the text. -/
theorem takeRest_length_le (t : Text) : (takeRest t).2.length ≤ t.length := by
  fun_induction takeRest t with
  | case1 => simp
  | case2 => simp
  | case3 c t _ _ _ _ ih =>
    exact Nat.le_succ_of_le (Nat.le_trans ih (Name.takeEscape_length_le t))
  | case4 c t => exact Nat.le_succ_of_le (takeEnd_length_le t)
  | case5 c t => exact Nat.le_succ_of_le (dropBroken_length_le t)
  | case6 c t _ _ _ _ _ ih => exact Nat.le_succ_of_le ih

theorem take_length_le (t : Text) : (take t).2.length ≤ t.length :=
  Nat.le_trans (takeRest_length_le _) (List.dropWhile_sublist _).length_le

end UrlText

namespace CommentText

/-- Reads a comment, of which its opening mark is already read, up to its closing mark or the end. -/
def take : Text → Text × Text
  | [] => ([], [])
  | '*' :: '/' :: t => ([], t)
  | c :: t =>
    let more := take t
    (c :: more.1, more.2)

theorem take_length_le (t : Text) : (take t).2.length ≤ t.length := by
  fun_induction take t with
  | case1 => simp
  | case2 => simp only [List.length_cons]; omega
  | case3 c t _ _ ih => exact Nat.le_succ_of_le ih

end CommentText

end CssShorthand
