/-
  LETTER CASE.

  Two rules.  Keywords of CSS ignore the case of ASCII letters (`lower`).  The patterns that slice
  values and the mark `!important` ignore case in the wider sense of `foldCase`: next to the ASCII
  letters, the dotted capital I, the dotless i, the long s and the Kelvin sign are cased forms of
  `i`, `i`, `s` and `k`.
-/
import CssShorthand.Text.Basic

namespace CssShorthand

namespace Text

/-- The text with its ASCII capitals lowered. -/
def lower (t : Text) : Text := t.map Char.toLower

/-- The one form that stands for all cased forms of a character. -/
def foldCase (c : Char) : Char :=
  if c = '\u0130' ∨ c = '\u0131' then 'i'
  else if c = '\u017F' then 's'
  else if c = '\u212A' then 'k'
  else c.toLower

/-- Whether two texts are the same up to `foldCase`. -/
def sameFolded (s t : Text) : Bool := s.map foldCase == t.map foldCase

/-- Whether `t` begins with `front` up to `foldCase`; if so, what follows. -/
def dropFolded? : Text → Text → Option Text
  | [], t => some t
  | _ :: _, [] => none
  | f :: front, c :: t => if foldCase f = foldCase c then dropFolded? front t else none

/-- A front of the same length is dropped, whatever the case of its letters. -/
theorem dropFolded?_length {front t r : Text} (h : dropFolded? front t = some r) :
    t.length = front.length + r.length := by
  induction front generalizing t with
  | nil => simp only [dropFolded?, Option.some.injEq] at h; simp [h]
  | cons f front ih =>
    cases t with
    | nil => simp [dropFolded?] at h
    | cons c t =>
      unfold dropFolded? at h
      split at h
      · have := ih h
        simp only [List.length_cons]
        omega
      · simp at h

end Text

end CssShorthand
