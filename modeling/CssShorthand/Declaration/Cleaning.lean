/-
  CLEANING VALUES.

  A value given as text may end with a semicolon, which is dropped with the blanks around it, and may
  hold marks `!important` (in any case, with blanks anywhere but in the word).  Each mark becomes one
  space, and a value that held one is important.  Then the value is trimmed; an empty one declares
  nothing.
-/
import CssShorthand.Text.Case
import CssShorthand.Text.Word
import CssShorthand.Declaration.Basic

namespace CssShorthand

namespace Cleaning

/-- The text without a semicolon at its end and the blanks around that. -/
def dropSemicolon (t : Text) : Text :=
  match t.reverse.dropWhile Text.isBlank with
  | ';' :: r => (r.dropWhile Text.isBlank).reverse
  | _ => t

/-- The word of the mark. -/
def markWord : Text := "important".toList

/-- What follows a mark and the blanks after it, if a mark starts here. -/
def afterMark? (t : Text) : Option Text :=
  match Text.trimStart t with
  | '!' :: r =>
    match Text.dropFolded? markWord (Text.trimStart r) with
    | some s => if Text.startsInWord s then none else some (Text.trimStart s)
    | none => none
  | _ => none

/-- A mark takes at least one character. -/
theorem afterMark?_length {t s : Text} (h : afterMark? t = some s) : s.length < t.length := by
  have ht := Text.trimStart_length_le t
  unfold afterMark? at h
  split at h
  · rename_i r hr
    rw [hr, List.length_cons] at ht
    split at h
    · rename_i u hu
      have hu := Text.dropFolded?_length hu
      have hr' := Text.trimStart_length_le r
      have hs := Text.trimStart_length_le u
      split at h
      · simp at h
      · simp only [Option.some.injEq] at h
        subst h
        omega
    · simp at h
  · simp at h

/-- Puts a space for each mark, and tells whether there was one. -/
def replaceMarks : Text → Text × Bool
  | [] => ([], false)
  | c :: t =>
    match _h : afterMark? (c :: t) with
    | some r => (' ' :: (replaceMarks r).1, true)
    | none =>
      let more := replaceMarks t
      (c :: more.1, more.2)
termination_by t => t.length
decreasing_by
  · exact afterMark?_length _h
  · simp

/-- A value as it is kept, and whether it was marked important. -/
def clean (t : Text) : Text × Bool :=
  let unmarked := replaceMarks (dropSemicolon t)
  (Text.trim unmarked.1, unmarked.2)

/-! ## Running the rule -/

example : clean "red ! Important;".toList = ("red".toList, true) := by decide +kernel
example : clean "a !importantly".toList = ("a !importantly".toList, false) := by decide +kernel

end Cleaning

end CssShorthand
