/-
  TEXTS.

  A text is the list of its characters.  Everything that is scanned (values of declarations,
  selectors, blocks) is a text, so that a scanner is a function by recursion on a list and a
  statement about it is a statement about lists.  Names of properties and keywords, which are
  only ever compared as wholes, are `String`s; `Text.ofString` and `Text.toString` join the two.
-/

namespace CssShorthand

/-- A text: its characters, first to last. -/
abbrev Text := List Char

namespace Text

/-- The characters of a string. -/
def ofString (s : String) : Text := s.toList

/-- The string with these characters. -/
def toString (t : Text) : String := String.ofList t

/-! ## Parts of a text -/

/-- Puts a character in front of the first of several parts. -/
def extendFirst (c : Char) : List Text → List Text
  | [] => [[c]]
  | p :: ps => (c :: p) :: ps

/-- The parts, one after the other, with `sep` between neighbours. -/
def join (sep : Text) (parts : List Text) : Text := List.intercalate sep parts

/-! ## The end of a line -/

/-- The text with each line end (CR LF, CR or LF) written as LF. -/
def unifyLineEnds : Text → Text
  | [] => []
  | '\r' :: '\n' :: t => '\n' :: unifyLineEnds t
  | c :: t => (if c = '\r' then '\n' else c) :: unifyLineEnds t

/-- Whether `t` begins with the characters of `front`; if so, what follows them. -/
def dropFront? : Text → Text → Option Text
  | [], t => some t
  | _ :: _, [] => none
  | f :: front, c :: t => if f = c then dropFront? front t else none

/-- There is always a first text to extend. -/
theorem extendFirst_ne_nil (c : Char) (ps : List Text) : extendFirst c ps ≠ [] := by
  cases ps <;> simp [extendFirst]

/-- A front is dropped exactly where it stands. By induction on the front. -/
theorem dropFront?_eq_some_iff {front t r : Text} :
    dropFront? front t = some r ↔ t = front ++ r := by
  induction front generalizing t with
  | nil => simp [dropFront?]
  | cons f front ih =>
    cases t with
    | nil => simp [dropFront?]
    | cons c t =>
      by_cases h : f = c
      · simp [dropFront?, h, ih]
      · simp [dropFront?, h, Ne.symm h]

end Text

end CssShorthand
