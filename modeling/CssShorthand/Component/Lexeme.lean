/-
  LEXEMES.

  A text is first cut into lexemes, with no nesting: components that hold no others, the openings of
  blocks and functions, and closing brackets.  `Lexeme.read` reads the lexemes at the start of a text
  (one, or a string or URL and the fault of its missing end), and `scan` repeats it.

  Every lexeme is found together with the text that it starts, so that its place can be told: no
  counting is needed while scanning.
-/
import CssShorthand.Component.Basic
import CssShorthand.Component.Number
import CssShorthand.Component.Enclosed

namespace CssShorthand

/-- A thing found in a text, with the part of the text from its first character on. -/
structure Found (α : Type) where
  item : α
  suffix : Text
  deriving Repr

/-- A piece of a text, before nesting. -/
inductive Lexeme where
  | leaf (component : Component)
  | call (name : Text)
  | opened (bracket : Bracket)
  | closed (bracket : Bracket)
  deriving Repr

namespace Lexeme

/-! ## What is done to a text before it is scanned -/

/-- Unifies line ends (form feeds are line ends here) and puts a replacement for NUL. -/
def normalize (t : Text) : Text :=
  (Text.unifyLineEnds t).map fun c =>
    if c = '\x00' then Name.replacement else if c = '\x0C' then '\n' else c

/-! ## Readers by first character -/

/-- A delimiter. -/
def delimiter (text : Text) : Lexeme := .leaf (.literal text)

/-- Reads white space of CSS. -/
def takeBlanks : Text → Text × Text
  | [] => ([], [])
  | c :: t =>
    if Text.isCssBlank c then
      let more := takeBlanks t
      (c :: more.1, more.2)
    else ([], c :: t)

/-- The lexemes of a string. -/
def ofString : Enclosed → List Lexeme
  | .closed v => [.leaf (.string v true)]
  | .unclosed v => [.leaf (.string v false), .leaf (.fault .endInString)]
  | .broken => [.leaf (.fault .badString)]

/-- The lexemes of a URL without quotes. -/
def ofUrl : Enclosed → List Lexeme
  | .closed v => [.leaf (.url v true)]
  | .unclosed v => [.leaf (.url v false), .leaf (.fault .endInUrl)]
  | .broken => [.leaf (.fault .badUrl)]

/-- Reads what begins with an identifier: a URL, the opening of a function, or the identifier. -/
def readName (t : Text) : List Lexeme × Text :=
  let name := Name.take t
  match name.2 with
  | '(' :: r =>
    if Text.lower name.1 = ['u', 'r', 'l'] ∧ UrlText.starts r then
      let url := UrlText.take r
      (ofUrl url.1, url.2)
    else ([.call name.1], r)
  | r => ([.leaf (.ident name.1)], r)

/-- Tells a number, a percentage and a dimension apart by what follows the numeral. -/
def readNumber (numeral r : Text) : List Lexeme × Text :=
  if Name.startsIdentifier r then
    let unit := Name.take r
    ([.leaf (.dimension numeral unit.1)], unit.2)
  else match r with
    | '%' :: r => ([.leaf (.percentage numeral)], r)
    | r => ([.leaf (.number numeral)], r)

/-- Reads what follows `@`. -/
def readAt (t : Text) : List Lexeme × Text :=
  if Name.startsIdentifier t then
    let name := Name.take t
    ([.leaf (.atKeyword name.1)], name.2)
  else ([delimiter ['@']], t)

/-- Whether a name, not only an identifier, starts here. -/
def startsName : Text → Bool
  | [] => false
  | c :: t => Name.isChar c || (c == '\\' && Name.escapes t)

/-- Reads what follows `#`. -/
def readHash (t : Text) : List Lexeme × Text :=
  if startsName t then
    let name := Name.take t
    ([.leaf (.hash name.1 (Name.startsIdentifier t))], name.2)
  else ([delimiter ['#']], t)

/-- The characters that make one delimiter with a `=` after them. -/
def joinsEquals (c : Char) : Bool := c == '~' || c == '|' || c == '^' || c == '$' || c == '*'

/-- Reads a delimiter that begins with `c`. -/
def readDelimiter (c : Char) : Text → List Lexeme × Text
  | '!' :: '-' :: '-' :: t =>
    if c = '<' then ([delimiter ['<', '!', '-', '-']], t)
    else ([delimiter [c]], '!' :: '-' :: '-' :: t)
  | '|' :: t =>
    if c = '|' then ([delimiter ['|', '|']], t) else ([delimiter [c]], '|' :: t)
  | '=' :: t =>
    if joinsEquals c then ([delimiter [c, '=']], t) else ([delimiter [c]], '=' :: t)
  | t => ([delimiter [c]], t)

/-- Reads what begins with a character that no name and no number begins with. -/
def readSymbol (c : Char) (t : Text) : List Lexeme × Text :=
  match c with
  | '@' => readAt t
  | '#' => readHash t
  | '{' => ([.opened .brace], t)
  | '[' => ([.opened .square], t)
  | '(' => ([.opened .round], t)
  | '}' => ([.closed .brace], t)
  | ']' => ([.closed .square], t)
  | ')' => ([.closed .round], t)
  | '"' | '\'' =>
    let string := Quotation.take c t
    (ofString string.1, string.2)
  | '/' =>
    match t with
    | '*' :: r =>
      let comment := CommentText.take r
      ([.leaf (.comment comment.1)], comment.2)
    | t => readDelimiter '/' t
  | c => readDelimiter c t

/-- Reads the lexemes at the start of the text `c :: t`. -/
def read (c : Char) (t : Text) : List Lexeme × Text :=
  if Text.isCssBlank c then
    let blanks := takeBlanks t
    ([.leaf (.whitespace (c :: blanks.1))], blanks.2)
  else if (c = 'u' ∨ c = 'U') ∧ UnicodeRange.starts t then
    let range := UnicodeRange.take (t.drop 1)
    ([.leaf (.unicodeRange range.1.1 range.1.2)], range.2)
  else match Text.dropFront? ['-', '-', '>'] (c :: t) with
    | some r => ([delimiter ['-', '-', '>']], r)
    | none =>
      if Name.startsIdentifier (c :: t) then readName (c :: t)
      else match Number.take? (c :: t) with
        | some (numeral, r) => readNumber numeral r
        | none => readSymbol c t

/-! ## Each reading leaves less -/

/-- A run of blanks is taken off the text. -/
theorem takeBlanks_length_le (t : Text) : (takeBlanks t).2.length ≤ t.length := by
  fun_induction takeBlanks t with
  | case1 => simp
  | case2 c t _ _ ih => exact Nat.le_succ_of_le ih
  | case3 => simp

/-- A name that starts with an identifier takes at least one character. -/
theorem take_length_lt_of_starts {c : Char} {t : Text}
    (h : Name.startsIdentifier (c :: t) = true) : (Name.take (c :: t)).2.length ≤ t.length := by
  unfold Name.take
  split
  · exact Name.take_length_le t
  · split
    · exact Nat.le_trans (Name.take_length_le _) (Name.takeEscape_length_le t)
    · rename_i hc he
      exfalso
      unfold Name.startsIdentifier at h
      split at h
      · rename_i heq
        obtain ⟨rfl, rfl⟩ := heq
        exact hc rfl
      · rename_i heq
        obtain ⟨rfl, rfl⟩ := heq
        exact hc rfl
      · rename_i heq
        obtain ⟨rfl, rfl⟩ := heq
        exact he ⟨rfl, h⟩
      · rename_i heq
        obtain ⟨rfl, rfl⟩ := heq
        exact hc (by simp [Name.isChar, h])
      · simp at h

/-- A name takes at least its first character. The three kinds of names differ in what they take behind it. -/
theorem readName_length_le {c : Char} {t : Text} (h : Name.startsIdentifier (c :: t) = true) :
    (readName (c :: t)).2.length ≤ t.length := by
  have hn := take_length_lt_of_starts h
  unfold readName
  dsimp only
  split
  · rename_i r hr
    rw [hr, List.length_cons] at hn
    split
    · exact Nat.le_trans (UrlText.take_length_le r) (by omega)
    · simp only
      omega
  · exact hn

/-- A number takes its unit as well, or leaves the text as it was. -/
theorem readNumber_length_le (numeral r : Text) : (readNumber numeral r).2.length ≤ r.length := by
  unfold readNumber
  split
  · exact Name.take_length_le r
  · split
    · simp
    · simp

/-- A keyword takes its name behind the sign. -/
theorem readAt_length_le (t : Text) : (readAt t).2.length ≤ t.length := by
  unfold readAt
  split
  · exact Name.take_length_le t
  · simp

/-- A hash takes its name behind the sign. -/
theorem readHash_length_le (t : Text) : (readHash t).2.length ≤ t.length := by
  unfold readHash
  split
  · exact Name.take_length_le t
  · simp

/-- A delimiter takes one character, or a second one that belongs to it. -/
theorem readDelimiter_length_le (c : Char) (t : Text) :
    (readDelimiter c t).2.length ≤ t.length := by
  unfold readDelimiter
  split
  · split
    · simp only [List.length_cons]; omega
    · simp
  · split <;> simp
  · split <;> simp
  · simp

/-- A symbol takes its character, and what it opens: a string, a comment, a keyword or a hash. -/
theorem readSymbol_length_le (c : Char) (t : Text) : (readSymbol c t).2.length ≤ t.length := by
  unfold readSymbol
  split
  · exact readAt_length_le t
  · exact readHash_length_le t
  · simp
  · simp
  · simp
  · simp
  · simp
  · simp
  · exact Quotation.take_length_le _ t
  · exact Quotation.take_length_le _ t
  · split
    · rename_i r
      exact Nat.le_succ_of_le (CommentText.take_length_le r)
    · exact readDelimiter_length_le _ _
  · exact readDelimiter_length_le _ _

/-- Reading takes at least one character. -/
theorem read_length_le (c : Char) (t : Text) : (read c t).2.length ≤ t.length := by
  unfold read
  split
  · exact takeBlanks_length_le t
  · split
    · exact Nat.le_trans (UnicodeRange.take_length_le _) (by simp)
    · split
      · rename_i r hr
        have := congrArg List.length (Text.dropFront?_eq_some_iff.mp hr)
        simp only [List.length_append, List.length_cons, List.length_nil] at this
        simp only
        omega
      · split
        · rename_i h
          exact readName_length_le h
        · split
          · rename_i n r hr
            have := Number.take?_length_lt hr
            have := readNumber_length_le n r
            simp only [List.length_cons] at *
            omega
          · exact readSymbol_length_le c t

/-! ## Scanning -/

/-- The lexemes of a normalized text, each with the text that it starts. -/
def scan : Text → List (Found Lexeme)
  | [] => []
  | c :: t =>
    let here := read c t
    here.1.map (Found.mk · (c :: t)) ++ scan here.2
termination_by t => t.length
decreasing_by exact Nat.lt_succ_of_le (read_length_le c t)

end Lexeme

end CssShorthand
