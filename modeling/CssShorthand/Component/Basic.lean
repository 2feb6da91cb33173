/-
  COMPONENT VALUES OF CSS.

  A value of CSS is a list of components: tokens, blocks in brackets and calls of functions, of which
  the last two hold lists of components again.  Names, strings and URLs are kept with their escapes
  read; numbers are kept as written, because their text is what is written back.  Parts of a text that
  are no CSS stay in the list as faults.
-/
import CssShorthand.Text.Case
import CssShorthand.Decimal.Numeral

namespace CssShorthand

/-- The three pairs of brackets. -/
inductive Bracket where
  | brace
  | square
  | round
  deriving Repr, DecidableEq

namespace Bracket

/-- The character that opens a block. -/
def opening : Bracket → Char
  | .brace => '{'
  | .square => '['
  | .round => '('

/-- The character that closes a block. -/
def closing : Bracket → Char
  | .brace => '}'
  | .square => ']'
  | .round => ')'

end Bracket

/-- What is wrong at a place of a text. -/
inductive Fault where
  /-- A string ended by a newline. -/
  | badString
  /-- A URL with a character that cannot stand in it. -/
  | badUrl
  /-- A closing bracket that closes nothing. -/
  | unmatched (bracket : Bracket)
  /-- A string ended by the end of the text. -/
  | endInString
  /-- A URL ended by the end of the text. -/
  | endInUrl
  deriving Repr, DecidableEq

/-- A component of a CSS value. -/
inductive Component where
  | whitespace (text : Text)
  | comment (text : Text)
  | ident (name : Text)
  | atKeyword (name : Text)
  /-- A `#` and a name.  `isIdentifier` says that the name is an identifier, as that of an id selector
      is. -/
  | hash (name : Text) (isIdentifier : Bool)
  | string (value : Text) (isClosed : Bool)
  | url (value : Text) (isClosed : Bool)
  | unicodeRange (first last : Nat)
  | number (numeral : Text)
  | percentage (numeral : Text)
  | dimension (numeral unit : Text)
  /-- A delimiter: one character, or one of the few of two or more. -/
  | literal (text : Text)
  | block (bracket : Bracket) (content : List Component)
  | function (name : Text) (arguments : List Component)
  | fault (fault : Fault)
  deriving Repr

namespace Component

/-- The name of the kind of a component. -/
def kind : Component → String
  | .whitespace _ => "whitespace"
  | .comment _ => "comment"
  | .ident _ => "ident"
  | .atKeyword _ => "at-keyword"
  | .hash _ _ => "hash"
  | .string _ _ => "string"
  | .url _ _ => "url"
  | .unicodeRange _ _ => "unicode-range"
  | .number _ => "number"
  | .percentage _ => "percentage"
  | .dimension _ _ => "dimension"
  | .literal _ => "literal"
  | .block .brace _ => "\x7b\x7d block"
  | .block .square _ => "[] block"
  | .block .round _ => "() block"
  | .function _ _ => "function"
  | .fault _ => "error"

/-- Whether a component only separates others. -/
def isSeparator : Component → Bool
  | .whitespace _ | .comment _ => true
  | _ => false

/-- Whether a component is white space. -/
def isWhitespace : Component → Bool
  | .whitespace _ => true
  | _ => false

/-- Whether a component is a comment. -/
def isComment : Component → Bool
  | .comment _ => true
  | _ => false

/-- Whether a component is the delimiter `text`. -/
def isDelimiter (text : Text) : Component → Bool
  | .literal t => t == text
  | _ => false

/-- Whether a component is a block in braces. -/
def isBraceBlock : Component → Bool
  | .block .brace _ => true
  | _ => false

/-- The name of a component that is an identifier. -/
def identName? : Component → Option Text
  | .ident name => some name
  | _ => none

/-- The keyword that an identifier stands for: its name in lower case. -/
def keyword? : Component → Option String
  | .ident name => some (Text.toString (Text.lower name))
  | _ => none

/-- The components that are neither white space nor comments. -/
def significant (cs : List Component) : List Component := cs.filter (!·.isSeparator)

/-- The keyword that a list of a single component stands for. -/
def soleKeyword? : List Component → Option String
  | [c] => c.keyword?
  | _ => none

theorem significant_append (cs ds : List Component) :
    significant (cs ++ ds) = significant cs ++ significant ds := by
  simp [significant]

end Component

end CssShorthand
