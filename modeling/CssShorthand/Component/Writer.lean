/-
  HOW COMPONENTS ARE WRITTEN.

  Components are written one after the other.  Where two neighbours would be read back as something
  else, an empty comment is put between them (`Joint.clash`), and a delimiter `\` is kept from escaping
  what follows by a newline.  Names, strings and URLs get the escapes they need; what was closed by
  the end of the text is written closed, but for strings and URLs and the functions around such a
  string.
-/
import CssShorthand.Component.Basic
import CssShorthand.Component.Name

namespace CssShorthand

namespace Name

/-- A line end as an escape by its code point, anything else after a backslash. -/
def escaped (c : Char) : Text :=
  if c = '\n' then ['\\', 'A', ' ']
  else if c = '\r' then ['\\', 'D', ' ']
  else if c = '\x0C' then ['\\', 'C', ' ']
  else ['\\', c]

/-- Writes a name. -/
def write (name : Text) : Text := name.flatMap fun c => if isChar c then [c] else escaped c

/-- The digits of a number in base sixteen, in capitals. -/
def upperHex (n : Nat) : Text := (Nat.toDigits 16 n).map Char.toUpper

/-- Writes the first character of an identifier, where a digit needs an escape. -/
def writeStart (c : Char) : Text :=
  if isStart c then [c]
  else if c.isDigit then '\\' :: upperHex c.toNat ++ [' ']
  else escaped c

/-- Writes an identifier. -/
def writeIdentifier : Text → Text
  | [] => []
  | ['-'] => ['\\', '-']
  | '-' :: '-' :: rest => '-' :: '-' :: write rest
  | '-' :: c :: rest => '-' :: writeStart c ++ write rest
  | c :: rest => writeStart c ++ write rest

/-- One character within the double quotes of a string. -/
def writeInString (c : Char) : Text :=
  if c = '"' then ['\\', '"'] else if c = '\\' then ['\\', '\\']
  else if c = '\n' ∨ c = '\r' ∨ c = '\x0C' then escaped c
  else [c]

/-- One character of a URL without quotes. -/
def writeInUrl (c : Char) : Text :=
  if c = '\'' ∨ c = '"' ∨ c = '\\' ∨ c = ' ' ∨ c = '(' ∨ c = ')' then ['\\', c]
  else if c = '\t' then ['\\', '9', ' ']
  else if c = '\n' ∨ c = '\r' ∨ c = '\x0C' then escaped c
  else [c]

/-- Writes a unit.  One that would be read as an exponent begins with the escape of `e`. -/
def writeUnit : Text → Text
  | [c] => if c = 'e' ∨ c = 'E' then ['\\', '6', '5', ' '] else writeIdentifier [c]
  | c :: '-' :: rest =>
    if c = 'e' ∨ c = 'E' then ['\\', '6', '5', ' '] ++ write ('-' :: rest)
    else writeIdentifier (c :: '-' :: rest)
  | unit => writeIdentifier unit

end Name

/-- How a component meets its neighbours. -/
inductive Joint where
  | ident | atKeyword | hash | function | url | number | percentage | dimension | unicodeRange
  | roundBlock | delimiter (text : Text) | whitespace | other
  deriving Repr, DecidableEq

namespace Joint

/-- The joint of a component. -/
def of : Component → Joint
  | .ident _ => .ident
  | .atKeyword _ => .atKeyword
  | .hash _ _ => .hash
  | .function _ _ => .function
  | .url _ _ => .url
  | .number _ => .number
  | .percentage _ => .percentage
  | .dimension _ _ => .dimension
  | .unicodeRange _ _ => .unicodeRange
  | .block .round _ => .roundBlock
  | .literal text => .delimiter text
  | .whitespace _ => .whitespace
  | _ => .other

/-- The delimiter of one character. -/
abbrev char (c : Char) : Joint := .delimiter [c]

/-- Whether two neighbours would be read as something else if nothing stood between them. -/
def clash (a b : Joint) : Bool :=
  ([ident, atKeyword, hash, dimension, char '#', char '-', number].contains a &&
    [ident, function, url, number, percentage, dimension, unicodeRange].contains b) ||
  ([ident, atKeyword, hash, dimension].contains a &&
    [char '-', delimiter ['-', '-', '>']].contains b) ||
  ([char '#', char '-', number, char '@'].contains a && [ident, function, url].contains b) ||
  ([unicodeRange, char '.', char '+'].contains a && [number, percentage, dimension].contains b) ||
  (a == char '@' && [ident, function, url, unicodeRange, char '-'].contains b) ||
  (a == unicodeRange && [ident, function, char '?'].contains b) ||
  ([char '$', char '*', char '^', char '~', char '|'].contains a && b == char '=') ||
  (a == ident && b == roundBlock) ||
  (a == char '|' && b == char '|') ||
  (a == char '/' && b == char '*')

end Joint

namespace Component

/-- Whether a component is white space that begins with a newline. -/
def startsLine : Component → Bool
  | .whitespace ('\n' :: _) => true
  | _ => false

/-- What is written between two neighbours. -/
def between (a b : Component) : Text :=
  if (Joint.of a).clash (Joint.of b) then ['/', '*', '*', '/']
  else if a.isDelimiter ['\\'] ∧ !b.startsLine then ['\n']
  else []

mutual

/-- Whether a function ends within a string that the end of the text ended: then it was not closed
    either.  Only the last argument of a function counts, and its last argument again. -/
def endsInString : Component → Bool
  | .function _ arguments => endInString arguments
  | _ => false

/-- The same of the arguments of a function. -/
def endInString : List Component → Bool
  | [] => false
  | [c] => (match c with | .fault .endInString => true | _ => false) || endsInString c
  | _ :: c :: cs => endInString (c :: cs)

end

/-- How a fault is written. -/
def writeFault : Fault → Text
  | .badString => ['"', '[', 'b', 'a', 'd', ' ', 's', 't', 'r', 'i', 'n', 'g', ']', '\n']
  | .badUrl => ['u', 'r', 'l', '(', '[', 'b', 'a', 'd', ' ', 'u', 'r', 'l', ']', ')']
  | .unmatched b => [b.closing]
  | .endInString => []
  | .endInUrl => []

/-- How a range of code points is written. -/
def writeRange (first last : Nat) : Text :=
  ['U', '+'] ++ Name.upperHex first ++
    (if last = first then [] else '-' :: Name.upperHex last)

mutual

/-- The text of one component. -/
def write : Component → Text
  | .whitespace text => text
  | .comment text => ['/', '*'] ++ text ++ ['*', '/']
  | .ident name => Name.writeIdentifier name
  | .atKeyword name => '@' :: Name.writeIdentifier name
  | .hash name isIdentifier =>
    '#' :: (if isIdentifier then Name.writeIdentifier name else Name.write name)
  | .string value isClosed =>
    '"' :: value.flatMap Name.writeInString ++ (if isClosed then ['"'] else [])
  | .url value isClosed =>
    ['u', 'r', 'l', '('] ++ value.flatMap Name.writeInUrl ++ (if isClosed then [')'] else [])
  | .unicodeRange first last => writeRange first last
  | .number numeral => numeral
  | .percentage numeral => numeral ++ ['%']
  | .dimension numeral unit => numeral ++ Name.writeUnit unit
  | .literal text => text
  | .block bracket content => bracket.opening :: writeList content ++ [bracket.closing]
  | .function name arguments =>
    Name.writeIdentifier name ++ '(' :: writeList arguments ++
      (if endInString arguments then [] else [')'])
  | .fault f => writeFault f

/-- The text of several components. -/
def writeList : List Component → Text
  | [] => []
  | [c] => write c
  | a :: b :: cs => write a ++ between a b ++ writeList (b :: cs)

end

/-- The text of several components without the blanks at its ends. -/
def writeTrimmed (cs : List Component) : Text := Text.trim (writeList cs)

end Component

end CssShorthand
