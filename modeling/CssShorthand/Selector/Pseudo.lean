/-
  PSEUDO-CLASSES AND PSEUDO-ELEMENTS by name, and the arguments of the pseudo-classes that take
  languages or counts.
-/
import CssShorthand.Component.Basic

namespace CssShorthand

namespace Pseudo

/-- The pseudo-elements, written after `::`. -/
def elements : List String :=
  ["first-line", "first-letter", "prefix", "postfix", "selection", "target-text",
   "spelling-error", "grammar-error", "before", "after", "marker", "placeholder",
   "file-selector-button", "footnote-call", "footnote-marker", "note-call", "note-marker",
   "note-callback", "content", "shadow"]

/-- The pseudo-elements that are also written after a single colon. -/
def singleColonElements : List String := ["before", "after", "first-line", "first-letter"]

/-- The pseudo-classes that nothing matches in a document at rest, which nobody visits, points at or
    plays, and which has no shadow trees. -/
def neverMatching : List String :=
  ["visited", "hover", "active", "focus", "focus-within", "focus-visible", "target",
   "target-within", "current", "past", "future", "playing", "paused", "seeking", "buffering",
   "stalled", "muted", "volume-locked", "user-valid", "user-invalid", "host"]

/-- The pseudo-classes without arguments. -/
def classes : List String :=
  ["link", "any-link", "local-link", "enabled", "disabled", "checked"] ++ neverMatching ++
  ["root", "scope", "first-child", "last-child", "first-of-type", "last-of-type", "only-child",
   "only-of-type", "empty"]

/-- The pseudo-classes that count. -/
def counting : List String := ["nth-child", "nth-last-child", "nth-of-type", "nth-last-of-type"]

/-! ## Languages -/

/-- What can stand between two languages: an identifier, or anything that stands for a comma, whether
    bare, quoted or escaped. -/
def isLanguageSeparator : Component → Bool
  | .ident _ => true
  | .literal text | .string text _ | .url text _ | .hash text _ | .atKeyword text => text == [',']
  | _ => false

mutual

/-- A language, or the end. -/
def isLanguages : List Component → Bool
  | [] => true
  | .ident _ :: cs | .string _ _ :: cs => isMoreLanguages cs
  | _ => false

/-- What stands between two languages, or the end. -/
def isMoreLanguages : List Component → Bool
  | [] => true
  | c :: cs => isLanguageSeparator c && isLanguages cs

end

/-! ## Counts: `an + b`

  Of the significant components, the first says `even`, `odd`, a number or a multiple of `n`; what can
  follow depends on it. -/

/-- Whether a numeral is written as an integer. -/
def isInteger (numeral : Text) : Bool := (Numeral.ofText numeral).isInteger

/-- Whether a numeral is written with a sign. -/
def isSigned : Text → Bool
  | '+' :: _ | '-' :: _ => true
  | _ => false

/-- An unsigned integer and nothing more. -/
def isUnsignedEnd : List Component → Bool
  | [.number n] => isInteger n && !isSigned n
  | _ => false

/-- What can follow `n`. -/
def isAfterN : List Component → Bool
  | [] => true
  | [.number n] => isInteger n && isSigned n
  | c :: cs => (c.isDelimiter ['+'] || c.isDelimiter ['-']) && isUnsignedEnd cs

/-- Digits, possibly with a line break at the end, which only an escape brings into a word. -/
def areDigits (t : Text) : Bool :=
  !(t.takeWhile Char.isDigit).isEmpty && [[], ['\n']].contains (t.dropWhile Char.isDigit)

/-- What a word made of `n` and what follows in it asks for. -/
def isMultiple (unit : Text) (following : List Component) : Bool :=
  match unit with
  | ['n'] => isAfterN following
  | ['n', '-'] => isUnsignedEnd following
  | 'n' :: '-' :: digits => areDigits digits && following.isEmpty
  | _ => false

/-- A word as a count: `even`, `odd`, or a multiple with a minus before it or none. -/
def isCountWord (word : Text) (following : List Component) : Bool :=
  if ["even", "odd"].contains (Text.toString word) then following.isEmpty
  else match word with
    | '-' :: unit => isMultiple unit following
    | unit => isMultiple unit following

/-- A count.  A `+` before a word has to stand directly before it, and takes no minus. -/
def isCount (arguments : List Component) : Bool :=
  match arguments.dropWhile (·.isSeparator) with
  | .number n :: cs => isInteger n && (Component.significant cs).isEmpty
  | .dimension n unit :: cs =>
    isInteger n && isMultiple (Text.lower unit) (Component.significant cs)
  | .ident word :: cs => isCountWord (Text.lower word) (Component.significant cs)
  | .literal ['+'] :: .ident word :: cs =>
    isMultiple (Text.lower word) (Component.significant cs)
  | _ => false

end Pseudo

end CssShorthand
