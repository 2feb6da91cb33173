/-
  NOTICES: what is said along the way about things that are left out or left as they are.
-/
import CssShorthand.Text.Quoted

namespace CssShorthand

/-- How much a notice matters, least first. -/
inductive Level where
  | debug
  | info
  | warning
  deriving Repr, DecidableEq

namespace Level

/-- The word for a level. -/
def name : Level → String
  | .debug => "DEBUG"
  | .info => "INFO"
  | .warning => "WARNING"

/-- The rank of a level. -/
def rank : Level → Nat
  | .debug => 0
  | .info => 1
  | .warning => 2

end Level

/-- A line and a column of a text, both counted from one. -/
structure Position where
  line : Nat
  column : Nat
  deriving Repr, DecidableEq

/-- What there is to say. -/
inductive Notice where
  /-- A shorthand's value has parts that the shorthand does not have. -/
  | unknownComponent (ignored : Text) (name : String) (value : Text)
  /-- A shorthand's value says all at once and cannot be split. -/
  | keptWhole (name : String) (value : Text)
  /-- Longhands are not folded, because some of them are important. -/
  | keptLonghands (shorthand : String)
  /-- A longhand is not folded, because it is important. -/
  | keptOut (name shorthand : String)
  /-- The size of a background is not folded, because its position is important. -/
  | keptSize
  /-- A selector that is none, or that nothing is known of. -/
  | invalidSelector (selector : Text)
  /-- A part of a block that is no declaration. -/
  | malformed (message : String) (position : Position)
  /-- A rule within a block of declarations. -/
  | nestedRule (position : Position)
  deriving Repr, DecidableEq

namespace Position

/-- Line and column with a colon between them. -/
def text (p : Position) : String := toString p.line ++ ":" ++ toString p.column

end Position

namespace Notice

/-- How much the notice matters. -/
def level : Notice → Level
  | .unknownComponent _ _ _ => .warning
  | .keptWhole _ _ => .debug
  | .keptLonghands _ => .debug
  | .keptOut _ _ => .debug
  | .keptSize => .debug
  | .invalidSelector _ => .warning
  | .malformed _ _ => .warning
  | .nestedRule _ => .warning

/-- What is said.  Of an invalid selector the cause is left open. -/
def message : Notice → String
  | .unknownComponent ignored name value =>
    "Ignored `" ++ Text.toString ignored ++ "` in `" ++ name ++ ": " ++ Text.toString value ++
      "`, unknown component."
  | .keptWhole name value =>
    "Kept `" ++ name ++ ": " ++ Text.toString value ++ "`, the value can’t be split."
  | .keptLonghands shorthand =>
    "Kept longhands of `" ++ shorthand ++ "`, some of them are important."
  | .keptOut name shorthand =>
    "Kept `" ++ name ++ "` out of `" ++ shorthand ++ "`, it is important."
  | .keptSize => "Kept `background-size`, `background-position` is important."
  | .invalidSelector selector =>
    "Invalid or unsupported selector " ++ Text.toString (Text.quoted selector) ++ ", <detail>."
  | .malformed message position => "Error: " ++ message ++ " at " ++ position.text ++ "."
  | .nestedRule position =>
    "Ignored nested rule at " ++ position.text ++ ", only declarations are allowed."

/-- A notice as one line of a log. -/
def line (n : Notice) : String := n.level.name ++ ": " ++ n.message

/-- The notices that matter at least as much as `level`. -/
def atLeast (level : Level) (notices : List Notice) : List Notice :=
  notices.filter fun n => level.rank ≤ n.level.rank

end Notice

end CssShorthand
