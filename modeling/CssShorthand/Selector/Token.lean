/-
  SELECTOR TOKENS.

  What a component can be in a selector.  A block in square brackets is an attribute selector and a
  function a functional pseudo-class, both read already, right or wrong.  So the components are turned
  into tokens from the inside out, and reading selectors is reading a flat list.
-/
import CssShorthand.Component.Basic
import CssShorthand.Selector.Basic

namespace CssShorthand

/-- What a component can be in a selector. -/
inductive SelectorToken where
  | space
  | comment
  | comma
  /-- One of `>`, `+` and `~`. -/
  | combinator
  | dot
  | colon
  | star
  | bar
  | ident (name : Text)
  | hash (name : Text) (isIdentifier : Bool)
  /-- An attribute selector; none if the brackets hold something else. -/
  | attribute (selector : Option SimpleSelector)
  /-- A functional pseudo-class; none if its arguments cannot be read. -/
  | call (selector : Option SimpleSelector)
  | other
  deriving Repr

namespace SelectorToken

/-- White space and comments. -/
def isSkipped : SelectorToken → Bool
  | .space | .comment => true
  | _ => false

/-- White space. -/
def isSpace : SelectorToken → Bool
  | .space => true
  | _ => false

/-- A delimiter as a token. -/
def ofDelimiter : Text → SelectorToken
  | [','] => .comma
  | ['>'] | ['+'] | ['~'] => .combinator
  | ['.'] => .dot
  | [':'] => .colon
  | ['*'] => .star
  | ['|'] => .bar
  | _ => .other

/-- The attribute selector that the content of a block in square brackets makes, if it makes one.  No
    namespace has a name here, so that a name before a bar is wrong.  Of an attribute in whatever
    namespace nothing is known. -/
def ofBrackets (content : List Component) : Option SimpleSelector :=
  match content.dropWhile (·.isWhitespace) with
  | .ident _ :: .literal ['|'] :: _ => none
  | .ident _ :: cs => (AttributeCondition.ofComponents? cs).map .attribute
  | .literal ['|'] :: .ident _ :: cs => (AttributeCondition.ofComponents? cs).map .attribute
  | .literal ['*'] :: .literal ['|'] :: .ident _ :: cs =>
    (AttributeCondition.ofComponents? cs).map fun _ => .unsupported
  | _ => none

end SelectorToken

end CssShorthand
