/-
  FAILURES: why a value or a store cannot be worked on.  `Failure.message` is the text shown.
-/
import CssShorthand.Text.Quoted

namespace CssShorthand

/-- The causes for which an operation fails. -/
inductive Failure where
  /-- The value of a box shorthand has `count` parts, which is not one to four. -/
  | boxParts (value : Text) (count : Nat)
  /-- The value of a font shorthand has no size where one is due. -/
  | noFontSize (value : Text)
  /-- The value of a font shorthand has a slash with no line height after it. -/
  | noLineHeight (value : Text)
  /-- Nothing is declared under this name. -/
  | undeclared (name : String)
  /-- No shorthand has this name. -/
  | notShorthand (name : String)
  /-- The caller gave up. -/
  | aborted
  deriving Repr, DecidableEq

namespace Failure

/-- The text between quotes, as a string. -/
def quote (t : Text) : String := Text.toString (Text.quoted t)

/-- What is said about a failure. -/
def message : Failure → String
  | .boxParts value count =>
    "Cannot parse " ++ quote value ++ ", expected 1 to 4 token components got " ++ toString count
  | .noFontSize value => "Expected a font size in " ++ quote value
  | .noLineHeight value => "Expected a line height after \"/\" in " ++ quote value
  | .undeclared name => quote (Text.ofString name)
  | .notShorthand name => quote (Text.ofString name)
  | .aborted => "fail"

/-- Whether a failure lies in the text of a value, and not in what the caller asked for. -/
def isInvalidValue : Failure → Bool
  | .boxParts _ _ | .noFontSize _ | .noLineHeight _ => true
  | _ => false

end Failure

end CssShorthand
