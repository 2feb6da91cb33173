/-
  CONDITIONS ON ATTRIBUTES.

  An attribute selector asks that an attribute is there, or compares it with a value by an operator.
  Some comparisons hold of no attribute, whatever it is: no list of words has a word that is empty or
  has blanks in it, and no front, end or middle of a text is asked for by an empty value.
-/
import CssShorthand.Component.Basic
import CssShorthand.Text.Blank

namespace CssShorthand

/-- How an attribute is compared with a value. -/
inductive AttributeOperator where
  /-- The attribute is the value. -/
  | equal
  /-- The value is one of the words of the attribute. -/
  | includes
  /-- The attribute is the value, or goes on after it with a hyphen. -/
  | dashMatch
  /-- The attribute begins with the value. -/
  | frontMatch
  /-- The attribute ends with the value. -/
  | endMatch
  /-- The value occurs in the attribute. -/
  | occurs
  deriving Repr, DecidableEq

/-- The operator that a delimiter stands for. -/
def AttributeOperator.ofDelimiter? : Text → Option AttributeOperator
  | ['='] => some .equal
  | ['~', '='] => some .includes
  | ['|', '='] => some .dashMatch
  | ['^', '='] => some .frontMatch
  | ['$', '='] => some .endMatch
  | ['*', '='] => some .occurs
  | _ => none

/-- What an attribute selector asks of an attribute. -/
inductive AttributeCondition where
  | present
  | compared (operator : AttributeOperator) (value : Text)
  deriving Repr, DecidableEq

namespace AttributeCondition

/-- Whether a condition holds of no attribute. -/
def neverHolds : AttributeCondition → Bool
  | .present | .compared .equal _ | .compared .dashMatch _ => false
  | .compared .includes value => value.isEmpty || value.any Text.isBlank
  | .compared .frontMatch value | .compared .endMatch value | .compared .occurs value => value.isEmpty

/-- What can follow the value of an attribute: nothing, or a flag for its case.  Nothing more is looked
    at. -/
def isFlag (cs : List Component) : Bool :=
  match cs.dropWhile (·.isWhitespace) with
  | [] => true
  | c :: _ => c.keyword? = some "i" || c.keyword? = some "s"

/-- The value that an attribute is compared with, if a value and what can follow it stand here. -/
def value? (cs : List Component) : Option Text :=
  match cs.dropWhile (·.isWhitespace) with
  | .ident value :: cs | .string value _ :: cs => if isFlag cs then some value else none
  | _ => none

/-- Reads what can follow the name of an attribute: nothing, or an operator and a value. -/
def ofComponents? (cs : List Component) : Option AttributeCondition :=
  match cs.dropWhile (·.isWhitespace) with
  | [] => some .present
  | .literal delimiter :: cs =>
    match AttributeOperator.ofDelimiter? delimiter with
    | some operator => (value? cs).map (.compared operator)
    | none => none
  | _ => none

/-! ## Running the rule -/

example : (compared .includes "b".toList).neverHolds = false := by decide +kernel
example : (compared .includes " b".toList).neverHolds = true := by decide +kernel

end AttributeCondition

end CssShorthand
