/-
  DECLARATIONS: the value of a property and whether it is important.
-/
import CssShorthand.Text.Blank

namespace CssShorthand

/-- The value that a property is given. -/
structure Declaration where
  value : Text
  important : Bool
  deriving Repr, DecidableEq

namespace Declaration

/-- What is written after the value of an important declaration. -/
def mark : Text := " !important".toList

/-- The text of a declaration: its value, with the mark if it is important. -/
def text (d : Declaration) : Text := if d.important then d.value ++ mark else d.value

end Declaration

/-- A property's name without the blanks at its ends: the form in which names are kept. -/
def trimName (name : String) : String := Text.toString (Text.trim (Text.ofString name))

/-- A trimmed name has nothing more to trim. -/
theorem trimName_idem (name : String) : trimName (trimName name) = trimName name := by
  simp [trimName, Text.toString, Text.ofString, Text.trim_idem]

end CssShorthand
