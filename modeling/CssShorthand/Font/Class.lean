/-
  WHAT A COMPONENT CAN BE IN A FONT.

  One component can belong to several classes: `normal` is a style, a variant, a weight and a line
  height.  The order in which the classes are tried decides.
-/
import CssShorthand.Component.Basic
import CssShorthand.Property

namespace CssShorthand

namespace Component

/-- Whether a component stands for one of these keywords. -/
def isKeywordOf (keywords : List String) (c : Component) : Bool :=
  match c.keyword? with
  | some k => keywords.contains k
  | none => false

/-- A style of a font. -/
def isFontStyle (c : Component) : Bool := c.isKeywordOf fontStyles

/-- A variant of a font. -/
def isFontVariant (c : Component) : Bool := c.isKeywordOf fontVariants

/-- A weight of a font: a keyword or an integer from 100 to 900. -/
def isFontWeight : Component → Bool
  | .number n =>
    match (Numeral.ofText n).integer? with
    | some w => 100 ≤ w && w ≤ 900
    | none => false
  | c => c.isKeywordOf fontWeights

/-- A length, a percentage or zero. -/
def isLength : Component → Bool
  | .dimension _ unit => lengthUnits.contains (Text.toString (Text.lower unit))
  | .number n => (Numeral.ofText n).isZero
  | .percentage _ => true
  | _ => false

/-- A size of a font. -/
def isFontSize (c : Component) : Bool := c.isKeywordOf fontSizes || c.isLength

/-- A height of lines: a keyword, any number, a length or a percentage. -/
def isLineHeight : Component → Bool
  | .number _ => true
  | c => c.isKeywordOf lineHeights || c.isLength

/-- The slash before a height of lines. -/
def isSlash (c : Component) : Bool := c.isDelimiter ['/']

end Component

end CssShorthand
