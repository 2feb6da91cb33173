/-
  PROPERTIES: the shorthands, the longhands they set, and the keywords of their values.

  Two kinds of shorthand.  A box shorthand sets one thing on the four sides of a box.  The others set
  several things, each named by a suffix (`-width`) that stands for a longhand (`border-top-width`);
  the longhands of `border` are box shorthands themselves.
-/

namespace CssShorthand

/-! ## Sides -/

/-- One thing for each of the four sides of a box. -/
structure Sides (α : Type) where
  top : α
  right : α
  bottom : α
  left : α
  deriving Repr, DecidableEq

namespace Sides

/-- Top, right, bottom, left: the order in which sides are written. -/
def toList {α : Type} (s : Sides α) : List α := [s.top, s.right, s.bottom, s.left]

/-- Applies a function side by side. -/
def map {α β : Type} (f : α → β) (s : Sides α) : Sides β :=
  ⟨f s.top, f s.right, f s.bottom, f s.left⟩

/-- The longhands of the sides, each with the value of its side. -/
def zip {α β : Type} (s : Sides α) (t : Sides β) : List (α × β) := s.toList.zip t.toList

end Sides

/-- A side of a box. -/
inductive Side where
  | top | right | bottom | left
  deriving Repr, DecidableEq

/-! ## Shorthands -/

/-- A shorthand for the four sides of a box. -/
inductive BoxShorthand where
  | margin | padding | borderColor | borderStyle | borderWidth
  deriving Repr, DecidableEq

namespace BoxShorthand

/-- All of them, in the order in which they are expanded and folded. -/
def all : List BoxShorthand := [.margin, .padding, .borderColor, .borderStyle, .borderWidth]

/-- The name of the property. -/
def name : BoxShorthand → String
  | .margin => "margin"
  | .padding => "padding"
  | .borderColor => "border-color"
  | .borderStyle => "border-style"
  | .borderWidth => "border-width"

/-- The longhands of the four sides. -/
def longhands : BoxShorthand → Sides String
  | .margin => ⟨"margin-top", "margin-right", "margin-bottom", "margin-left"⟩
  | .padding => ⟨"padding-top", "padding-right", "padding-bottom", "padding-left"⟩
  | .borderColor =>
    ⟨"border-top-color", "border-right-color", "border-bottom-color", "border-left-color"⟩
  | .borderStyle =>
    ⟨"border-top-style", "border-right-style", "border-bottom-style", "border-left-style"⟩
  | .borderWidth =>
    ⟨"border-top-width", "border-right-width", "border-bottom-width", "border-left-width"⟩

end BoxShorthand

/-- A shorthand property. -/
inductive Shorthand where
  | box (box : BoxShorthand)
  | border
  | borderSide (side : Side)
  | font
  | background
  | listStyle
  deriving Repr, DecidableEq

namespace Shorthand

/-- The shorthand `border` and those of its sides.  The first comes first: its longhands are box
    shorthands, and box shorthands are expanded after all of these. -/
def borders : List Shorthand :=
  [.border, .borderSide .left, .borderSide .right, .borderSide .top, .borderSide .bottom]

/-- All shorthands, in the order in which they are expanded. -/
def all : List Shorthand :=
  borders ++ BoxShorthand.all.map .box ++ [.font, .background, .listStyle]

/-- The name of the property. -/
def name : Shorthand → String
  | .box b => b.name
  | .border => "border"
  | .borderSide .top => "border-top"
  | .borderSide .right => "border-right"
  | .borderSide .bottom => "border-bottom"
  | .borderSide .left => "border-left"
  | .font => "font"
  | .background => "background"
  | .listStyle => "list-style"

/-- The shorthand of a name, which has to be exactly its name. -/
def ofName? (name : String) : Option Shorthand := all.find? (·.name == name)

/-- Every shorthand is found by its name. -/
theorem ofName?_name (s : Shorthand) : ofName? s.name = some s := by
  cases s with
  | box b => cases b <;> decide
  | borderSide d => cases d <;> decide
  | _ => decide

/-- What a shorthand that is no box sets: suffix and longhand, in the order in which the longhands are
    declared in its place. -/
def longhandOf : Shorthand → List (String × String)
  | .box _ => []
  | .border =>
    [("-width", "border-width"), ("-color", "border-color"), ("-style", "border-style")]
  | .borderSide .top =>
    [("-width", "border-top-width"), ("-color", "border-top-color"), ("-style", "border-top-style")]
  | .borderSide .right =>
    [("-width", "border-right-width"), ("-color", "border-right-color"),
     ("-style", "border-right-style")]
  | .borderSide .bottom =>
    [("-width", "border-bottom-width"), ("-color", "border-bottom-color"),
     ("-style", "border-bottom-style")]
  | .borderSide .left =>
    [("-width", "border-left-width"), ("-color", "border-left-color"),
     ("-style", "border-left-style")]
  | .font =>
    [("-style", "font-style"), ("-variant", "font-variant"), ("-weight", "font-weight"),
     ("-size", "font-size"), ("line-height", "line-height"), ("-family", "font-family")]
  | .background =>
    [("-color", "background-color"), ("-image", "background-image"),
     ("-repeat", "background-repeat"), ("-position", "background-position"),
     ("-size", "background-size"), ("-attachment", "background-attachment")]
  | .listStyle =>
    [("-type", "list-style-type"), ("-position", "list-style-position"),
     ("-image", "list-style-image")]

/-- The names of the longhands. -/
def longhands : Shorthand → List String
  | .box b => b.longhands.toList
  | s => s.longhandOf.map (·.2)

end Shorthand

/-! ## Longhands in the order in which they are folded -/

/-- The longhands folded into `background`. -/
def backgroundLonghands : List String :=
  ["background-color", "background-image", "background-repeat", "background-position",
   "background-size", "background-attachment"]

/-- The longhands folded into `list-style`. -/
def listStyleLonghands : List String :=
  ["list-style-type", "list-style-position", "list-style-image"]

/-- The box shorthands folded into `border`. -/
def borderBoxes : List String := ["border-width", "border-style", "border-color"]

/-! ## Keywords -/

/-- The keywords that every property takes. -/
def cssWideKeywords : List String := ["inherit", "initial", "unset"]

/-- Styles of a font. -/
def fontStyles : List String := ["normal", "italic", "oblique"]

/-- Variants of a font. -/
def fontVariants : List String := ["normal", "small-caps"]

/-- Weights of a font that are keywords; the others are the integers from 100 to 900. -/
def fontWeights : List String := ["normal", "bold", "bolder", "lighter"]

/-- Sizes of a font that are keywords. -/
def fontSizes : List String :=
  ["xx-small", "x-small", "small", "medium", "large", "x-large", "xx-large", "smaller", "larger",
   "inherit"]

/-- Line heights that are keywords. -/
def lineHeights : List String := ["normal", "inherit"]

/-- Fonts of the system: a value that says all of a font and cannot be split. -/
def systemFonts : List String :=
  ["caption", "icon", "menu", "message-box", "small-caption", "status-bar"]

/-- Units of length. -/
def lengthUnits : List String :=
  ["em", "ex", "ch", "rem", "vw", "vh", "vmin", "vmax", "cm", "mm", "q", "in", "pt", "pc", "px"]

/-- Styles of a border. -/
def borderStyles : List String :=
  ["none", "hidden", "dotted", "dashed", "solid", "double", "groove", "ridge", "inset", "outset"]

/-- Widths of a border that are keywords. -/
def borderWidths : List String := ["thin", "medium", "thick"]

/-- Marks of a list item. -/
def listStyleTypes : List String :=
  ["disc", "circle", "square", "decimal-leading-zero", "decimal", "lower-roman", "upper-roman",
   "lower-greek", "lower-alpha", "lower-latin", "upper-alpha", "upper-latin", "hebrew", "armenian",
   "georgian", "cjk-ideographic", "hiragana-iroha", "hiragana", "katakana-iroha", "katakana",
   "none"]

/-- Places of the mark of a list item. -/
def listStylePositions : List String := ["inside", "outside"]

/-- How a background moves with its box. -/
def backgroundAttachments : List String := ["scroll", "fixed", "local"]

/-- How a background repeats. -/
def backgroundRepeats : List String :=
  ["repeat-x", "repeat-y", "no-repeat", "repeat", "space", "round"]

/-- Positions of a background that are keywords. -/
def backgroundPositions : List String := ["left", "center", "right", "top", "bottom"]

/-- Sizes of a background that are keywords. -/
def backgroundSizes : List String := ["auto", "cover", "contain"]

end CssShorthand
