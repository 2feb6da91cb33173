/-
  COLORS.

  A text is a color if it is a single component of one of these forms: a color name, `#` with three,
  four, six or eight hexadecimal digits, or a call of `rgb`, `rgba`, `hsl` or `hsla` with arguments of
  the right kinds.  The size of the arguments does not matter.
-/
import CssShorthand.Component.Nesting

namespace CssShorthand

namespace Color

/-- The names of colors, with `transparent` and `currentcolor`. -/
def names : List String :=
  ["aliceblue", "antiquewhite", "aqua", "aquamarine", "azure", "beige", "bisque", "black",
   "blanchedalmond", "blue", "blueviolet", "brown", "burlywood", "cadetblue", "chartreuse",
   "chocolate", "coral", "cornflowerblue", "cornsilk", "crimson", "cyan", "darkblue", "darkcyan",
   "darkgoldenrod", "darkgray", "darkgreen", "darkgrey", "darkkhaki", "darkmagenta",
   "darkolivegreen", "darkorange", "darkorchid", "darkred", "darksalmon", "darkseagreen",
   "darkslateblue", "darkslategray", "darkslategrey", "darkturquoise", "darkviolet", "deeppink",
   "deepskyblue", "dimgray", "dimgrey", "dodgerblue", "firebrick", "floralwhite", "forestgreen",
   "fuchsia", "gainsboro", "ghostwhite", "gold", "goldenrod", "gray", "green", "greenyellow",
   "grey", "honeydew", "hotpink", "indianred", "indigo", "ivory", "khaki", "lavender",
   "lavenderblush", "lawngreen", "lemonchiffon", "lightblue", "lightcoral", "lightcyan",
   "lightgoldenrodyellow", "lightgray", "lightgreen", "lightgrey", "lightpink", "lightsalmon",
   "lightseagreen", "lightskyblue", "lightslategray", "lightslategrey", "lightsteelblue",
   "lightyellow", "lime", "limegreen", "linen", "magenta", "maroon", "mediumaquamarine",
   "mediumblue", "mediumorchid", "mediumpurple", "mediumseagreen", "mediumslateblue",
   "mediumspringgreen", "mediumturquoise", "mediumvioletred", "midnightblue", "mintcream",
   "mistyrose", "moccasin", "navajowhite", "navy", "oldlace", "olive", "olivedrab", "orange",
   "orangered", "orchid", "palegoldenrod", "palegreen", "paleturquoise", "palevioletred",
   "papayawhip", "peachpuff", "peru", "pink", "plum", "powderblue", "purple", "red", "rosybrown",
   "royalblue", "saddlebrown", "salmon", "sandybrown", "seagreen", "seashell", "sienna", "silver",
   "skyblue", "slateblue", "slategray", "slategrey", "snow", "springgreen", "steelblue", "tan",
   "teal", "thistle", "tomato", "turquoise", "violet", "wheat", "white", "whitesmoke", "yellow",
   "yellowgreen", "transparent", "currentcolor"]

/-- The kinds of arguments that colors are made of. -/
inductive Argument where
  | integer
  | number
  | percentage
  | other
  deriving Repr, DecidableEq

/-- The kind of one argument. -/
def Argument.of : Component → Argument
  | .number n => if (Numeral.ofText n).isInteger then .integer else .number
  | .percentage _ => .percentage
  | _ => .other

/-- Every second component, the first one included, if all others are commas; none if a comma stands
    first or last. -/
def betweenCommas? : List Component → Option (List Component)
  | [] => none
  | [c] => some [c]
  | c :: comma :: cs =>
    if comma.isDelimiter [','] then (betweenCommas? cs).map (c :: ·) else none

/-- Whether an argument is a number. -/
def Argument.isNumber (a : Argument) : Bool := a == .integer || a == .number

/-- Red, green and blue: three integers or three percentages. -/
def isRgb (arguments : List Argument) : Bool :=
  arguments == [.integer, .integer, .integer] ||
    arguments == [.percentage, .percentage, .percentage]

/-- Hue, saturation and lightness: a number and two percentages. -/
def isHsl : List Argument → Bool
  | [hue, saturation, lightness] =>
    hue.isNumber && saturation == .percentage && lightness == .percentage
  | _ => false

/-- Whether what follows the first three arguments is an opacity. -/
def isOpacity : List Argument → Bool
  | [a] => a.isNumber
  | _ => false

/-- Whether a function of this name makes a color of these arguments. -/
def isCall (name : String) (arguments : List Argument) : Bool :=
  match name with
  | "rgb" => isRgb arguments
  | "rgba" => isRgb (arguments.take 3) && isOpacity (arguments.drop 3)
  | "hsl" => isHsl arguments
  | "hsla" => isHsl (arguments.take 3) && isOpacity (arguments.drop 3)
  | _ => false

/-- Whether a component is a color. -/
def isComponent : Component → Bool
  | .ident name => names.contains (Text.toString (Text.lower name))
  | .hash name _ => [3, 4, 6, 8].contains name.length && name.all Name.isHexDigit
  | .function name arguments =>
    match betweenCommas? (Component.significant arguments) with
    | some cs => isCall (Text.toString (Text.lower name)) (cs.map Argument.of)
    | none => false
  | _ => false

/-- Whether a text is a color. -/
def isColor (t : Text) : Bool :=
  match Component.significant (Component.parse t) with
  | [c] => isComponent c
  | _ => false

end Color

end CssShorthand
