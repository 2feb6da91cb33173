/-
  THE PARTS THAT VALUES ARE SLICED INTO.

  A part of a shorthand's value is told by a pattern for whole words of the value; a color also has to
  be one.  The tables list the parts in the order in which they are looked for: what one part takes is
  gone for the next.
-/
import CssShorthand.Pattern
import CssShorthand.Property
import CssShorthand.Slice.Color

namespace CssShorthand

namespace Pattern

/-! ## Patterns of CSS values -/

/-- A decimal digit of any script. -/
def digit : Pattern := .char Text.isDigit

/-- A number without exponent. -/
def number : Pattern :=
  .seq (optional (.char fun c => c == '+' || c == '-'))
    (.either (all [.many digit, just '.', oneOrMore digit]) (oneOrMore digit))

/-- A number with a unit of length, or a bare zero. -/
def length : Pattern := .either (.seq number (keyword lengthUnits)) (just '0')

/-- A percentage or a length. -/
def lengthOrPercentage : Pattern := .either (.seq number (just '%')) length

/-- A text between two of these quotes, with blanks around. -/
def inQuotes (quote : Char) : Pattern :=
  all [maybeBlanks, just quote, .many (noneOf [quote]), just quote, maybeBlanks]

/-- A URL. -/
def url : Pattern :=
  all [.word ['u', 'r', 'l'], just '(',
    oneOf [inQuotes '"', inQuotes '\'', .many (noneOf [')'])], just ')']

/-- Arguments in round brackets, of which one level may hold brackets again. -/
def arguments : Pattern :=
  all [just '(',
    .many (.either (noneOf ['(', ')'])
      (all [just '(', .many (noneOf ['(', ')']), just ')'])),
    just ')']

/-- A gradient. -/
def gradient : Pattern :=
  all [optional (all [just '-', oneOrMore letter, just '-']),
    optional (.word "repeating-".toList), keyword ["linear", "radial", "conic"],
    .word "-gradient".toList, arguments]

/-- A call of a function. -/
def call : Pattern := .seq (oneOrMore (.either letter (just '-'))) arguments

/-- What may be a color. -/
def colorLike : Pattern := oneOf [call, .seq (just '#') (oneOrMore hexDigit), oneOrMore letter]

/-- One `p`, or up to `n + 1` of them with blanks between. -/
def listOf (n : Nat) (p : Pattern) : Pattern := .seq p (upTo n (.seq blanks p))

/-- One size of a background. -/
def backgroundSize : Pattern := .either lengthOrPercentage (keyword backgroundSizes)

/-- One position of a background. -/
def backgroundPosition : Pattern := .either lengthOrPercentage (keyword backgroundPositions)

end Pattern

/-- A part of a shorthand's value. -/
structure Part where
  /-- The name of the part: with the name of the shorthand before it, that of a longhand. -/
  suffix : String
  pattern : Pattern
  /-- Whether the part is a color: then its text has to be one. -/
  isColor : Bool
  /-- Whether the part stands after a slash, which is no part of it.  The slash may stand anywhere,
      all other parts begin where a word does. -/
  followsSlash : Bool

namespace Part

/-- A part that is told by its pattern alone. -/
def plain (suffix : String) (pattern : Pattern) : Part := ⟨suffix, pattern, false, false⟩

/-- The part that is a color. -/
def color : Part := ⟨"-color", .colorLike, true, false⟩

/-- The part that is the size of a background. -/
def size : Part := ⟨"-size", .listOf 1 .backgroundSize, false, true⟩

/-- The pattern of a part with the slash that it follows. -/
def fullPattern (p : Part) : Pattern :=
  if p.followsSlash then .all [.just '/', .maybeBlanks, p.pattern] else p.pattern

/-- Whether the text of a part is accepted. -/
def accepts (p : Part) (text : Text) : Bool := !p.isColor || Color.isColor text

/-- What a match says of the part: its text without the slash. -/
def content (p : Part) (text : Text) : Text :=
  if p.followsSlash then Text.trim (text.drop 1) else text

/-- The parts of `background`. -/
def background : List Part :=
  [plain "-image" (.oneOf [.url, .gradient, .word "none".toList]),
   plain "-attachment" (.keyword backgroundAttachments),
   plain "-repeat" (.listOf 1 (.keyword backgroundRepeats)),
   color,
   size,
   plain "-position" (.listOf 3 .backgroundPosition)]

/-- The parts of `border` and of the shorthands of its sides. -/
def border : List Part :=
  [plain "-width" (.either .length (.keyword borderWidths)),
   color,
   plain "-style" (.keyword borderStyles)]

/-- The parts of `list-style`. -/
def listStyle : List Part :=
  [plain "-type" (.keyword listStyleTypes),
   plain "-position" (.keyword listStylePositions),
   plain "-image" (.either .url (.word "none".toList))]

end Part

end CssShorthand
