/-
  EXPANSION: the longhands that a shorthand's value sets.

  A keyword that every property takes goes to every longhand.  The value of a box shorthand is read by
  the rule of the four sides, that of `font` by the grammar of fonts; the others are sliced, and what is
  left of them belongs to no longhand.
-/
import CssShorthand.Box
import CssShorthand.Font.Value
import CssShorthand.Notice
import CssShorthand.Slice
import CssShorthand.Store.Replace

namespace CssShorthand

/-- What a shorthand's value expands to. -/
inductive Expansion where
  /-- The value says all at once and cannot be split. -/
  | whole
  /-- Longhands with their values, and what of the value went to none of them. -/
  | longhands (entries : List (String × Text)) (ignored : Text)
  deriving Repr, DecidableEq

/-- The keyword for every property that a value consists of. -/
def cssWideKeyword? (value : Text) : Option String :=
  match Component.soleKeyword? (Component.significant (Component.parse value)) with
  | some k => if cssWideKeywords.contains k then some k else none
  | none => none

namespace Expansion

/-- The longhands of a sliced value, in the order of `names`. -/
def ofSlices (names : List (String × String)) (s : Slices) : Expansion :=
  .longhands (names.filterMap fun (suffix, name) => (s.get? suffix).map (name, ·)) s.remaining

/-- What a font value says of the part with this suffix. -/
def fontPart? (v : FontValues) (family : Option Text) : String → Option Text
  | "-style" => some v.style
  | "-variant" => some v.variant
  | "-weight" => some v.weight
  | "-size" => some v.size
  | "line-height" => some v.lineHeight
  | "-family" => family
  | _ => none

/-- The longhands of a font value, in the order of `names`. -/
def ofFont (names : List (String × String)) : FontReading → Expansion
  | .system => .whole
  | .parts v family =>
    .longhands (names.filterMap fun (suffix, name) => (fontPart? v family suffix).map (name, ·)) []

/-- What there is to say about an expansion. -/
def notices (name : String) (value : Text) : Expansion → List Notice
  | .whole => [.keptWhole name value]
  | .longhands _ ignored =>
    if ignored.isEmpty then [] else [.unknownComponent ignored name value]

end Expansion

namespace Shorthand

/-- The parts that a shorthand's value is sliced into. -/
def parts : Shorthand → List Part
  | .border | .borderSide _ => Part.border
  | .background => Part.background
  | .listStyle => Part.listStyle
  | .box _ | .font => []

/-- Expands a value that is no keyword for every property. -/
def expandOwn (s : Shorthand) (value : Text) : Except Failure Expansion :=
  match s with
  | .box b =>
    match Sides.ofValue value with
    | .ok sides => .ok (.longhands (b.longhands.zip sides) [])
    | .error e => .error e
  | .font =>
    match FontReading.ofValue value with
    | .ok reading => .ok (.ofFont s.longhandOf reading)
    | .error e => .error e
  | _ => .ok (.ofSlices s.longhandOf (slice value s.parts))

/-- The longhands that a value of a shorthand sets. -/
def expand (s : Shorthand) (value : Text) : Except Failure Expansion :=
  match cssWideKeyword? value with
  | some k => .ok (.longhands (s.longhands.map fun n => (n, k.toList)) [])
  | none => s.expandOwn value

end Shorthand

/-- Expands a value for the shorthand of a name. -/
def expandValue (name : String) (value : Text) : Except Failure Expansion :=
  match Shorthand.ofName? name with
  | some s => s.expand value
  | none => .error (.notShorthand name)

namespace Store

/-- Replaces the declaration of a shorthand by its longhands, which get its importance.  A name that is
    not declared and a value that cannot be split leave the store as it is. -/
def expand (s : Store) (name : String) : Except Failure (Store × List Notice) :=
  match s.get? name with
  | none => .ok (s, [])
  | some d =>
    match expandValue name d.value with
    | .error e => .error e
    | .ok .whole => .ok (s, Expansion.notices name d.value .whole)
    | .ok (.longhands entries ignored) =>
      match s.replace name (entries.map fun e => (e.1, .text e.2)) true with
      | .error e => .error e
      | .ok t => .ok (t, Expansion.notices name d.value (.longhands entries ignored))

end Store

end CssShorthand
