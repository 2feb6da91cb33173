/-
  FOLDING: writing longhands as a shorthand again.

  Important declarations are never folded, because the importance of a shorthand is that of all its
  longhands.  A fold takes the longhands out and writes the shorthand, with values that the expansion
  reads back as they were.
-/
import CssShorthand.Edit.Basic

namespace CssShorthand

namespace Folding

/-- The keyword for every property that all values are. -/
def sharedKeyword? : List Text → Option Text
  | [] => none
  | v :: vs =>
    let k := Text.lower v
    if cssWideKeywords.contains (Text.toString k) && vs.all (Text.lower · == k) then some k else none

/-- Values with spaces between. -/
def joined (values : List Text) : Text := Text.join [' '] values

/-- Takes longhands out and declares a shorthand. -/
def write (longhands : List String) (shorthand : String) (value : Text) (s : Store) : Store :=
  (longhands.foldl Store.delete s).add shorthand (.text value) false

/-- What folding does to a store, and what there is to say about it. -/
abbrev Result := Store × List Notice

/-- The declarations of all these names if they can be folded: each is declared and none is
    important. -/
def allOf (s : Store) (names : List String) (shorthand : String) :
    Option (List Declaration) × List Notice :=
  match names.mapM s.get? with
  | none => (none, [])
  | some ds => if ds.any (·.important) then (none, [.keptLonghands shorthand]) else (some ds, [])

/-! ## Folding what is there -/

/-- The names that are declared and not important, each with its value. -/
def available (s : Store) (names : List String) : Entries Text :=
  Entries.ofList (names.filterMap fun n =>
    match s.get? n with
    | some d => if d.important then none else some (n, d.value)
    | none => none)

/-- What is said of the names that stay because they are important. -/
def keptOut (s : Store) (names : List String) (shorthand : String) : List Notice :=
  names.filterMap fun n =>
    match s.get? n with
    | some d => if d.important then some (.keptOut n shorthand) else none
    | none => none

/-- Folds those of the longhands that are declared and not important, if there are at least two. -/
def foldAvailable (longhands : List String) (shorthand : String) (s : Store) : Result :=
  let found := available s longhands
  let values := found.map (·.2)
  let notices := keptOut s longhands shorthand
  if found.length < 2 then (s, notices)
  else
    let keyword := if found.length = longhands.length then sharedKeyword? values else none
    (write found.names shorthand (keyword.getD (joined values)) s, notices)

/-! ## The shorthands -/

/-- The position that a size of a background follows if none is declared. -/
def initialPosition : Text := "0% 0%".toList

/-- Writes the slash before the size of a background, unless the size is a keyword for every
    property. -/
def slashSize (size : Declaration) (s : Store) : Store :=
  match sharedKeyword? [size.value] with
  | some _ => s
  | none => s.put "background-size" { size with value := ['/', ' '] ++ size.value }

/-- Folds the longhands of `background`.  In the shorthand a size follows a position and a slash, so
    that a size that is folded needs a position, and is left out if the position is important. -/
def foldBackground (s : Store) : Result :=
  match s.get? "background-size" with
  | none => foldAvailable backgroundLonghands "background" s
  | some size =>
    if size.important then foldAvailable backgroundLonghands "background" s
    else match s.get? "background-position" with
      | none =>
        let placed := s.add "background-position" (.text initialPosition) false
        foldAvailable backgroundLonghands "background" (slashSize size placed)
      | some position =>
        if position.important then
          let r := foldAvailable (backgroundLonghands.filter (· != "background-size")) "background" s
          (r.1, .keptSize :: r.2)
        else foldAvailable backgroundLonghands "background" (slashSize size s)

/-- Folds the longhands of the four sides of a box into the shortest value. -/
def foldBox (b : BoxShorthand) (s : Store) : Result :=
  match allOf s b.longhands.toList b.name with
  | (some [top, right, bottom, left], notices) =>
    let sides : Sides Text := ⟨top.value, right.value, bottom.value, left.value⟩
    (write b.longhands.toList b.name (joined sides.minimal) s, notices)
  | (_, notices) => (s, notices)

/-- Folds the longhands of all boxes, if there are enough declarations for one box. -/
def foldBoxes (s : Store) : Result :=
  if s.size < 4 then (s, [])
  else BoxShorthand.all.foldl (fun r b =>
    let next := foldBox b r.1
    (next.1, r.2 ++ next.2)) (s, [])

/-- Folds the box shorthands of the border.  A value for different sides cannot be folded. -/
def foldBorder (s : Store) : Result :=
  match allOf s borderBoxes "border" with
  | (some ds, notices) =>
    let values := ds.map (·.value)
    if values.all Component.isSingle then
      (write borderBoxes "border" ((sharedKeyword? values).getD (joined values)) s, notices)
    else (s, notices)
  | (none, notices) => (s, notices)

/-- The longhands of `font`. -/
def fontLonghands : List String := Shorthand.font.longhands

/-- The value of `font` that sets these values: what is `normal` is left out, but for the size and the
    family. -/
def fontValue (v : FontValues) (family : Text) : Text :=
  let normal := "normal".toList
  let size := if v.lineHeight = normal then v.size else v.size ++ '/' :: v.lineHeight
  Text.collapse (joined ([v.style, v.variant, v.weight].filter (· != normal) ++ [size, family]))

/-- Folds the longhands of `font`, if all are declared. -/
def foldFont (s : Store) : Result :=
  match allOf s fontLonghands "font" with
  | (some ds, notices) =>
    match ds.map (·.value) with
    | [style, variant, weight, size, lineHeight, family] =>
      let own := fontValue ⟨style, variant, weight, size, lineHeight⟩ family
      let shared := sharedKeyword? [style, variant, weight, size, lineHeight, family]
      (write fontLonghands "font" (shared.getD own) s, notices)
    | _ => (s, notices)
  | (none, notices) => (s, notices)

/-- Folds the longhands of `list-style`. -/
def foldListStyle (s : Store) : Result := foldAvailable listStyleLonghands "list-style" s

end Folding

namespace Edit

/-- Does a fold. -/
def fold (f : Store → Folding.Result) : Edit Unit := attempt fun s => .ok (f s)

/-- Folds all that can be folded.  The border comes after the boxes that it is made of. -/
def foldAll : Edit Unit := do
  fold Folding.foldBackground
  fold Folding.foldBoxes
  fold Folding.foldBorder
  fold Folding.foldFont
  fold Folding.foldListStyle

end Edit

end CssShorthand
