/-
  SLICING VALUES.

  `Part.locate` finds the first accepted place of a part in a value, and `slice` takes the parts of a
  table out one after the other.  Where a part was, a space is left; what remains in the end is
  written with single spaces.
-/
import CssShorthand.Slice.Part

namespace CssShorthand

/-- A place in a text: what is before it, what is at it, and what is after it. -/
structure Place where
  before : Text
  text : Text
  after : Text
  deriving Repr, DecidableEq

/-- The place one character further on. -/
def Place.push (c : Char) (p : Place) : Place := { p with before := c :: p.before }

namespace Part

/-- Matches a part at the start of `t`, up to a break: the text that it takes and what follows. -/
def matchAt? (p : Part) (afterBreak : Bool) (t : Text) : Option (Text × Text) :=
  if afterBreak || p.followsSlash then
    ((p.fullPattern.ends t).find? Text.atBreak).map fun r => (t.take (t.length - r.length), r)
  else none

/-- The first place where a part matches and is accepted.  The search goes on after a match that is not
    accepted, of which `skip` characters are still to be passed; `afterBreak` says that a word can
    begin here. -/
def locate (p : Part) : Nat → Bool → Text → Option Place
  | _, _, [] => none
  | skip + 1, _, c :: t => (locate p skip (Text.isBlank c) t).map (·.push c)
  | 0, afterBreak, c :: t =>
    match p.matchAt? afterBreak (c :: t) with
    | some (text, after) =>
      if p.accepts (p.content text) then some ⟨[], text, after⟩
      else (locate p (text.length - 1) (Text.isBlank c) t).map (·.push c)
    | none => (locate p 0 (Text.isBlank c) t).map (·.push c)

end Part

/-- The parts found in a value, by their suffixes, and what is left of the value. -/
structure Slices where
  found : List (String × Text)
  remaining : Text
  deriving Repr, DecidableEq

namespace Slices

/-- The text of a part, if it was found. -/
def get? (s : Slices) (suffix : String) : Option Text := s.found.lookup suffix

/-- Takes a part out of a value: the text of the part, if it is found, and the value left. -/
def takePart (value : Text) (p : Part) : Option Text × Text :=
  match p.locate 0 true value with
  | some place => (some (p.content place.text), place.before ++ ' ' :: place.after)
  | none => (none, value)

/-- Takes the parts out, one after the other. -/
def takeParts : Text → List Part → List (String × Text) × Text
  | value, [] => ([], value)
  | value, p :: ps =>
    let here := takePart value p
    let more := takeParts here.2 ps
    match here.1 with
    | some text => ((p.suffix, text) :: more.1, more.2)
    | none => more

end Slices

/-- Slices a value into parts. -/
def slice (value : Text) (parts : List Part) : Slices :=
  let taken := Slices.takeParts value parts
  ⟨taken.1, Text.collapse taken.2⟩

/-! ## Running the slices -/

example : (slice "url(a.png) left / auto 3".toList Part.background).remaining = ['3'] := by
  decide +kernel
example : (slice "left / auto".toList Part.background).get? "-size" = some "auto".toList := by
  decide +kernel

end CssShorthand
