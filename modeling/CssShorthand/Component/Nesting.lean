/-
  FROM LEXEMES TO COMPONENTS.

  The lexemes are folded over a stack of what is open.  A closing bracket closes the innermost block
  or function if it is the one that this ends with; otherwise it stays in the list as a fault.  What
  is still open at the end of the text is closed there.

  `Component.parse` reads the components of a text with its comments dropped at every level,
  `parseWithComments` keeps them, and `parseFound` tells where each outermost component starts.
-/
import CssShorthand.Component.Lexeme

namespace CssShorthand

/-- What a closing bracket can close. -/
inductive Opening where
  | call (name : Text)
  | block (bracket : Bracket)
  deriving Repr, DecidableEq

namespace Opening

/-- The bracket that ends it. -/
def ending : Opening → Bracket
  | .call _ => .round
  | .block b => b

/-- The component that it makes with its content. -/
def component (content : List Component) : Opening → Component
  | .call name => .function name content
  | .block b => .block b content

end Opening

/-- Something open: how it was opened, where, and the components before it, last one first. -/
structure Frame where
  opening : Opening
  start : Text
  before : List (Found Component)
  deriving Repr

/-- The components read so far in the innermost open list, last one first, and what is open, the
    innermost first. -/
structure Nesting where
  current : List (Found Component)
  frames : List Frame
  deriving Repr

namespace Nesting

/-- Nothing read and nothing open. -/
def empty : Nesting := ⟨[], []⟩

/-- Adds a component to the innermost list. -/
def push (n : Nesting) (c : Component) (start : Text) : Nesting :=
  { n with current := ⟨c, start⟩ :: n.current }

/-- Opens a block or function. -/
def enter (n : Nesting) (o : Opening) (start : Text) : Nesting :=
  ⟨[], ⟨o, start, n.current⟩ :: n.frames⟩

/-- The components of the innermost list, in their order. -/
def content (n : Nesting) : List Component := n.current.reverse.map (·.item)

/-- Closes a frame, of which `inside` is the state within. -/
def close (inside : Nesting) (f : Frame) (frames : List Frame) : Nesting :=
  ⟨⟨f.opening.component inside.content, f.start⟩ :: f.before, frames⟩

/-- Takes the next lexeme in. -/
def step (n : Nesting) (l : Found Lexeme) : Nesting :=
  match l.item with
  | .leaf c => n.push c l.suffix
  | .call name => n.enter (.call name) l.suffix
  | .opened b => n.enter (.block b) l.suffix
  | .closed b =>
    match n.frames with
    | f :: frames =>
      if f.opening.ending = b then n.close f frames else n.push (.fault (.unmatched b)) l.suffix
    | [] => n.push (.fault (.unmatched b)) l.suffix

/-- Closes all that is still open: the outermost components, in their order. -/
def finish : List (Found Component) → List Frame → List (Found Component)
  | current, [] => current.reverse
  | current, f :: frames =>
    finish (⟨f.opening.component (current.reverse.map (·.item)), f.start⟩ :: f.before) frames

/-- The components that a list of lexemes makes. -/
def ofLexemes (ls : List (Found Lexeme)) : List (Found Component) :=
  let last := ls.foldl step empty
  finish last.current last.frames

end Nesting

/-- Whether a lexeme is a comment. -/
def Lexeme.isComment : Lexeme → Bool
  | .leaf c => c.isComment
  | _ => false

namespace Component

/-- The outermost components of a normalized text without its comments, with their places. -/
def parseFound (t : Text) : List (Found Component) :=
  Nesting.ofLexemes ((Lexeme.scan t).filter fun l => !l.item.isComment)

/-- The components of a text, without its comments. -/
def parse (t : Text) : List Component := (parseFound (Lexeme.normalize t)).map (·.item)

/-- The components of a text, comments among them. -/
def parseWithComments (t : Text) : List Component :=
  (Nesting.ofLexemes (Lexeme.scan (Lexeme.normalize t))).map (·.item)

end Component

end CssShorthand
