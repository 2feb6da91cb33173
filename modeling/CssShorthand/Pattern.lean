/-
  PATTERNS.

  A pattern matches a front of a text, often in several ways; `ends` lists what each way leaves of the
  text, the preferred way first.  Of two alternatives the first is preferred, and of repetitions the
  longer.  Words match in any case of their letters (`Text.foldCase`).
-/
import CssShorthand.Text.Blank
import CssShorthand.Text.Case
import CssShorthand.Text.Digit

namespace CssShorthand

/-- A pattern for a front of a text. -/
inductive Pattern where
  /-- Nothing. -/
  | empty
  /-- One character of a class. -/
  | char (isIn : Char → Bool)
  /-- A word, in any case. -/
  | word (text : Text)
  /-- One after the other. -/
  | seq (first second : Pattern)
  /-- The first, or else the second. -/
  | either (first second : Pattern)
  /-- As often as possible, also not at all. -/
  | many (body : Pattern)

namespace Pattern

/-- What is left after as many steps as possible, then after fewer; a step that takes nothing is not
    repeated. -/
def repeated (step : Text → List Text) (t : Text) : List Text :=
  ((step t).flatMap fun r => if _h : r.length < t.length then repeated step r else []) ++ [t]
termination_by t.length

/-- What each way to match leaves of the text, the preferred way first. -/
def ends : Pattern → Text → List Text
  | .empty, t => [t]
  | .char _, [] => []
  | .char isIn, c :: t => if isIn c then [t] else []
  | .word w, t => (Text.dropFolded? w t).toList
  | .seq p q, t => (ends p t).flatMap (ends q)
  | .either p q, t => ends p t ++ ends q t
  | .many p, t => repeated (ends p) t

/-! ## Compound patterns -/

/-- Matches nowhere. -/
def never : Pattern := .char fun _ => false

/-- The first of several that matches. -/
def oneOf (ps : List Pattern) : Pattern := ps.foldr .either never

/-- All of several, one after the other. -/
def all (ps : List Pattern) : Pattern := ps.foldr .seq .empty

/-- Once or not at all. -/
def optional (p : Pattern) : Pattern := .either p .empty

/-- At least once, as often as possible. -/
def oneOrMore (p : Pattern) : Pattern := .seq p (.many p)

/-- Up to `n` times. -/
def upTo : Nat → Pattern → Pattern
  | 0, _ => .empty
  | n + 1, p => optional (.seq p (upTo n p))

/-- This character. -/
def just (c : Char) : Pattern := .char (· == c)

/-- Any character but these. -/
def noneOf (cs : List Char) : Pattern := .char fun c => !cs.contains c

/-- One of several keywords, in any case. -/
def keyword (keywords : List String) : Pattern := oneOf (keywords.map fun k => .word k.toList)

/-- Blanks, at least one. -/
def blanks : Pattern := oneOrMore (.char Text.isBlank)

/-- Blanks or nothing. -/
def maybeBlanks : Pattern := .many (.char Text.isBlank)

/-- A letter from a to z, in any case. -/
def letter : Pattern := .char fun c => 'a' ≤ Text.foldCase c && Text.foldCase c ≤ 'z'

/-- A digit, or a letter from a to f in any case. -/
def hexDigit : Pattern :=
  .char fun c => c.isDigit || ('a' ≤ Text.foldCase c && Text.foldCase c ≤ 'f')

end Pattern

end CssShorthand
