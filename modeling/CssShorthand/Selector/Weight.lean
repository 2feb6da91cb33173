/-
  THE WEIGHT OF A TEXT OF SELECTORS.

  The components of a text become tokens from the inside out, the arguments of a functional pseudo-class
  before the selector that it stands in.  A text weighs what its most specific selector weighs; a text
  that is no list of selectors weighs nothing and gives a notice.
-/
import CssShorthand.Component.Nesting
import CssShorthand.Notice
import CssShorthand.Selector.Complex

namespace CssShorthand

namespace SelectorTokens

/-! ## Functional pseudo-classes -/

/-- The tokens after the word `of`, if it occurs, and how many components stand before it. -/
def selectorsOf (arguments : List Component) : List Component × Option Nat :=
  let before := arguments.takeWhile fun c => c.identName? != some ['o', 'f']
  (before, if before.length < arguments.length then some (before.length + 1) else none)

/-- A pseudo-class that counts elements, possibly only those that match selectors. -/
def countClass (name : String) (arguments : List Component) (ts : SelectorTokens) :
    SimpleSelector :=
  let (count, start) := selectorsOf arguments
  let selectors := match start with
    | some n => readList (ts.drop n)
    | none => some []
  match selectors with
  | some ss =>
    if Pseudo.isCount count && ss.all (·.isSupported) then .pseudoClass name else .unsupported
  | none => .unsupported

/-- The functional pseudo-class of a name, of which the arguments are given as components and as
    tokens; none if selectors among them cannot be read. -/
def readCall (name : String) (arguments : List Component) (ts : SelectorTokens) :
    Option SimpleSelector :=
  let logical (logic : Logic) (ss : List Selector) : SimpleSelector :=
    .logical logic (Selector.withoutPseudoElement ss)
  match name with
  | "not" => (readList ts).map (logical .negation)
  | "is" => some (logical .matching (readForgiving false ts))
  | "where" => some (logical .matchingUncounted (readForgiving false ts))
  | "has" => some (logical .relation (readForgiving true ts))
  | "lang" =>
    some (if Pseudo.isLanguages (Component.significant arguments) then .pseudoClass name
      else .unsupported)
  | name =>
    some (if Pseudo.counting.contains name then countClass name arguments ts else .unsupported)

end SelectorTokens

/-! ## From components to selectors -/

namespace SelectorToken

mutual

/-- The token of a component. -/
def ofComponent : Component → SelectorToken
  | .whitespace _ => .space
  | .comment _ => .comment
  | .literal text => ofDelimiter text
  | .ident name => .ident name
  | .hash name isIdentifier => .hash name isIdentifier
  | .block .square content => .attribute (ofBrackets content)
  | .function name arguments =>
    .call (SelectorTokens.readCall (SelectorTokens.lowerName name) arguments (ofComponents arguments))
  | _ => .other

/-- The tokens of components. -/
def ofComponents : List Component → List SelectorToken
  | [] => []
  | c :: cs => ofComponent c :: ofComponents cs

end

end SelectorToken

namespace Selector

/-- The selectors of a text, if it is a list of selectors and everything is known of them. -/
def parseList? (t : Text) : Option (List Selector) :=
  match SelectorTokens.readList (SelectorToken.ofComponents (Component.parseWithComments t)) with
  | some ss => if ss.all (·.isSupported) then some ss else none
  | none => none

/-- The weight of the most specific selector of a list, zero for a text that is no such list. -/
def weightOf (t : Text) : Nat × List Notice :=
  match parseList? t with
  | some ss => ((greatest ss).weight, [])
  | none => (0, [.invalidSelector t])

/-! ## Running the weights -/

example : (weightOf "#a .b, p::before".toList).1 = 110 := by decide +kernel
example : (weightOf "a:where(#b)".toList).1 = 1 := by decide +kernel   -- counts nothing but `a`
example : (weightOf "a :b".toList).1 = 0 := by decide +kernel          -- nothing is known of `:b`
example : (weightOf "a:hover :b".toList).1 = 21 := by decide +kernel   -- but here it is of no account

end Selector

end CssShorthand
