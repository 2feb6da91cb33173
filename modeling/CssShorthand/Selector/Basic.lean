/-
  SELECTORS.

  A selector is kept as its compounds, each a list of simple selectors, whatever joins them, with its
  pseudo-element apart.  That is what its specificity depends on.

  Some selectors match nothing, and that can be told without a document (`neverMatches`).  What comes
  after such a compound is of no account, so that `isSupported` does not look at it.
-/
import CssShorthand.Selector.Attribute
import CssShorthand.Selector.Pseudo
import CssShorthand.Selector.Specificity

namespace CssShorthand

/-- What a functional pseudo-class does with the selectors that it is given. -/
inductive Logic where
  /-- Matches what none of them matches. -/
  | negation
  /-- Matches what one of them matches. -/
  | matching
  /-- The same, and counts nothing. -/
  | matchingUncounted
  /-- Matches what has a relative that one of them matches. -/
  | relation
  deriving Repr, DecidableEq

/-- A simple selector. -/
inductive SimpleSelector where
  | element (name : Text)
  /-- Matches what is in no namespace. -/
  | noNamespace
  | id (name : Text)
  | ofClass (name : Text)
  | attribute (condition : AttributeCondition)
  | pseudoClass (name : String)
  /-- A pseudo-class of several selectors, each given by its compounds. -/
  | logical (logic : Logic) (alternatives : List (List (List SimpleSelector)))
  /-- Well formed, but nothing is known of it. -/
  | unsupported
  deriving Repr

/-- Simple selectors of one element, all of which have to match. -/
abbrev SimpleSelectors := List SimpleSelector

/-- A selector. -/
structure Selector where
  compounds : List SimpleSelectors
  pseudoElement : Option String
  deriving Repr

namespace SimpleSelector

/-! ## What is counted -/

mutual

/-- What a simple selector counts.  Of several alternatives the greatest counts. -/
def specificity : SimpleSelector → Specificity
  | .element _ => .oneElement
  | .noNamespace => .zero
  | .id _ => .oneId
  | .ofClass _ | .attribute _ | .pseudoClass _ | .unsupported => .oneClass
  | .logical .matchingUncounted _ => .zero
  | .logical _ alternatives => greatest alternatives

/-- What the simple selectors of a compound count together. -/
def total : List SimpleSelector → Specificity
  | [] => .zero
  | s :: ss => s.specificity.add (total ss)

/-- What compounds count together. -/
def totalOfAll : List (List SimpleSelector) → Specificity
  | [] => .zero
  | c :: cs => (total c).add (totalOfAll cs)

/-- The greatest of what several alternatives count, zero if there is none. -/
def greatest : List (List (List SimpleSelector)) → Specificity
  | [] => .zero
  | cs :: rest => (totalOfAll cs).max (greatest rest)

end

/-! ## What matches nothing -/

/-- Whether these are the compounds of a selector for every element. -/
def isUniversal : List (List SimpleSelector) → Bool
  | [[]] => true
  | _ => false

mutual

/-- Whether a simple selector matches nothing, as far as it tells by itself.  A negation matches nothing
    if all that it excludes is everything. -/
def neverMatches : SimpleSelector → Bool
  | .attribute condition => condition.neverHolds
  | .pseudoClass name => Pseudo.neverMatching.contains name
  | .logical .negation alternatives => alternatives.all isUniversal
  | .logical .matching alternatives => noneMatches alternatives
  | .logical .matchingUncounted alternatives => noneMatches alternatives
  | _ => false

/-- Whether one of the simple selectors of a compound matches nothing. -/
def someNeverMatches : List SimpleSelector → Bool
  | [] => false
  | s :: ss => s.neverMatches || someNeverMatches ss

/-- Whether one of several compounds matches nothing. -/
def someCompoundNeverMatches : List (List SimpleSelector) → Bool
  | [] => false
  | c :: cs => someNeverMatches c || someCompoundNeverMatches cs

/-- Whether each of several alternatives matches nothing. -/
def noneMatches : List (List (List SimpleSelector)) → Bool
  | [] => true
  | cs :: rest => someCompoundNeverMatches cs && noneMatches rest

end

/-! ## What is known -/

mutual

/-- Whether everything is known of a simple selector and the selectors in it. -/
def isSupported : SimpleSelector → Bool
  | .unsupported => false
  | .logical _ alternatives => alternativesSupported alternatives
  | _ => true

/-- The same of each simple selector of a compound. -/
def allSupported : List SimpleSelector → Bool
  | [] => true
  | s :: ss => s.isSupported && allSupported ss

/-- The same of each compound, up to the first that matches nothing. -/
def compoundsSupported : List (List SimpleSelector) → Bool
  | [] => true
  | c :: cs => allSupported c && (someNeverMatches c || compoundsSupported cs)

/-- The same of alternatives. -/
def alternativesSupported : List (List (List SimpleSelector)) → Bool
  | [] => true
  | cs :: rest => compoundsSupported cs && alternativesSupported rest

end

end SimpleSelector

namespace Selector

/-- What a selector counts: its pseudo-element is an element. -/
def specificity (s : Selector) : Specificity :=
  (SimpleSelector.totalOfAll s.compounds).add
    (if s.pseudoElement.isSome then .oneElement else .zero)

/-- Whether everything that is of account is known of a selector. -/
def isSupported (s : Selector) : Bool := SimpleSelector.compoundsSupported s.compounds

/-- The compounds of those selectors that have no pseudo-element. -/
def withoutPseudoElement (ss : List Selector) : List (List SimpleSelectors) :=
  (ss.filter (·.pseudoElement.isNone)).map (·.compounds)

/-- The greatest specificity of several selectors. -/
def greatest : List Selector → Specificity
  | [] => .zero
  | s :: ss => s.specificity.max (greatest ss)

end Selector

end CssShorthand
