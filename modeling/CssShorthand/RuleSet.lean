/-
  RULE SETS: selectors with a block of declarations.

  Where a rule set comes from, and the specificity that is given for its selectors, are the caller's own
  data (of a type `ι`) and are handed back as they were.
-/
import CssShorthand.Block
import CssShorthand.Folding
import CssShorthand.Selector.Weight

namespace CssShorthand

/-- Where a rule set stands: an offset in a file. -/
structure Origin (ι : Type) where
  offset : ι
  filename : ι

/-- The selectors of a rule and its declarations. -/
structure RuleSet (ι : Type) where
  selectors : List Text
  declarations : Store
  origin : Option (Origin ι)
  /-- The specificity of all selectors; if there is none, that of each is found from its text. -/
  specificity : Option ι

/-- What the block of a rule set is made from. -/
inductive BlockSource where
  | nothing
  | store (s : Store)
  | text (t : Text)
  /-- Something of another type. -/
  | other (typeName : String)

/-- Why there is no such rule set. -/
inductive RuleSetError where
  | originIncomplete
  | notABlock (typeName : String)
  deriving Repr, DecidableEq

namespace RuleSetError

/-- What is said about it. -/
def message : RuleSetError → String
  | .originIncomplete => "Require both offset and filename or no offset and no filename"
  | .notABlock typeName => "Expected None, Declarations or string, got " ++ typeName

end RuleSetError

/-- How specific a selector is: as the caller says, or as its text does. -/
inductive Weight (ι : Type) where
  | given (x : ι)
  | computed (n : Nat)

/-- The selectors of a list with commas between, each with single spaces; empty ones are left out.  A
    comma within brackets divides too. -/
def selectorTexts (t : Text) : List Text :=
  ((t.splitOn ',').map Text.collapse).filter (!·.isEmpty)

namespace RuleSet

variable {ι : Type}

/-- The origin that an offset and a file make, which come together or not at all. -/
def originOf : Option ι → Option ι → Except RuleSetError (Option (Origin ι))
  | some offset, some filename => .ok (some ⟨offset, filename⟩)
  | none, none => .ok none
  | _, _ => .error .originIncomplete

/-- The store of a block, and what is said about the block. -/
def storeOf : BlockSource → Except RuleSetError (Store × List Notice)
  | .nothing => .ok (.empty, [])
  | .store s => .ok (s, [])
  | .text t => .ok (Block.parse t)
  | .other typeName => .error (.notABlock typeName)

/-- Makes a rule set. -/
def make (selectors : Text) (block : BlockSource) (offset filename specificity : Option ι) :
    Except RuleSetError (RuleSet ι × List Notice) :=
  match originOf offset filename with
  | .error e => .error e
  | .ok origin =>
    match storeOf block with
    | .error e => .error e
    | .ok (store, notices) => .ok (⟨selectorTexts selectors, store, origin, specificity⟩, notices)

/-- Works on the declarations of a rule set. -/
def edit {α : Type} (r : RuleSet ι) (e : Edit α) : Except Failure α × RuleSet ι × List Notice :=
  let done := e.exec ⟨r.declarations, []⟩
  (done.1, { r with declarations := done.2.store }, done.2.notices)

/-- The selectors with commas between. -/
def selectorList (r : RuleSet ι) : Text := Text.join [','] r.selectors

/-- The text of the declarations. -/
def declarationsText (r : RuleSet ι) (forceImportant : Bool) : Text :=
  r.declarations.text forceImportant

/-- Selectors, and declarations in braces. -/
def ruleText (selectors declarations : Text) : Text :=
  selectors ++ [' ', '{', ' '] ++ declarations ++ [' ', '}']

/-- The text of a rule set. -/
def text (r : RuleSet ι) : Text := ruleText r.selectorList (r.declarationsText false)

/-- A short description of a rule set. -/
def label (r : RuleSet ι) : Text := "<RuleSet ".toList ++ r.text ++ ['>']

/-- The text of a declaration with a semicolon, or nothing. -/
def valueText (r : RuleSet ι) (name : String) : Text :=
  match r.declarations.get? name with
  | some d => d.text ++ [';']
  | none => []

/-- How specific a selector of the rule set is, and what is said about it. -/
def weightOf (r : RuleSet ι) (selector : Text) : Weight ι × List Notice :=
  match r.specificity with
  | some x => (.given x, [])
  | none =>
    let weight := Selector.weightOf selector
    (.computed weight.1, weight.2)

/-- Each selector with its specificity, and what is said about them. -/
def weights (r : RuleSet ι) : List (Text × Weight ι) × List Notice :=
  let ws := r.selectors.map fun s => (s, r.weightOf s)
  (ws.map fun w => (w.1, w.2.1), ws.flatMap (·.2.2))

/-- Names, values and importance, in order. -/
def rows (r : RuleSet ι) : List (String × Text × Bool) :=
  r.declarations.entries.map fun e => (e.1, e.2.value, e.2.important)

end RuleSet

end CssShorthand
