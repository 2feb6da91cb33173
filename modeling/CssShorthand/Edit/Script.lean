/-
  SCRIPTS: edits and questions as data.

  A step is one thing to do to a store or to ask of it, and a transaction is a step made of steps.
  `Step.run` does it and gives the reply.
-/
import CssShorthand.Edit.Basic

namespace CssShorthand

/-- One thing to do to a store, or to ask of it. -/
inductive Step where
  | add (name : String) (value : Value) (important : Bool)
  | delete (name : String)
  /-- Takes a declaration out that has to be there. -/
  | remove (name : String)
  | replace (name : String) (replacements : List (String × Value)) (keepImportance : Bool)
  | expand (name : String)
  /-- All or none of the steps; with `aborts` none of them, after all are done. -/
  | transaction (steps : List Step) (aborts : Bool)
  | find (name : String)
  /-- Asks for a declaration that has to be there. -/
  | lookup (name : String)
  /-- Asks for the text of a declaration that has to be there. -/
  | lookupText (name : String)
  | contains (name : String)
  | names
  | size
  | text (forceImportant : Bool)
  | label
  /-- Compares with another store, or with something that is none. -/
  | equals (other : Option Store)
  /-- Compares with the store made by declaring everything again. -/
  | equalsCopy

/-- The answer to a step. -/
inductive Reply where
  | nothing
  | declaration (d : Declaration)
  | truth (b : Bool)
  | count (n : Nat)
  | text (t : Text)
  | names (names : List String)
  | replies (replies : List Reply)

namespace Store

/-- A short description of a store. -/
def label (s : Store) : Text := "<Declarations ".toList ++ s.text false ++ ['>']

/-- The declaration of a name that has to be declared. -/
def lookup (s : Store) (name : String) : Except Failure Declaration :=
  match s.get? name with
  | some d => .ok d
  | none => .error (.undeclared (trimName name))

end Store

namespace Reply

/-- The reply that is a declaration, or none. -/
def ofDeclaration? : Option Declaration → Reply
  | some d => .declaration d
  | none => .nothing

end Reply

namespace Step

/-- The reply of a step to a question about a store. -/
def ask (question : Store → Except Failure Reply) : Edit Reply := do
  match question (← Edit.current) with
  | .ok r => return r
  | .error e => throw e

/-- Does a piece of work that has no answer. -/
def work (e : Edit Unit) : Edit Reply := do
  e
  return .nothing

mutual

/-- Does a step. -/
def run : Step → Edit Reply
  | .add name value important => work (Edit.change (·.add name value important))
  | .delete name => do
    let r ← ask fun s => .ok (.ofDeclaration? (s.get? name))
    Edit.change (·.delete name)
    return r
  | .remove name => do
    let _ ← ask fun s => (s.lookup name).map .declaration
    work (Edit.change (·.delete name))
  | .replace name replacements keepImportance =>
    work (Edit.replace name replacements keepImportance)
  | .expand name => work (Edit.expand name)
  | .transaction steps aborts =>
    Edit.transaction do
      let rs ← runAll steps
      if aborts then throw .aborted else return .replies rs
  | .find name => ask fun s => .ok (.ofDeclaration? (s.get? name))
  | .lookup name => ask fun s => (s.lookup name).map .declaration
  | .lookupText name => ask fun s => (s.lookup name).map fun d => .text d.text
  | .contains name => ask fun s => .ok (.truth (s.contains name))
  | .names => ask fun s => .ok (.names s.names)
  | .size => ask fun s => .ok (.count s.size)
  | .text forceImportant => ask fun s => .ok (.text (s.text forceImportant))
  | .label => ask fun s => .ok (.text s.label)
  | .equals other => ask fun s => .ok (.truth (other.any s.same))
  | .equalsCopy => ask fun s => .ok (.truth (s.same (Store.ofList s.toValues)))

/-- Does steps in turn. -/
def runAll : List Step → Edit (List Reply)
  | [] => return []
  | step :: steps => do
    let r ← run step
    let rs ← runAll steps
    return r :: rs

end

end Step

end CssShorthand
