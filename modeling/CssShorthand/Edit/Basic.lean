/-
  EDITS OF A STORE.

  An edit works on a store, may fail, and says things along the way.  What it has said and done stays
  when it fails; `transaction` makes an edit all or nothing, while what it said stays said.
-/
import CssShorthand.Expansion

namespace CssShorthand

/-- The store that is worked on, and what was said so far. -/
structure Journal where
  store : Store
  notices : List Notice

/-- A piece of work on a store. -/
abbrev Edit := ExceptT Failure (StateM Journal)

namespace Edit

/-- Does the work on a store: the result, or why it failed, and the journal in either case. -/
def exec {α : Type} (e : Edit α) (j : Journal) : Except Failure α × Journal := (ExceptT.run e).run j

/-- The store as it is now. -/
def current : Edit Store := do return (← get).store

/-- Says something. -/
def say (notices : List Notice) : Edit Unit :=
  modify fun j => { j with notices := j.notices ++ notices }

/-- Changes the store. -/
def change (f : Store → Store) : Edit Unit := modify fun j => { j with store := f j.store }

/-- Changes the store by work that may fail; then the store stays as it is. -/
def attempt (f : Store → Except Failure (Store × List Notice)) : Edit Unit := do
  match f (← current) with
  | .ok (s, notices) =>
    change fun _ => s
    say notices
  | .error e => throw e

/-- Undoes all changes of the store if `body` fails. -/
def transaction {α : Type} (body : Edit α) : Edit α :=
  ExceptT.mk fun j =>
    match body.exec j with
    | (.ok a, after) => (.ok a, after)
    | (.error e, after) => (.error e, { after with store := j.store })

/-- Replaces a declaration by others. -/
def replace (name : String) (replacements : List (String × Value)) (keepImportance : Bool) :
    Edit Unit :=
  attempt fun s =>
    match s.replace name replacements keepImportance with
    | .ok t => .ok (t, [])
    | .error e => .error e

/-- Expands a shorthand, if it is declared. -/
def expand (name : String) : Edit Unit := attempt (·.expand name)

/-! ## Expanding all shorthands -/

/-- Expands `border` and the shorthands of its sides. -/
def expandBorders : Edit Unit := transaction (Shorthand.borders.forM fun s => expand s.name)

/-- Expands the box shorthands. -/
def expandBoxes : Edit Unit := transaction (BoxShorthand.all.forM fun b => expand b.name)

/-- Expands `font`. -/
def expandFont : Edit Unit := expand Shorthand.font.name

/-- Expands `background`. -/
def expandBackground : Edit Unit := expand Shorthand.background.name

/-- Expands `list-style`. -/
def expandListStyle : Edit Unit := expand Shorthand.listStyle.name

/-- Expands all shorthands, or none.  Borders come first: they expand into box shorthands. -/
def expandAll : Edit Unit :=
  transaction do
    expandBorders
    expandBoxes
    expandFont
    expandBackground
    expandListStyle

end Edit

end CssShorthand
