/-
  STORES OF DECLARATIONS.

  A store holds one declaration for each declared name, in the order in which the names were first
  declared; that is also the order in which it is written.  Declaring a name again changes its
  declaration and keeps its place.  Names are kept trimmed, and every operation trims the name that it
  is given.

  `get?` is the view of a store, and each operation has its equation through it.
-/
import CssShorthand.Declaration.Value
import CssShorthand.Entries

namespace CssShorthand

/-- Declarations in order, at most one of each name. -/
structure Store where
  entries : Entries Declaration
  nodup_names : entries.names.Nodup
  trimName_of_mem : ∀ n ∈ entries.names, trimName n = n

namespace Store

/-- Nothing declared. -/
def empty : Store := ⟨[], by simp [Entries.names], by simp [Entries.names]⟩

/-- The declared names in order. -/
def names (s : Store) : List String := s.entries.names

/-- The number of declared names. -/
def size (s : Store) : Nat := s.entries.length

/-- The declaration of a name. -/
def get? (s : Store) (name : String) : Option Declaration := s.entries.find? (trimName name)

/-- Whether a name is declared. -/
def contains (s : Store) (name : String) : Bool := (s.get? name).isSome

/-- Declares a name. -/
def put (s : Store) (name : String) (d : Declaration) : Store where
  entries := s.entries.put (trimName name) d
  nodup_names := Entries.nodup_names_put s.nodup_names _ _
  trimName_of_mem := by
    intro n hn
    rw [Entries.names_put] at hn
    split at hn
    · exact s.trimName_of_mem n hn
    · rcases List.mem_append.mp hn with hn | hn
      · exact s.trimName_of_mem n hn
      · rw [List.mem_singleton.mp hn, trimName_idem]

/-- Takes the declaration of a name out. -/
def delete (s : Store) (name : String) : Store where
  entries := s.entries.erase (trimName name)
  nodup_names := Entries.nodup_names_erase s.nodup_names _
  trimName_of_mem := by
    intro n hn
    rw [Entries.names_erase] at hn
    exact s.trimName_of_mem n (List.mem_filter.mp hn).1

/-- Gives a name a value.  One that declares nothing takes the declaration of the name out. -/
def add (s : Store) (name : String) (v : Value) (important : Bool) : Store :=
  match v.declaration? important with
  | some d => s.put name d
  | none => s.delete name

/-- Gives names values in turn. -/
def addAll (s : Store) (l : List (String × Value)) : Store :=
  l.foldl (fun s e => s.add e.1 e.2 false) s

/-- The store made by giving names values in turn. -/
def ofList (l : List (String × Value)) : Store := empty.addAll l

/-- The declarations as values that make them again. -/
def toValues (s : Store) : List (String × Value) :=
  s.entries.map fun e => (e.1, .declaration e.2)

/-- Two stores are the same if they hold the same entries in the same order. -/
def same (s t : Store) : Bool := s.entries == t.entries

/-- One entry as it is written. -/
def entryText (forceImportant : Bool) (e : String × Declaration) : Text :=
  Text.ofString e.1 ++ [':', ' '] ++ e.2.value ++
    (if forceImportant || e.2.important then Declaration.mark else []) ++ [';']

/-- The text of a store: its entries with spaces between. -/
def text (s : Store) (forceImportant : Bool) : Text :=
  Text.join [' '] (s.entries.map (entryText forceImportant))

/-- A store is its entries; the rest are proofs. -/
theorem ext {s t : Store} (h : s.entries = t.entries) : s = t := by
  cases s
  cases t
  simpa using h

/-! ## The view -/

/-- A name that was put is looked up with its declaration; white space around it makes no difference. -/
theorem get?_put (s : Store) (name other : String) (d : Declaration) :
    (s.put name d).get? other = if trimName name = trimName other then some d else s.get? other :=
  Entries.find?_put _ _ _ _

/-- A deleted name is not found. -/
theorem get?_delete (s : Store) (name other : String) :
    (s.delete name).get? other = if trimName name = trimName other then none else s.get? other :=
  Entries.find?_erase _ _ _

/-- An added name is looked up with what is stored for the value, and not found if that is nothing. -/
theorem get?_add (s : Store) (name other : String) (v : Value) (important : Bool) :
    (s.add name v important).get? other =
      if trimName name = trimName other then v.declaration? important else s.get? other := by
  unfold add
  cases v.declaration? important with
  | some d => exact s.get?_put name other d
  | none => exact s.get?_delete name other

end Store

end CssShorthand
