/-
  SPECIFICITIES.

  A specificity counts ids, then classes, then elements, and is compared in that order.  `weight` packs
  it into one number.
-/

namespace CssShorthand

/-- How specific a selector is. -/
structure Specificity where
  ids : Nat
  classes : Nat
  elements : Nat
  deriving Repr, DecidableEq

namespace Specificity

/-- Nothing counted. -/
def zero : Specificity := ⟨0, 0, 0⟩

/-- One id. -/
def oneId : Specificity := ⟨1, 0, 0⟩

/-- One class. -/
def oneClass : Specificity := ⟨0, 1, 0⟩

/-- One element. -/
def oneElement : Specificity := ⟨0, 0, 1⟩

/-- Counts what two selectors count together. -/
def add (a b : Specificity) : Specificity :=
  ⟨a.ids + b.ids, a.classes + b.classes, a.elements + b.elements⟩

/-- First by ids, then by classes, then by elements. -/
def lt (a b : Specificity) : Prop :=
  a.ids < b.ids ∨ (a.ids = b.ids ∧
    (a.classes < b.classes ∨ (a.classes = b.classes ∧ a.elements < b.elements)))

instance (a b : Specificity) : Decidable (a.lt b) := by
  unfold lt
  infer_instance

/-- The greater of two. -/
def max (a b : Specificity) : Specificity := if a.lt b then b else a

/-- One number for a specificity. -/
def weight (s : Specificity) : Nat := s.ids * 100 + s.classes * 10 + s.elements

end Specificity

end CssShorthand
