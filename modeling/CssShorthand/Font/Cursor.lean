/-
  A CURSOR OVER COMPONENTS.

  It only goes forward.  White space and comments are passed over when the next component is looked
  for, but stay in the list, so that what is left can be written as it stood.

  The lemmas say that a cursor keeps its list, never goes back, and that a component taken is the next
  significant one of what was left.
-/
import CssShorthand.Component.Writer

namespace CssShorthand

/-- A list of components and how many of them are passed. -/
structure Cursor where
  components : List Component
  position : Nat
  position_le : position ≤ components.length

namespace Cursor

/-- The cursor before the first component. -/
def start (cs : List Component) : Cursor := ⟨cs, 0, Nat.zero_le _⟩

/-- The components that are left. -/
def rest (c : Cursor) : List Component := c.components.drop c.position

/-- Passes over `n` components, at most all that are left. -/
def advance (c : Cursor) (n : Nat) : Cursor :=
  ⟨c.components, min (c.position + n) c.components.length, Nat.min_le_right _ _⟩

/-- Passes over white space and comments. -/
def skip (c : Cursor) : Cursor := c.advance (c.rest.takeWhile (·.isSeparator)).length

/-- The next significant component, found by passing over what is before it. -/
def peek (c : Cursor) : Option Component × Cursor := (c.skip.rest.head?, c.skip)

/-- Takes the next significant component if it satisfies `p`; what is before it is passed over in any
    case. -/
def consume (p : Component → Bool) (c : Cursor) : Option Component × Cursor :=
  match c.skip.rest with
  | d :: _ => if p d then (some d, c.skip.advance 1) else (none, c.skip)
  | [] => (none, c.skip)

/-- Takes all that is left, as it is written. -/
def consumeRest (c : Cursor) : Text × Cursor :=
  (Component.writeTrimmed c.rest, c.advance c.rest.length)

/-! ## Where a cursor goes -/

/-- Going on drops as many components from the rest. -/
theorem rest_advance (c : Cursor) (n : Nat) : (c.advance n).rest = c.rest.drop n := by
  simp only [rest, advance, List.drop_drop]
  rcases Nat.le_total (c.position + n) c.components.length with h | h
  · rw [Nat.min_eq_left h]
  · rw [Nat.min_eq_right h, List.drop_of_length_le h, List.drop_length]

/-- What is left begins with a significant component after a skip, and nothing significant is lost. -/
theorem rest_skip (c : Cursor) : c.skip.rest = c.rest.dropWhile (·.isSeparator) := by
  rw [skip, rest_advance]
  generalize c.rest = cs
  induction cs with
  | nil => rfl
  | cons d cs ih => cases h : d.isSeparator <;> simp [h, ih]

/-- A component taken is the next significant one. -/
theorem rest_of_consume {p : Component → Bool} {c c' : Cursor} {d : Component}
    (h : c.consume p = (some d, c')) : c.skip.rest = d :: c'.rest ∧ p d = true := by
  unfold consume at h
  split at h
  · rename_i e es he
    split at h
    · rename_i hp
      simp only [Prod.mk.injEq, Option.some.injEq] at h
      obtain ⟨rfl, rfl⟩ := h
      simp [rest_advance, he, hp]
    · simp at h
  · simp at h

/-- A cursor that took a component has less left. -/
theorem length_rest_of_consume {p : Component → Bool} {c c' : Cursor} {d : Component}
    (h : c.consume p = (some d, c')) : c'.rest.length < c.rest.length := by
  have h₁ := congrArg List.length (rest_of_consume h).1
  rw [rest_skip] at h₁
  have h₂ := (List.dropWhile_sublist (l := c.rest) (·.isSeparator)).length_le
  simp only [List.length_cons] at h₁
  omega

end Cursor

end CssShorthand
