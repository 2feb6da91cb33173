/-
  THE FOUR SIDES OF A BOX.

  One to four values set the sides: with fewer than four, the bottom is as the top and the left as the
  right, and the right as the top.  `Sides.ofValue` reads a value by this rule, and `Sides.minimal` is
  the shortest list of values that sets given sides.
-/
import CssShorthand.Component.Split
import CssShorthand.Failure
import CssShorthand.Property

namespace CssShorthand

namespace Sides

/-- The sides that one to four values set. -/
def ofList? {α : Type} : List α → Option (Sides α)
  | [a] => some ⟨a, a, a, a⟩
  | [a, b] => some ⟨a, b, a, b⟩
  | [a, b, c] => some ⟨a, b, c, b⟩
  | [a, b, c, d] => some ⟨a, b, c, d⟩
  | _ => none

/-- The sides that the parts of a value set. -/
def ofValue (value : Text) : Except Failure (Sides Text) :=
  let parts := Component.split value
  match ofList? parts with
  | some sides => .ok sides
  | none => .error (.boxParts value parts.length)

/-- The shortest list of values that sets these sides. -/
def minimal {α : Type} [DecidableEq α] (s : Sides α) : List α :=
  if s.left ≠ s.right then [s.top, s.right, s.bottom, s.left]
  else if s.top ≠ s.bottom then [s.top, s.left, s.bottom]
  else if s.top ≠ s.left then [s.top, s.left]
  else [s.top]

theorem ofList?_eq_none_iff {α : Type} {parts : List α} :
    ofList? parts = none ↔ parts.length = 0 ∨ 4 < parts.length := by
  match parts with
  | [] | [_] | [_, _] | [_, _, _] | [_, _, _, _] => simp [ofList?]
  | _ :: _ :: _ :: _ :: _ :: _ => simp [ofList?]

/-- The shortest list sets the sides that it was made for. -/
theorem ofList?_minimal {α : Type} [DecidableEq α] (s : Sides α) :
    ofList? s.minimal = some s := by
  obtain ⟨t, r, b, l⟩ := s
  unfold minimal
  dsimp only
  split
  · rfl
  · split
    · simp_all [ofList?]
    · split <;> simp_all [ofList?]

/-! ## Running the rule -/

example : ofList? [1, 2, 3] = some ⟨1, 2, 3, 2⟩ := rfl                -- the left is as the right
example : minimal (⟨1, 2, 1, 2⟩ : Sides Nat) = [1, 2] := by decide
example : minimal (⟨1, 2, 1, 3⟩ : Sides Nat) = [1, 2, 1, 3] := by decide  -- left and right differ

end Sides

end CssShorthand
