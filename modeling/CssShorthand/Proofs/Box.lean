/-
  THE SHORTEST VALUE OF A BOX.

  One to four values set the sides of a box.  Which values set given sides is a matter of the list alone
  (`Sides.ofList?`): of all the lists that set them, `Sides.minimal` is one of the shortest.  A value is
  a text, though, and the list is read off it: a row of solid values is cut into these values
  (`Component.split_join`), so that what holds of the lists holds of the texts.
-/
import CssShorthand.Box
import CssShorthand.Proofs.Component.Joined

namespace CssShorthand

namespace Sides

/-! ## Lists of values

  By cases on which of the four sides are equal.
-/

variable {α : Type} [DecidableEq α] {s : Sides α}

/-- No list that sets these sides is shorter. -/
theorem length_minimal_le {vs : List α} (h : ofList? vs = some s) : s.minimal.length ≤ vs.length := by
  match vs, h with
  | [a], h =>
    obtain rfl := Option.some.inj h
    simp [minimal]
  | [a, b], h =>
    -- left is as right and bottom as top
    obtain rfl := Option.some.inj h
    simp only [minimal, ne_eq, not_true_eq_false, if_false]
    split <;> simp
  | [a, b, c], h =>
    -- left is as right
    obtain rfl := Option.some.inj h
    simp only [minimal, ne_eq, not_true_eq_false, if_false]
    split
    · simp
    · split <;> simp
  | [a, b, c, d], h =>
    obtain rfl := Option.some.inj h
    unfold minimal
    split
    · simp
    · split
      · simp
      · split <;> simp

/-- What is written of four sides are sides. -/
theorem minimal_subset (s : Sides α) : s.minimal ⊆ s.toList := by
  unfold minimal toList
  split
  · exact List.Subset.refl _
  · split
    · simp
    · split <;> simp

/-! ## Rows of solid values

  Texts are cut into the values they were joined from, and the rest is about lists.
-/

/-- A row of solid values sets the sides that the list of them sets. -/
theorem ofValue_join {vs : List Text} (h : ∀ v ∈ vs, Component.Solid v) {s : Sides Text} :
    ofValue (Text.join [' '] vs) = .ok s ↔ ofList? vs = some s := by
  rw [ofValue, Component.split_join h]
  cases hs : ofList? vs with
  | none => simp
  | some t => simp

/-- **The box rule is inverted with the shortest row.**  The row of `minimal` sets the sides that it is
    made for, and no row of fewer values sets them. -/
theorem ofValue_minimal {s : Sides Text} (h : ∀ v ∈ s.toList, Component.Solid v) :
    ofValue (Text.join [' '] s.minimal) = .ok s ∧
      ∀ vs : List Text, (∀ v ∈ vs, Component.Solid v) →
        ofValue (Text.join [' '] vs) = .ok s → s.minimal.length ≤ vs.length := by
  have hminimal : ∀ v ∈ s.minimal, Component.Solid v := fun v hv => h v (minimal_subset s hv)
  constructor
  · exact (ofValue_join hminimal).mpr (ofList?_minimal s)
  · intro vs hvs hvalue
    exact length_minimal_le ((ofValue_join hvs).mp hvalue)

/-- A call, a string with a space, a list in brackets, and an escape that takes the space after it. -/
def assorted : Sides Text :=
  ⟨"calc(1px + (2px))".toList, "\"a b\"".toList, "[1 url(a)]".toList, "\\31 ".toList⟩

/-- Four sides of different kinds: each of them is solid, so that the law holds of them. -/
theorem assorted_ofValue_minimal :
    (∀ v ∈ assorted.toList, Component.Solid v) ∧
      ofValue (Text.join [' '] assorted.minimal) = .ok assorted ∧
      ∀ vs : List Text, (∀ v ∈ vs, Component.Solid v) →
        ofValue (Text.join [' '] vs) = .ok assorted → assorted.minimal.length ≤ vs.length := by
  have hsplit : ∀ v ∈ assorted.toList, Component.split v = [v] := by decide +kernel
  have hfault : ∀ v ∈ assorted.toList,
      ∀ l ∈ Component.flatList (Component.parse v), l.isFault = false := by
    decide +kernel
  have hsolid : ∀ v ∈ assorted.toList, Component.Solid v := fun v hv => ⟨hsplit v hv, hfault v hv⟩
  exact ⟨hsolid, ofValue_minimal hsolid⟩

end Sides

end CssShorthand
