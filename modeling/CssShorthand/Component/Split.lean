/-
  CUTTING A VALUE INTO ITS PARTS.

  A value is cut at its outermost white space.  White space in functions, blocks and strings cuts
  nothing, and a comment is no place to cut either: it is dropped before.
-/
import CssShorthand.Component.Nesting
import CssShorthand.Component.Writer

namespace CssShorthand

namespace Component

/-- Puts a component in front of the first group. -/
def joinFirst (c : Component) : List (List Component) → List (List Component)
  | [] => [[c]]
  | g :: gs => (c :: g) :: gs

/-- The groups of components between white space, none of them empty. -/
def groups : List Component → List (List Component)
  | [] => []
  | c :: cs =>
    if c.isWhitespace then groups cs
    else match cs with
      | [] => [[c]]
      | d :: _ => if d.isWhitespace then [c] :: groups cs else joinFirst c (groups cs)

/-- The parts of a value, each as it is written. -/
def split (value : Text) : List Text := (groups (parse value)).map writeList

/-- Whether a value has exactly one part. -/
def isSingle (value : Text) : Bool := (split value).length == 1

/-- No group is empty. -/
theorem groups_ne_nil (cs : List Component) : ∀ g ∈ groups cs, g ≠ [] := by
  fun_induction groups cs with
  | case1 => simp
  | case2 _ _ _ ih => exact ih
  | case3 => simp
  | case4 c _ d cs _ ih =>
    intro g hg
    rcases List.mem_cons.mp hg with rfl | hg
    · simp
    · exact ih g hg
  | case5 c _ d cs _ ih =>
    intro g hg
    cases hgs : groups (d :: cs) with
    | nil =>
      rw [hgs] at hg
      simp only [joinFirst, List.mem_singleton] at hg
      simp [hg]
    | cons h gs =>
      rw [hgs] at hg ih
      rcases List.mem_cons.mp hg with rfl | hg
      · simp
      · exact ih g (List.mem_cons_of_mem _ hg)

/-! ## Running the rule -/

example : split "1px rgb(0, 0, 0)".toList = ["1px".toList, "rgb(0, 0, 0)".toList] := by
  decide +kernel

end Component

end CssShorthand
