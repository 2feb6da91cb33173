/-
  SETS OF CHARACTERS GIVEN BY RANGES.

  The properties of Unicode that texts depend on are tables of ranges of code points, ends included.
-/

namespace CssShorthand

namespace Text

/-- A set of code points: the ranges `(first, last)` that make it up. -/
abbrev Ranges := List (Nat × Nat)

/-- Whether a character lies in one of the ranges. -/
def Ranges.contains (table : Ranges) (c : Char) : Bool :=
  table.any fun (first, last) => first ≤ c.toNat && c.toNat ≤ last

end Text

end CssShorthand
