/-
  SELECTORS AND LISTS OF SELECTORS.

  A selector is one compound after another, joined by combinators or white space; a list has commas
  between its selectors.  Where a list forgives mistakes, a selector that cannot be read is dropped and
  the next one is looked for in what is left.

  The lemmas say that reading a selector leaves no more tokens than it was given, so that the rest of a
  list after a comma is shorter than the list.
-/
import CssShorthand.Selector.Compound

namespace CssShorthand

namespace SelectorTokens

/-! ## Selectors -/

/-- What follows white space and comments. -/
def skip (ts : SelectorTokens) : SelectorTokens := ts.dropWhile (·.isSkipped)

/-- Where the next compound of a selector begins, if there is one: after a combinator, or after white
    space. -/
def afterJoin? (ts : SelectorTokens) : Option SelectorTokens :=
  match skip ts with
  | [] => none
  | .comma :: _ => none
  | .combinator :: us => some us
  | us => if (ts.takeWhile (·.isSkipped)).any (·.isSpace) then some us else none

theorem skip_length_le (ts : SelectorTokens) : (skip ts).length ≤ ts.length :=
  (List.dropWhile_sublist _).length_le

/-- The next compound begins behind what joins it. -/
theorem afterJoin?_length_le {ts us : SelectorTokens} (h : afterJoin? ts = some us) :
    us.length ≤ ts.length := by
  have hs := skip_length_le ts
  unfold afterJoin? at h
  split at h
  · simp at h
  · simp at h
  · rename_i hu
    simp only [Option.some.injEq] at h
    subst h
    rw [hu, List.length_cons] at hs
    omega
  · split at h
    · simp only [Option.some.injEq] at h
      exact h ▸ hs
    · simp at h

/-- Reads on after the compound `c`, before which others were read.  A pseudo-element ends the
    selector. -/
def readMore (before : List SimpleSelectors) (c : Compound) (ts : SelectorTokens) :
    Reading Selector :=
  let compounds := before ++ [c.simples]
  if c.pseudoElement.isSome then ⟨some ⟨compounds, c.pseudoElement⟩, skip ts⟩
  else
    match _hj : afterJoin? ts with
    | none => ⟨some ⟨compounds, c.pseudoElement⟩, skip ts⟩
    | some us =>
      match _hr : readCompound us with
      | ⟨none, rest⟩ => .wrong rest
      | ⟨some d, rest⟩ => readMore compounds d rest
termination_by ts.length
decreasing_by
  have h₁ := afterJoin?_length_le _hj
  have h₂ : (readCompound us).rest.length < us.length := readCompound_rest_lt (c := d) (by rw [_hr])
  rw [_hr] at h₂
  dsimp only at h₂
  omega

/-- Reads a selector.  A relative one may begin with a combinator. -/
def readSelector (isRelative : Bool) (ts : SelectorTokens) : Reading Selector :=
  let start :=
    match isRelative, skip ts with
    | true, .combinator :: us => skip us
    | _, us => us
  match readCompound start with
  | ⟨none, rest⟩ => .wrong rest
  | ⟨some c, rest⟩ => readMore [] c rest

/-- Reading on takes from the front: one step for each compound that follows. -/
theorem readMore_rest_le (before : List SimpleSelectors) (c : Compound) (ts : SelectorTokens) :
    (readMore before c ts).rest.length ≤ ts.length := by
  fun_induction readMore before c ts with
  | case1 => exact skip_length_le _
  | case2 => exact skip_length_le _
  | case3 before c ts _ us hj rest hr =>
    have h₁ := afterJoin?_length_le hj
    have h₂ := readCompound_rest_le us
    rw [hr] at h₂
    exact Nat.le_trans h₂ h₁
  | case4 before c ts _ _ us hj d rest hr ih =>
    have h₁ := afterJoin?_length_le hj
    have h₂ := readCompound_rest_le us
    rw [hr] at h₂
    exact Nat.le_trans ih (Nat.le_trans h₂ h₁)

/-- A selector leaves no more than it was given, also behind a combinator at its start. -/
theorem readSelector_rest_le (isRelative : Bool) (ts : SelectorTokens) :
    (readSelector isRelative ts).rest.length ≤ ts.length := by
  have hs := skip_length_le ts
  unfold readSelector
  dsimp only
  generalize hstart : (match isRelative, skip ts with
    | true, .combinator :: us => skip us
    | _, us => us) = start
  have hl : start.length ≤ ts.length := by
    rw [← hstart]
    split
    · rename_i us hu
      rw [hu, List.length_cons] at hs
      have := skip_length_le us
      omega
    · exact hs
  have hc := readCompound_rest_le start
  split
  · rename_i h
    rw [h] at hc
    exact Nat.le_trans hc hl
  · rename_i h
    rw [h] at hc
    exact Nat.le_trans (readMore_rest_le _ _ _) (Nat.le_trans hc hl)

/-! ## Lists of selectors -/

/-- Reads selectors with commas between, and nothing else. -/
def readList (ts : SelectorTokens) : Option (List Selector) :=
  match _h : readSelector false ts with
  | ⟨some s, []⟩ => some [s]
  | ⟨some s, .comma :: us⟩ => (readList us).map (s :: ·)
  | _ => none
termination_by ts.length
decreasing_by
  have := readSelector_rest_le false ts
  rw [_h, List.length_cons] at this
  omega

/-- Reads the selectors after commas.  One that cannot be read is dropped, and so is what stands where a
    comma should. -/
def readOthers (isRelative : Bool) : SelectorTokens → List Selector
  | [] => []
  | .comma :: ts =>
    match _h : readSelector isRelative ts with
    | ⟨some s, rest⟩ => s :: readOthers isRelative rest
    | ⟨none, rest⟩ => readOthers isRelative rest
  | _ :: ts => readOthers isRelative ts
termination_by ts => ts.length
decreasing_by
  · have := readSelector_rest_le isRelative ts
    rw [_h] at this
    exact Nat.lt_succ_of_le this
  · have := readSelector_rest_le isRelative ts
    rw [_h] at this
    exact Nat.lt_succ_of_le this
  · simp

/-- Reads selectors and forgives mistakes; but if the first one is wrong, there are none. -/
def readForgiving (isRelative : Bool) (ts : SelectorTokens) : List Selector :=
  match readSelector isRelative ts with
  | ⟨some s, rest⟩ => s :: readOthers isRelative rest
  | ⟨none, _⟩ => []

end SelectorTokens

end CssShorthand
