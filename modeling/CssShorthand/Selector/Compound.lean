/-
  COMPOUND SELECTORS.

  A compound is what stands in a selector between two combinators: the name of an element, simple
  selectors that follow each other directly, and a pseudo-element that ends them.

  A reading takes tokens from the front of a list: it gives what it read, or nothing if the tokens are
  wrong, and in both cases the tokens that are left.  The lemmas say that a reading leaves no more
  tokens than it was given, and that a compound takes at least one; this is why reading a selector
  ends.
-/
import CssShorthand.Selector.Pseudo
import CssShorthand.Selector.Token

namespace CssShorthand

/-- The tokens of a selector. -/
abbrev SelectorTokens := List SelectorToken

/-- What was read, if it could be, and what is left. -/
structure Reading (α : Type) where
  value : Option α
  rest : SelectorTokens

namespace Reading

/-- A mistake, with what is left after it. -/
def wrong {α : Type} (rest : SelectorTokens) : Reading α := ⟨none, rest⟩

/-- Changes what was read. -/
def map {α β : Type} (f : α → β) (r : Reading α) : Reading β := ⟨r.value.map f, r.rest⟩

end Reading

/-- Simple selectors that follow each other directly, and the pseudo-element that ends them. -/
structure Compound where
  simples : SimpleSelectors
  pseudoElement : Option String
  deriving Repr

namespace Compound

/-- No selector at all. -/
def empty : Compound := ⟨[], none⟩

/-- Puts a simple selector in front. -/
def push (s : SimpleSelector) (c : Compound) : Compound := { c with simples := s :: c.simples }

/-- Only a pseudo-element. -/
def ofPseudoElement (name : String) : Compound := ⟨[], some name⟩

end Compound

namespace SelectorTokens

/-- The lower case of a name. -/
def lowerName (name : Text) : String := Text.toString (Text.lower name)

/-- A pseudo-class without arguments. -/
def pseudoClass (name : String) : SimpleSelector :=
  if Pseudo.classes.contains name then .pseudoClass name else .unsupported

/-- Reads simple selectors as far as they go. -/
def readSimples : SelectorTokens → Reading Compound
  | .hash name true :: ts => (readSimples ts).map (.push (.id name))
  | .attribute (some s) :: ts => (readSimples ts).map (.push s)
  | .attribute none :: ts => .wrong ts
  | .dot :: ts =>
    match ts with
    | .ident name :: ts => (readSimples ts).map (.push (.ofClass name))
    | ts => .wrong (ts.drop 1)
  | .colon :: ts =>
    match ts with
    | .colon :: ts =>
      match ts with
      | .ident name :: ts =>
        if Pseudo.elements.contains (lowerName name) then
          ⟨some (.ofPseudoElement (lowerName name)), ts⟩
        else .wrong ts
      | ts => .wrong (ts.drop 1)
    | .ident name :: ts =>
      if Pseudo.singleColonElements.contains (lowerName name) then
        ⟨some (.ofPseudoElement (lowerName name)), ts⟩
      else (readSimples ts).map (.push (pseudoClass (lowerName name)))
    | .call (some s) :: ts => (readSimples ts).map (.push s)
    | ts => .wrong (ts.drop 1)
  | ts => ⟨some .empty, ts⟩

/-- Reads the name after a bar. -/
def readLocalName : SelectorTokens → Reading SimpleSelectors
  | .ident name :: ts => ⟨some [.element name], ts⟩
  | .star :: ts => ⟨some [], ts⟩
  | ts => .wrong (ts.drop 1)

/-- Reads the name of an element, if there is one: `none` is read where there is none.  No namespace
    has a name here, so that a name before a bar is wrong. -/
def readElement : SelectorTokens → Reading (Option SimpleSelectors)
  | .ident _ :: .bar :: ts => .wrong ts
  | .ident name :: ts => ⟨some (some [.element name]), ts⟩
  | .star :: .bar :: ts => (readLocalName ts).map some
  | .star :: ts => ⟨some (some []), ts⟩
  | .bar :: ts => (readLocalName ts).map fun name => some (name ++ [.noNamespace])
  | ts => ⟨some none, ts⟩

/-- Reads a compound, which is not empty. -/
def readCompound (ts : SelectorTokens) : Reading Compound :=
  let element := readElement (ts.dropWhile (·.isSpace))
  match element.value with
  | none => .wrong element.rest
  | some name =>
    let simples := readSimples element.rest
    match simples.value with
    | none => .wrong simples.rest
    | some c =>
      if name.isNone && c.simples.isEmpty && c.pseudoElement.isNone then .wrong simples.rest
      else ⟨some { c with simples := name.getD [] ++ c.simples }, simples.rest⟩

/-! ## What a reading leaves -/

/-- Reading simple selectors takes nothing only where there is none. -/
theorem readSimples_rest (ts : SelectorTokens) :
    ((readSimples ts).value = some .empty ∧ (readSimples ts).rest = ts) ∨
      (readSimples ts).rest.length < ts.length := by
  have shorter {t : SelectorToken} {us : SelectorTokens} {rest : SelectorTokens}
      (h : (rest = us) ∨ rest.length < us.length) : rest.length < (t :: us).length := by
    rcases h with rfl | h
    · simp
    · simp only [List.length_cons]
      omega
  fun_induction readSimples ts with
  | case1 name ts ih => exact Or.inr (shorter (ih.imp_left And.right))
  | case2 s ts ih => exact Or.inr (shorter (ih.imp_left And.right))
  | case3 ts => simp [Reading.wrong]
  | case4 name ts ih =>
    have := shorter (t := .ident name) (ih.imp_left And.right)
    exact Or.inr (Nat.lt_succ_of_lt this)
  | case5 ts => simp only [Reading.wrong, List.length_drop, List.length_cons]; omega
  | case6 => simp only [List.length_cons]; omega
  | case7 => simp only [Reading.wrong, List.length_cons]; omega
  | case8 ts => simp only [Reading.wrong, List.length_drop, List.length_cons]; omega
  | case9 => simp only [List.length_cons]; omega
  | case10 name ts _ ih =>
    have := shorter (t := .ident name) (ih.imp_left And.right)
    exact Or.inr (Nat.lt_succ_of_lt this)
  | case11 s ts ih =>
    have := shorter (t := .call (some s)) (ih.imp_left And.right)
    exact Or.inr (Nat.lt_succ_of_lt this)
  | case12 ts => simp only [Reading.wrong, List.length_drop, List.length_cons]; omega
  | case13 => exact Or.inl ⟨rfl, rfl⟩

theorem readSimples_rest_le (ts : SelectorTokens) :
    (readSimples ts).rest.length ≤ ts.length := by
  rcases readSimples_rest ts with h | h
  · exact Nat.le_of_eq (congrArg List.length h.2)
  · exact Nat.le_of_lt h

theorem readLocalName_rest_le (ts : SelectorTokens) :
    (readLocalName ts).rest.length ≤ ts.length := by
  unfold readLocalName
  split <;> simp [Reading.wrong]

/-- Reading an element's name takes nothing only where there is none. -/
theorem readElement_rest (ts : SelectorTokens) :
    ((readElement ts).value = some none ∧ (readElement ts).rest = ts) ∨
      (readElement ts).rest.length < ts.length := by
  unfold readElement
  split
  · right
    simp only [Reading.wrong, List.length_cons]
    omega
  · simp
  · rename_i ts
    have := readLocalName_rest_le ts
    right
    simp only [Reading.map, List.length_cons]
    omega
  · simp
  · rename_i ts
    have := readLocalName_rest_le ts
    right
    simp only [Reading.map, List.length_cons]
    omega
  · exact Or.inl ⟨rfl, rfl⟩

theorem readElement_rest_le (ts : SelectorTokens) :
    (readElement ts).rest.length ≤ ts.length := by
  rcases readElement_rest ts with h | h
  · exact Nat.le_of_eq (congrArg List.length h.2)
  · exact Nat.le_of_lt h

/-- A compound leaves no more than it was given: its white space, its element and its simple selectors are taken
    from the front. -/
theorem readCompound_rest_le (ts : SelectorTokens) :
    (readCompound ts).rest.length ≤ ts.length := by
  have h₁ : (ts.dropWhile (·.isSpace)).length ≤ ts.length := (List.dropWhile_sublist _).length_le
  have h₂ := readElement_rest_le (ts.dropWhile (·.isSpace))
  have h₃ := readSimples_rest_le (readElement (ts.dropWhile (·.isSpace))).rest
  unfold readCompound
  dsimp only
  split
  · simp only [Reading.wrong]
    omega
  · split
    · simp only [Reading.wrong]
      omega
    · split
      · simp only [Reading.wrong]
        omega
      · simp only
        omega

/-- A compound takes at least one token. -/
theorem readCompound_rest_lt {ts : SelectorTokens} {c : Compound}
    (h : (readCompound ts).value = some c) : (readCompound ts).rest.length < ts.length := by
  have h₁ : (ts.dropWhile (·.isSpace)).length ≤ ts.length := (List.dropWhile_sublist _).length_le
  have h₂ := readElement_rest (ts.dropWhile (·.isSpace))
  have h₃ := readSimples_rest (readElement (ts.dropWhile (·.isSpace))).rest
  have h₄ := readSimples_rest_le (readElement (ts.dropWhile (·.isSpace))).rest
  have h₅ := readElement_rest_le (ts.dropWhile (·.isSpace))
  unfold readCompound at h ⊢
  dsimp only at h ⊢
  split at h
  · simp [Reading.wrong] at h
  · rename_i name hname
    split at h
    · simp [Reading.wrong] at h
    · rename_i d hd
      split at h
      · simp [Reading.wrong] at h
      · rename_i hne
        simp only [hne]
        rcases h₂ with h₂ | h₂
        · rcases h₃ with h₃ | h₃
          · exfalso
            rw [h₂.1] at hname
            rw [h₃.1] at hd
            simp only [Option.some.injEq] at hname hd
            subst hname hd
            simp [Compound.empty] at hne
          · simp only [Bool.false_eq_true, if_false]
            omega
        · simp only [Bool.false_eq_true, if_false]
          omega

end SelectorTokens

end CssShorthand
