/-
  WHAT `border` SETS ON THE SECOND LEVEL.

  A value of `border` without marks and semicolons spreads into box shorthands whose values are single
  parts, so that each of them sets all of its four sides (`names_spread_box_of_border`).

  A value of the border gives each box at most one text, and a box takes one to four. That the text is
  always one component, or a keyword, is a matter of what slicing finds: a width, a style or a color.
-/
import CssShorthand.Proofs.Cascade.Spread
import CssShorthand.Proofs.Slice.Arguments

namespace CssShorthand

open Cleaning (StartsKept)

/-- A keyword of every property is the only significant component of its value. -/
theorem cssWideKeyword?_eq_some_iff {v : Text} {k : String} :
    cssWideKeyword? v = some k ↔
      Component.soleKeyword? (Component.significant (Component.parse v)) = some k ∧
        k ∈ cssWideKeywords := by
  unfold cssWideKeyword?
  cases Component.soleKeyword? (Component.significant (Component.parse v)) with
  | none => simp
  | some m =>
    by_cases hm : m ∈ cssWideKeywords
    · simp only [List.contains_iff_mem, hm, if_true, Option.some.injEq]
      exact ⟨fun h => ⟨h, h ▸ hm⟩, And.left⟩
    · simp only [List.contains_iff_mem, hm, if_false, Option.some.injEq, reduceCtorEq, false_iff]
      exact fun h => hm (h.1 ▸ h.2)

/-- The keywords that every property takes are plain. -/
theorem isPlain_of_cssWide {v : Text} {k : String} (h : cssWideKeyword? v = some k) :
    (∀ c ∈ k.toList, Text.isPlain c = true) ∧ k.toList ≠ [] := by
  have hkeywords : ∀ k ∈ cssWideKeywords, k.toList.all Text.isPlain = true ∧ k.toList ≠ [] := by
    decide
  obtain ⟨hall, hne⟩ := hkeywords k (cssWideKeyword?_eq_some_iff.mp h).2
  exact ⟨List.all_eq_true.mp hall, hne⟩

/-- A keyword that every property takes goes to every longhand. -/
theorem spread_of_keyword {sh : Shorthand} {d : Declaration} {k : String} (hk : cssWideKeyword? d.value = some k) :
    spread (sh.name, d) = sh.longhands.map fun n => (n, ⟨k.toList, d.important⟩) := by
  have hexpand : expandValue sh.name d.value = .ok (.longhands (sh.longhands.map fun n => (n, k.toList)) []) := by
    simp [expandValue, Shorthand.ofName?_name, Shorthand.expand, hk]
  obtain ⟨hplain, hne⟩ := isPlain_of_cssWide hk
  have hdeclares : Value.declarationOfText? k.toList false = some ⟨k.toList, false⟩ := by
    simp [Value.declarationOfText?, Text.clean_of_plain hplain, List.isEmpty_eq_false_iff.mpr hne]
  rw [spread_of_ok (x := (sh.name, d)) hexpand, Expansion.entries, declarationsOf, List.filterMap_map,
    ← List.filterMap_eq_map]
  exact List.filterMap_congr fun n _ => by simp [hdeclares]

/-- A box shorthand of which the value is a single part sets all four sides to it. -/
theorem spread_of_single {b : BoxShorthand} {d : Declaration} {w : Text}
    (hsplit : Component.split d.value = [w]) (hw : StartsKept w) (hk : cssWideKeyword? d.value = none) :
    spread (b.name, d) = b.longhands.toList.map fun n => (n, ⟨(Cleaning.clean w).1, d.important⟩) := by
  have hname : Shorthand.ofName? b.name = some (.box b) := Shorthand.ofName?_name (.box b)
  have hexpand : expandValue b.name d.value = .ok (.longhands (b.longhands.zip ⟨w, w, w, w⟩) []) := by
    simp [expandValue, hname, Shorthand.expand, hk, Shorthand.expandOwn, Sides.ofValue, hsplit, Sides.ofList?]
  have hdeclares : Value.declarationOfText? w false =
      some ⟨(Cleaning.clean w).1, false || (Cleaning.clean w).2⟩ := by
    simp [Value.declarationOfText?, hw.clean_ne_nil]
  rw [spread_of_ok (x := (b.name, d)) hexpand, Expansion.entries, declarationsOf]
  simp [Sides.zip, Sides.toList, hdeclares]

/-- What a value of `border` spreads into: a keyword that every property takes, or a part that is found
    in the value, once it is cleaned. -/
theorem cases_of_mem_spread_border {d : Declaration} {y : String × Declaration}
    (hy : y ∈ spread (Shorthand.border.name, d)) :
    (∃ k, cssWideKeyword? d.value = some k ∧ y.2.value = k.toList) ∨
      ∃ p ∈ Part.border, ∃ text, Slices.Found p d.value text ∧ text ≠ [] ∧
        y.2.value = (Cleaning.clean text).1 := by
  have hname : Shorthand.ofName? Shorthand.border.name = some .border :=
    Shorthand.ofName?_name .border
  -- In both cases the declaration is one of the longhands that the value is expanded to.
  have hmem : ∀ es ignored, expandValue Shorthand.border.name d.value =
      .ok (.longhands es ignored) → ∃ e ∈ es, ∃ d', Value.declarationOfText? e.2 false = some d' ∧
        y.2.value = d'.value := by
    intro es ignored hexpand
    rw [spread_of_ok (x := (Shorthand.border.name, d)) hexpand] at hy
    obtain ⟨e, he, hed⟩ := List.mem_filterMap.mp hy
    obtain ⟨d', hd', rfl⟩ := Option.map_eq_some_iff.mp hed
    exact ⟨e, he, d', hd', rfl⟩
  cases hk : cssWideKeyword? d.value with
  | some k =>
    obtain ⟨e, he, d', hd', hvalue⟩ := hmem _ _ (by
      simp only [expandValue, hname, Shorthand.expand, hk]
      rfl)
    obtain ⟨n, -, rfl⟩ := List.mem_map.mp he
    obtain ⟨hplain, hne⟩ := isPlain_of_cssWide hk
    simp only [Value.declarationOfText?, Text.clean_of_plain hplain, List.isEmpty_eq_false_iff.mpr hne,
      Bool.false_eq_true, if_false, Option.some.injEq] at hd'
    exact Or.inl ⟨k, rfl, by rw [hvalue, ← hd']⟩
  | none =>
    obtain ⟨e, he, d', hd', hvalue⟩ := hmem _ _ (by
      simp only [expandValue, hname, Shorthand.expand, hk, Shorthand.expandOwn, Expansion.ofSlices]
      rfl)
    obtain ⟨⟨suffix, n⟩, -, hget⟩ := List.mem_filterMap.mp he
    obtain ⟨text, hlookup, rfl⟩ := Option.map_eq_some_iff.mp hget
    obtain ⟨l₁, l₂, hfound, -⟩ := List.lookup_eq_some_iff.mp hlookup
    obtain ⟨p, hp, -, hfound⟩ := Slices.found_of_mem_takeParts
      (hfound ▸ List.mem_append_right l₁ List.mem_cons_self)
    simp only [Value.declarationOfText?] at hd'
    split at hd'
    · contradiction
    · rename_i hne
      refine Or.inr ⟨p, hp, text, hfound, ?_, by rw [hvalue, ← Option.some.inj hd']⟩
      rintro rfl
      exact hne (by decide +kernel)

/-- What a value of `border` is split into: single parts, kept as they are. -/
theorem single_of_mem_spread_border {d : Declaration} (hmark : '!' ∉ d.value) (hend : ';' ∉ d.value)
    {y : String × Declaration} (hy : y ∈ spread (Shorthand.border.name, d)) :
    ∃ w, Component.split y.2.value = [w] ∧ StartsKept w := by
  rcases cases_of_mem_spread_border hy with ⟨k, hk, hvalue⟩ | ⟨p, hp, text, hfound, hne, hvalue⟩
  · obtain ⟨hplain, hne⟩ := isPlain_of_cssWide hk
    rw [hvalue]
    exact Component.split_of_plain hplain hne
  · obtain ⟨hclean, hsingle⟩ := Slices.single_of_found hp hfound hmark hend hne
    rw [hvalue, hclean]
    exact hsingle

/-- What a value of `border` is split into is single parts, also if the value holds marks and
    semicolons. -/
theorem split_of_mem_spread_border {d : Declaration} {y : String × Declaration}
    (hy : y ∈ spread (Shorthand.border.name, d)) : ∃ w, Component.split y.2.value = [w] := by
  rcases cases_of_mem_spread_border hy with ⟨k, hk, hvalue⟩ | ⟨p, hp, text, hfound, hne, hvalue⟩
  · obtain ⟨hplain, hne⟩ := isPlain_of_cssWide hk
    rw [hvalue]
    exact (Component.split_of_plain hplain hne).imp fun w h => h.1
  · rw [hvalue]
    exact Slices.split_of_found hp hfound hne

/-- **On the second level `border` sets all four sides** of each box that it sets on the first. -/
theorem names_spread_box_of_border {d : Declaration} (hmark : '!' ∉ d.value) (hend : ';' ∉ d.value)
    {b : BoxShorthand} {e : Declaration} (h : (b.name, e) ∈ spread (Shorthand.border.name, d)) :
    (spread (b.name, e)).names = b.longhands.toList := by
  obtain ⟨w, hsplit, hw⟩ := single_of_mem_spread_border hmark hend h
  cases hk : cssWideKeyword? e.value with
  | some k =>
    rw [show b.name = (Shorthand.box b).name from rfl, spread_of_keyword hk]
    simp [Entries.names, Shorthand.longhands, Function.comp_def]
  | none =>
    rw [spread_of_single hsplit hw hk]
    simp [Entries.names, Function.comp_def]

end CssShorthand
