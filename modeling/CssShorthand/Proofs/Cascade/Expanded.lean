/-
  WHAT EXPANSION LEAVES IS EXPANDED.

  A value can be read and yet not be split only if it is one of `font` that names a font of the system
  (`expandValue_eq_whole_iff`).  All other shorthands are gone once all are expanded
  (`expanded_of_after`): the longhands of `border`, which are shorthands themselves, come before the
  boxes are expanded, and no other shorthand has shorthands among its longhands.

  A store with no other shorthand (`Expanded`) is left as it is by every step of a further expansion,
  so that expanding is idempotent (`expandAll_idempotent`).

  What is left of shorthands is decided by what values can be read and yet not be split. `font` with a
  system font is the only one: the background and the list style are split into what is found, even into
  nothing.
-/
import CssShorthand.Proofs.Cascade.Expansion

namespace CssShorthand

/-- The value is the name of a font of the system and nothing else. -/
def FontReading.NamesSystem (v : Text) : Prop :=
  ∃ k ∈ systemFonts, Component.soleKeyword? (Component.significant (Component.parse v)) = some k

namespace FontReading

/-- The reading of a font is a system font exactly when its value names one. -/
theorem isSystem_parse_iff {v : Text} :
    isSystem (Component.parse v) = true ↔ NamesSystem v := by
  unfold isSystem NamesSystem
  cases Component.soleKeyword? (Component.significant (Component.parse v)) with
  | none => simp
  | some k => simp

/-- No font of the system is named like a keyword for every property. -/
theorem NamesSystem.cssWideKeyword?_eq {v : Text} (h : NamesSystem v) : cssWideKeyword? v = none := by
  obtain ⟨k, hk, hsole⟩ := h
  have hapart : ∀ k ∈ systemFonts, k ∉ cssWideKeywords := by decide
  simp [cssWideKeyword?, hsole, hapart k hk]

/-- Reading a font ends with a system font exactly when its value names one: nothing else leads to this
    outcome. -/
theorem ofValue_eq_system_iff {v : Text} : ofValue v = .ok .system ↔ NamesSystem v := by
  rw [← isSystem_parse_iff, ofValue]
  dsimp only
  split
  · simp [*]
  · rename_i hsystem
    refine ⟨fun h => ?_, fun h => absurd h hsystem⟩
    unfold readSize at h
    split at h
    · contradiction
    · split at h
      · contradiction
      · simp at h

end FontReading

/-- **What cannot be split** is a `font` of the system. -/
theorem expandValue_eq_whole_iff {sh : Shorthand} {v : Text} :
    expandValue sh.name v = .ok .whole ↔ sh = .font ∧ FontReading.NamesSystem v := by
  rw [← FontReading.ofValue_eq_system_iff]
  simp only [expandValue, Shorthand.ofName?_name, Shorthand.expand]
  cases hk : cssWideKeyword? v with
  | some k =>
    constructor
    · intro h
      cases h
    · intro h
      rw [(FontReading.ofValue_eq_system_iff.mp h.2).cssWideKeyword?_eq] at hk
      contradiction
  | none =>
    cases sh with
    | box b =>
      simp only [Shorthand.expandOwn]
      split <;> simp
    | font =>
      simp only [Shorthand.expandOwn]
      cases FontReading.ofValue v with
      | error f => simp
      | ok reading => cases reading <;> simp [Expansion.ofFont]
    | _ => simp [Shorthand.expandOwn, Expansion.ofSlices]

/-- No shorthand is declared, but for a `font` of the system. -/
def Expanded (s : Store) : Prop :=
  ∀ sh : Shorthand, ∀ d, (sh.name, d) ∈ s.entries → sh = .font ∧ FontReading.NamesSystem d.value

namespace Expanded

variable {s : Store}

/-- Expanding one shorthand leaves such a store as it is. -/
theorem map_expand_eq (h : Expanded s) (sh : Shorthand) : (s.expand sh.name).map (·.1) = .ok s := by
  cases hd : s.get? sh.name with
  | none => simp [Store.expand, hd, Except.map]
  | some d =>
    have hwhole := expandValue_eq_whole_iff.mpr (h sh d ((Store.get?_eq_some_iff sh.trimName_name).mp hd))
    simp [Store.expand, hd, hwhole, Except.map]

/-- So does expanding several, one after the other. -/
theorem expandEach_eq (h : Expanded s) (shs : List Shorthand) :
    s.expandEach (shs.map Shorthand.name) = .ok s := by
  induction shs with
  | nil => rfl
  | cons sh shs ih =>
    rw [List.map_cons, Store.expandEach_cons, h.map_expand_eq sh]
    exact ih

end Expanded

namespace Cascade

variable {s t : Store}

/-- What a declaration spreads into under the name of a shorthand is the declaration itself, and a font of
    the system. -/
theorem system_of_mem_spread {sh : Shorthand} {y z : String × Declaration}
    (hreads : ∀ sh ∈ Shorthand.afterBorder, y.1 = sh.name → Reads y)
    (hborder : y.1 ≠ Shorthand.border.name) (hz : z ∈ spread y) (hname : z.1 = sh.name) :
    sh = .font ∧ FontReading.NamesSystem z.2.value := by
  have hreach : sh.name ∈ Shorthand.reach y.1 :=
    hname ▸ mem_reach_of_mem_spread (Entries.mem_names_of_mem hz)
  obtain ⟨n, d⟩ := y
  cases hn : Shorthand.ofName? n with
  | none =>
    -- Only a shorthand has shorthands within its reach.
    obtain rfl : sh.name = n := by simpa [Shorthand.reach, hn] using hreach
    rw [Shorthand.ofName?_name] at hn
    contradiction
  | some sh' =>
    obtain rfl : sh'.name = n := by simpa using List.find?_some hn
    have hafter : sh' ∈ Shorthand.afterBorder := Shorthand.mem_afterBorder fun h => hborder (h ▸ rfl)
    obtain rfl := Shorthand.eq_of_name_mem_reach hafter hreach
    obtain ⟨e, he⟩ := hreads sh hafter rfl
    by_cases hwhole : e = .whole
    · subst hwhole
      rw [spread_of_ok he, Expansion.entries, List.mem_singleton] at hz
      rw [hz]
      exact expandValue_eq_whole_iff.mp he
    · have hlong := (names_spread_sublist he hwhole).subset (Entries.mem_names_of_mem hz)
      rw [hname] at hlong
      exact absurd hlong (Shorthand.name_not_mem_longhands sh hafter sh sh.mem_all)

/-- **Expansion is complete.** -/
theorem expanded_of_after (h : Edit.expandAll.after s = .ok t) : Expanded t := by
  intro sh d hd
  rw [(after_expandAll s).1 t h, mem_merge] at hd
  obtain ⟨x, hx, hsettled, -⟩ := hd
  obtain ⟨y, hy, hspread⟩ := List.mem_flatMap.mp hsettled
  have hreads := (after_expandAll s).2.mp ⟨t, h⟩ x hx y hy
  have hfirst := mem_first_of_mem_decided hy
  have hborder : y.1 ≠ Shorthand.border.name := by
    rcases first_cases x with ⟨hne, hf⟩ | ⟨-, hf⟩
    · rw [hf, List.mem_singleton] at hfirst
      exact hfirst ▸ hne
    · intro hyb
      exact absurd (hyb ▸ hf y hfirst) (by decide)
  exact system_of_mem_spread hreads hborder hspread rfl

/-- **Expansion is idempotent and complete.**  What it leaves declares no shorthand, but for a `font` of
    the system, and expanding it again succeeds and leaves it as it is. -/
theorem expandAll_idempotent (h : Edit.expandAll.after s = .ok t) :
    (∀ sh : Shorthand, ∀ d, t.get? sh.name = some d → sh = .font ∧ FontReading.NamesSystem d.value) ∧
      ∀ said, (Edit.expandAll.exec ⟨t, said⟩).1 = .ok () ∧ (Edit.expandAll.exec ⟨t, said⟩).2.store = t := by
  have hexpanded := expanded_of_after h
  refine ⟨fun sh d hd => hexpanded sh d ((Store.get?_eq_some_iff sh.trimName_name).mp hd), fun said => ?_⟩
  have hdoes := Edit.does_expandAll ⟨t, said⟩
  rw [hexpanded.expandEach_eq, Edit.outcome] at hdoes
  split at hdoes
  · rename_i u hu
    exact ⟨hu, Except.ok.inj hdoes⟩
  · contradiction

/-- An important border over a width of its own and a border of one side, and a font of the system. -/
def systemBordered : Store :=
  .ofList [("border-width", .text "1px 2px".toList), ("border", .text "3px solid!important".toList),
    ("border-left", .text "5px dotted red".toList), ("font", .text "Menu".toList),
    ("background", .text "none".toList)]

/-- A system font keeps its shorthand, all else is expanded: expanding once more changes nothing. -/
theorem systemBordered_idempotent :
    ∃ t, Edit.expandAll.after systemBordered = .ok t ∧
      (∀ sh : Shorthand, ∀ d, t.get? sh.name = some d → sh = .font ∧ FontReading.NamesSystem d.value) ∧
      ∀ said, (Edit.expandAll.exec ⟨t, said⟩).1 = .ok () ∧
        (Edit.expandAll.exec ⟨t, said⟩).2.store = t := by
  have hok : (Edit.expandAll.after systemBordered).isOk = true := by decide +kernel
  obtain ⟨t, ht⟩ := Edit.exists_of_isOk hok
  exact ⟨t, ht, expandAll_idempotent ht⟩

end Cascade

end CssShorthand
