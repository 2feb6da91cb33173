/-
  LISTS OF SELECTORS.

  A text is cut at its commas, and each piece is written with single spaces.  No piece has a comma
  (`not_mem_of_mem_splitOn`), so pieces that are joined with commas are cut apart as they were; a collapsed
  text has white space between words only, one space at a time (`singleSpaced_collapse`), and is collapsed
  to itself (`collapse_collapse`).
  So the selectors of a list are in a form that a second reading leaves alone.

  The headline is `selectorTexts_settled`.
-/
import CssShorthand.Proofs.Slice.Words
import CssShorthand.RuleSet

namespace CssShorthand

open List

namespace Text

variable {c sep : Char} {p r t w : Text} {ps ws : List Text}

/-! ## Cutting -/

/-- No piece has the character that the text is cut at. -/
theorem not_mem_of_mem_splitOn (h : p ∈ t.splitOn sep) : sep ∉ p := by
  induction t generalizing p with
  | nil =>
    obtain rfl := mem_singleton.mp h
    exact not_mem_nil
  | cons c t ih =>
    rw [splitOn_cons_eq_if_modifyHead] at h
    split at h
    · rcases mem_cons.mp h with rfl | h
      · exact not_mem_nil
      · exact ih h
    · rename_i hc
      obtain ⟨q, qs, hqs⟩ := exists_cons_of_ne_nil (splitOn_ne_nil sep t)
      rw [hqs] at h ih
      rcases mem_cons.mp h with rfl | h
      · exact not_mem_cons_of_ne_of_not_mem (fun heq => hc (by simp [heq])) (ih mem_cons_self)
      · exact ih (mem_cons_of_mem q h)

/-! ## Single spaces

  A collapsed text as a list of characters in which a blank always stands between two characters that are
  none.
-/

/-- White space stands between words only, one space at a time. -/
structure SingleSpaced (t : Text) : Prop where
  trim_eq : trim t = t
  eq_space : ∀ c ∈ t, isBlank c = true → c = ' '
  apart : t.IsChain fun c d => isBlank c = true → isBlank d = false

/-- A collapsed text holds the characters of its words, and single blanks. -/
theorem mem_collapse (h : c ∈ collapse t) : c = ' ' ∨ isBlank c = false ∧ c ∈ t := by
  refine (Part.mem_join h).imp_right fun ⟨w, hw, hc⟩ => ?_
  obtain ⟨-, hblank, a, r, rfl, -, -⟩ := mem_words_iff.mp hw
  exact ⟨hblank c hc, by simp [hc]⟩

/-- A collapsed text has nothing more to collapse. -/
theorem collapse_collapse (t : Text) : collapse (collapse t) = collapse t := by
  rw [collapse, Part.words_collapse]
  rfl

/-- A word in front keeps blanks as far apart as they are. -/
theorem isChain_word_append (hw : ∀ c ∈ w, isBlank c = false)
    (hr : r.IsChain fun c d => isBlank c = true → isBlank d = false) :
    (w ++ r).IsChain fun c d => isBlank c = true → isBlank d = false := by
  induction w with
  | nil => exact hr
  | cons c w ih =>
    rw [cons_append, isChain_cons]
    refine ⟨fun d _ hc => ?_, ih fun d hd => hw d (mem_cons_of_mem _ hd)⟩
    rw [hw c mem_cons_self] at hc
    contradiction

/-- Between words that are joined there are no two blanks next to each other. -/
theorem isChain_behind (h : ∀ w ∈ ws, w ≠ [] ∧ ∀ c ∈ w, isBlank c = false) :
    (Part.behind ws).IsChain fun c d => isBlank c = true → isBlank d = false := by
  induction ws with
  | nil => exact .nil
  | cons w ws ih =>
    obtain ⟨hne, hw⟩ := h w mem_cons_self
    have hbehind : Part.behind (w :: ws) = ' ' :: (w ++ Part.behind ws) := rfl
    rw [hbehind, isChain_cons]
    refine ⟨fun d hd _ => ?_, isChain_word_append hw (ih fun v hv => h v (mem_cons_of_mem _ hv))⟩
    obtain ⟨c, w, rfl⟩ := exists_cons_of_ne_nil hne
    obtain rfl : c = d := by simpa using hd
    exact hw c mem_cons_self

/-- **A collapsed text has single spaces.** -/
theorem singleSpaced_collapse (t : Text) : SingleSpaced (collapse t) where
  trim_eq := by
    by_cases hnil : collapse t = []
    · rw [hnil]
      rfl
    · obtain ⟨⟨c, u, hc, hblank⟩, v, d, hd, hlast⟩ := Part.ends_of_collapse_eq hnil (collapse_collapse t)
      rw [hc] at hd ⊢
      exact trim_of_ends hblank hlast hd
  eq_space := by
    intro c hc hblank
    refine (mem_collapse hc).resolve_right fun h => ?_
    rw [h.1] at hblank
    contradiction
  apart := by
    have hwords : ∀ w ∈ words t, w ≠ [] ∧ ∀ c ∈ w, isBlank c = false := fun w hw =>
      ⟨(mem_words_iff.mp hw).1, (mem_words_iff.mp hw).2.1⟩
    rw [collapse]
    cases hws : words t with
    | nil => exact .nil
    | cons w ws =>
      rw [hws] at hwords
      rw [Part.join_cons]
      exact isChain_word_append (hwords w mem_cons_self).2
        (isChain_behind fun v hv => hwords v (mem_cons_of_mem _ hv))

end Text

open Text (SingleSpaced collapse_collapse)

variable {t x : Text} {xs : List Text} {ι : Type}

/-! ## Selectors

  What is stored for a text, and what is stored for that again.
-/

/-- The selectors of a text are its collapsed stretches between commas, but for the empty ones. -/
theorem mem_selectorTexts_iff :
    x ∈ selectorTexts t ↔ x ≠ [] ∧ ∃ p ∈ t.splitOn ',', Text.collapse p = x := by
  simp [selectorTexts, and_comm]

/-- A selector of a list has no comma. -/
theorem comma_not_mem_of_mem_selectorTexts (h : x ∈ selectorTexts t) : ',' ∉ x := by
  obtain ⟨-, p, hp, rfl⟩ := mem_selectorTexts_iff.mp h
  intro hcomma
  rcases Text.mem_collapse hcomma with hspace | ⟨-, hmem⟩
  · exact absurd hspace (by decide)
  · exact Text.not_mem_of_mem_splitOn hp hmem

/-- Selectors that are written as they are read are read back. -/
theorem selectorTexts_join (h : ∀ x ∈ xs, x ≠ [] ∧ ',' ∉ x ∧ Text.collapse x = x) :
    selectorTexts (Text.join [','] xs) = xs := by
  cases xs with
  | nil => rfl
  | cons x xs =>
    have hcut : (Text.join [','] (x :: xs)).splitOn ',' = x :: xs :=
      splitOn_intercalate ',' (fun y hy => (h y hy).2.1) (cons_ne_nil x xs)
    rw [selectorTexts, hcut, map_congr_left fun y hy => (h y hy).2.2, map_id', filter_eq_self]
    exact fun y hy => by simpa using (h y hy).1

/-- **A list of selectors is settled by one reading.**  Its selectors are not empty, have no comma, and
    single spaces; and written with commas between, as they stand before the declarations of a rule,
    they are read as the same list. -/
theorem selectorTexts_settled (t : Text) :
    (∀ x ∈ selectorTexts t, x ≠ [] ∧ ',' ∉ x ∧ SingleSpaced x) ∧
      selectorTexts (Text.join [','] (selectorTexts t)) = selectorTexts t ∧
      ∀ (block : BlockSource) (offset filename specificity : Option ι) (r : RuleSet ι) (notices : List Notice),
        RuleSet.make t block offset filename specificity = .ok (r, notices) →
          r.selectors = selectorTexts t ∧ selectorTexts r.selectorList = r.selectors := by
  have hall : ∀ x ∈ selectorTexts t, x ≠ [] ∧ ',' ∉ x ∧ Text.collapse x = x ∧ SingleSpaced x := by
    intro x hx
    obtain ⟨hne, p, -, hp⟩ := mem_selectorTexts_iff.mp hx
    exact ⟨hne, comma_not_mem_of_mem_selectorTexts hx, hp ▸ collapse_collapse p,
      hp ▸ Text.singleSpaced_collapse p⟩
  have hagain : selectorTexts (Text.join [','] (selectorTexts t)) = selectorTexts t :=
    selectorTexts_join fun x hx => ⟨(hall x hx).1, (hall x hx).2.1, (hall x hx).2.2.1⟩
  refine ⟨fun x hx => ⟨(hall x hx).1, (hall x hx).2.1, (hall x hx).2.2.2⟩, hagain, ?_⟩
  intro block offset filename specificity r notices hmake
  have hselectors : r.selectors = selectorTexts t := by
    unfold RuleSet.make at hmake
    split at hmake
    · contradiction
    · split at hmake
      · contradiction
      · exact (Prod.mk.inj (Except.ok.inj hmake)).1 ▸ rfl
  rw [RuleSet.selectorList, hselectors]
  exact ⟨rfl, hagain⟩

/-- Two selectors, with an empty one and more than one blank between them. -/
def spacedSelectors : Text := "#a .b\n p, ,p ".toList

/-- A line break inside a selector and an empty selector between two commas: the list that is stored is read
    as itself. -/
theorem spacedSelectors_settled :
    selectorTexts spacedSelectors = ["#a .b p".toList, ['p']] ∧ SingleSpaced "#a .b p".toList ∧
      ∃ r : RuleSet Nat, RuleSet.make spacedSelectors .nothing none none none = .ok (r, []) ∧
        selectorTexts r.selectorList = r.selectors := by
  have htexts : selectorTexts spacedSelectors = ["#a .b p".toList, ['p']] := by decide +kernel
  obtain ⟨hall, -, hmade⟩ := selectorTexts_settled (ι := Nat) spacedSelectors
  exact ⟨htexts, (hall _ (htexts ▸ mem_cons_self)).2.2, _, rfl, (hmade .nothing none none none _ [] rfl).2⟩

end CssShorthand
