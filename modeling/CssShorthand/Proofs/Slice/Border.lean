/-
  THE PARTS OF A BORDER ARE SINGLE.

  Width, color and style that are found in a value of `border` are single parts again, and each is
  written as something that no cleaning takes away: as the value of a box, it sets all four sides
  (`single_of_found`).

  The same facts are needed for each of the three parts, so they are proved from what its pattern uses:
  keywords, numbers and letters are plain characters (`UsesPlain`), and a plain text is one part. Only a
  color that is a call has other characters, and is dealt with in `Arguments`.
-/
import CssShorthand.Proofs.Slice.Color
import CssShorthand.Proofs.Slice.Match

namespace CssShorthand

open Cleaning (StartsKept)

namespace Text

/-- A character is plain if the form that stands for its cases is. -/
theorem isPlain_of_foldCase {c : Char} (h : isPlain (foldCase c) = true) : isPlain c = true := by
  unfold foldCase at h
  split at h
  · rename_i hc
    rcases hc with rfl | rfl <;> decide
  · split at h
    · rename_i hc
      subst hc
      decide
    · split at h
      · rename_i hc
        subst hc
        decide
      · unfold Char.toLower at h
        split at h
        · rename_i hupper
          have : c.isUpper = true := by simpa [Char.isUpper] using hupper
          simp [isPlain, Char.isAlphanum, Char.isAlpha, this]
        · exact h

/-- Digits are plain, the decimal digits of other scripts too: they lie above ASCII, where every character is
    plain that is not white space. -/
theorem isPlain_of_isDigit {c : Char} (h : isDigit c = true) : isPlain c = true := by
  unfold isDigit at h
  split at h
  · simp [isPlain, Char.isAlphanum, h]
  · rename_i hascii
    have hranges : ∀ r ∈ digitRanges, (r.2 < 0x2000 ∨ 0x200A < r.1) ∧
        ∀ b ∈ [0x85, 0xA0, 0x1680, 0x2028, 0x2029, 0x202F, 0x205F, 0x3000], b < r.1 ∨ r.2 < b := by
      decide
    obtain ⟨r, hr, hc⟩ := List.any_eq_true.mp h
    obtain ⟨hspaces, hsingle⟩ := hranges r hr
    simp only [Bool.and_eq_true, decide_eq_true_eq] at hc
    simp only [List.forall_mem_cons] at hsingle
    have hblank : isBlank c = false := by
      unfold isBlank
      simp only [hascii, if_false, Bool.or_eq_false_iff, Bool.and_eq_false_iff, beq_eq_false_iff_ne,
        decide_eq_false_iff_not]
      omega
    have hlarge : 0x7F < c.toNat := by omega
    simp [isPlain, hlarge, hblank]

/-- What stands for the cases of a letter stands for characters that begin names only. -/
theorem isStart_of_letter {c : Char} (h : ('a' ≤ foldCase c && foldCase c ≤ 'z') = true) :
    Name.isStart c = true := by
  unfold foldCase at h
  split at h
  · rename_i hc
    rcases hc with rfl | rfl <;> decide
  · split at h
    · rename_i hc
      subst hc
      decide
    · split at h
      · rename_i hc
        subst hc
        decide
      · have hlower : c.toLower.isLower = true := by simpa [Char.isLower, Char.le_def] using h
        have halpha : c.isAlpha = true := by
          unfold Char.toLower at hlower
          split at hlower
          · rename_i hupper
            have : c.isUpper = true := by simpa [Char.isUpper] using hupper
            simp [Char.isAlpha, this]
          · simp [Char.isAlpha, hlower]
        simp [Name.isStart, halpha]

/-- A letter of the pattern `[a-z]`, taken without regard to case, may stand in a name. -/
theorem isChar_of_letter {c : Char} (h : ('a' ≤ foldCase c && foldCase c ≤ 'z') = true) :
    Name.isChar c = true := by
  simp [Name.isChar, isStart_of_letter h]

/-- What stands for the cases of a letter stands for plain characters only. -/
theorem isPlain_of_letter {c : Char} (h : ('a' ≤ foldCase c && foldCase c ≤ 'z') = true) :
    isPlain c = true := by
  refine isPlain_of_foldCase ?_
  have : (foldCase c).isLower = true := by
    simpa [Char.isLower, Char.le_def] using h
  simp [isPlain, Char.isAlphanum, Char.isAlpha, this]

end Text

namespace Pattern

/-- The pattern is made of plain characters. -/
abbrev UsesPlain : Pattern → Prop := Uses fun c => Text.isPlain c = true

/-- Keywords are spelled with plain characters, checked once for the folded spelling: whatever folds to a
    plain letter is plain itself. -/
theorem usesPlain_keyword {ks : List String}
    (h : ∀ k ∈ ks, (k.toList.all fun f => Text.isPlain (Text.foldCase f)) = true) :
    UsesPlain (keyword ks) := by
  refine uses_oneOf fun p hp => ?_
  obtain ⟨k, hk, rfl⟩ := List.mem_map.mp hp
  intro f hf c hc
  have := List.all_eq_true.mp (h k hk) f hf
  exact Text.isPlain_of_foldCase (hc ▸ this)

/-- A single plain character. -/
theorem usesPlain_just {c : Char} (h : Text.isPlain c = true) : UsesPlain (just c) :=
  fun d hd => by rwa [beq_iff_eq.mp hd]

/-- A number consists of digits, a sign and a point. -/
theorem usesPlain_number : UsesPlain number := by
  have hdigit : UsesPlain digit := fun c hc => Text.isPlain_of_isDigit hc
  refine ⟨⟨fun c hc => ?_, trivial⟩,
    ⟨hdigit, usesPlain_just (by decide), ⟨hdigit, hdigit⟩, trivial⟩, ⟨hdigit, hdigit⟩⟩
  simp only [Bool.or_eq_true, beq_iff_eq] at hc
  rcases hc with rfl | rfl <;> decide

theorem usesPlain_length : UsesPlain length :=
  ⟨⟨usesPlain_number, usesPlain_keyword (by decide +kernel)⟩, usesPlain_just (by decide)⟩

theorem usesPlain_letters : UsesPlain (oneOrMore letter) :=
  ⟨fun _ h => Text.isPlain_of_letter h, fun _ h => Text.isPlain_of_letter h⟩

/-- A match that uses plain characters only has no white space in it. -/
theorem isBlank_of_isPlain_of_matches {p : Pattern} {u : Text} (h : Matches p u)
    (hp : UsesPlain p) : ∀ c ∈ u, Text.isBlank c = false :=
  fun c hc => Text.isBlank_of_isPlain (h.forall_mem hp c hc)

/-- The digits of a hash color are plain. -/
theorem usesPlain_hex : UsesPlain (oneOrMore hexDigit) := by
  have hhex : UsesPlain hexDigit := by
    intro c hc
    simp only [Bool.or_eq_true, Bool.and_eq_true, decide_eq_true_eq] at hc
    rcases hc with hc | ⟨ha, hf⟩
    · simp [Text.isPlain, Char.isAlphanum, hc]
    · refine Text.isPlain_of_letter ?_
      simp only [Bool.and_eq_true, decide_eq_true_eq]
      exact ⟨ha, Nat.le_trans hf (by decide)⟩
  exact ⟨hhex, hhex⟩

/-- The digits of a hash color may stand in a name, so the hash is read back as one component. -/
theorem isChar_of_hexDigit : Uses (fun c => Name.isChar c = true) hexDigit := by
  intro c hc
  simp only [Bool.or_eq_true, Bool.and_eq_true, decide_eq_true_eq] at hc
  rcases hc with hc | ⟨ha, hf⟩
  · simp [Name.isChar, hc]
  · refine Text.isChar_of_letter ?_
    simp only [Bool.and_eq_true, decide_eq_true_eq]
    exact ⟨ha, Nat.le_trans hf (by decide)⟩

/-- The pattern of one character takes that character. -/
theorem eq_of_matches_just {c : Char} {u : Text} (h : Matches (just c) u) : u = [c] := by
  cases h with
  | char h => rw [beq_iff_eq.mp h]

/-- Arguments stand in brackets. -/
theorem exists_of_matches_arguments {u : Text} (h : Matches arguments u) :
    ∃ inside, u = '(' :: (inside ++ [')']) := by
  simp only [arguments, matches_all_cons_iff, matches_all_nil_iff] at h
  obtain ⟨_, _, rfl, hopen, inside, _, rfl, -, _, _, rfl, hclose, rfl⟩ := h
  obtain rfl := eq_of_matches_just hopen
  obtain rfl := eq_of_matches_just hclose
  exact ⟨inside, by simp⟩

/-- Characters of a class that are repeated are at least one. -/
theorem ne_nil_of_matches_oneOrMore {p : Pattern} {u : Text} (hp : ∀ v, Matches p v → v ≠ [])
    (h : Matches (oneOrMore p) u) : u ≠ [] := by
  cases h with
  | seq hfirst hrest => simp [hp _ hfirst]

/-- What may be a color is a call, or a hash sign with digits, or a word. -/
theorem cases_of_matches_colorLike {u : Text} (h : Matches colorLike u) :
    (∃ name inside, u = name ++ '(' :: (inside ++ [')']) ∧ name ≠ [] ∧
        ∀ c ∈ name, Text.isPlain c = true ∧ Name.isChar c = true) ∨
      (∃ digits, u = '#' :: digits ∧ (∀ c ∈ digits, Text.isPlain c = true) ∧ digits ≠ [] ∧
        ∀ c ∈ digits, Name.isChar c = true) ∨
      (u ≠ [] ∧ ∀ c ∈ u, Text.isPlain c = true ∧ Name.isChar c = true) := by
  have hletter : Uses (fun c => Text.isPlain c = true ∧ Name.isChar c = true) letter := fun _ h =>
    ⟨Text.isPlain_of_letter h, Text.isChar_of_letter h⟩
  -- A call, a hash, or letters.
  simp only [colorLike, matches_oneOf_cons_iff, not_matches_oneOf_nil, or_false] at h
  rcases h with h | h | h
  · refine Or.inl ?_
    cases h with
    | @seq _ _ name _ hname harguments =>
      obtain ⟨inside, rfl⟩ := exists_of_matches_arguments harguments
      have hchar : Uses (fun c => Text.isPlain c = true ∧ Name.isChar c = true)
          (.either letter (just '-')) :=
        ⟨hletter, fun c h => by rw [beq_iff_eq.mp h]; decide⟩
      have hne : ∀ v, Matches (.either letter (just '-')) v → v ≠ [] := by
        intro v hv
        cases hv with
        | left h => cases h; simp
        | right h => simp [eq_of_matches_just h]
      exact ⟨name, inside, rfl, ne_nil_of_matches_oneOrMore hne hname, hname.forall_mem ⟨hchar, hchar⟩⟩
  · refine Or.inr (Or.inl ?_)
    cases h with
    | seq hhash hdigits =>
      obtain rfl := eq_of_matches_just hhash
      have hne : ∀ v, Matches hexDigit v → v ≠ [] := fun v hv => by
        cases hv
        simp
      exact ⟨_, rfl, hdigits.forall_mem usesPlain_hex, ne_nil_of_matches_oneOrMore hne hdigits,
        hdigits.forall_mem ⟨isChar_of_hexDigit, isChar_of_hexDigit⟩⟩
  · refine Or.inr (Or.inr ⟨ne_nil_of_matches_oneOrMore (fun v hv => ?_) h,
      h.forall_mem ⟨hletter, hletter⟩⟩)
    cases hv
    simp

/-- What may be a color neither begins nor ends with a blank. -/
theorem trim_of_matches_colorLike {u : Text} (h : Matches colorLike u) : Text.trim u = u := by
  rcases cases_of_matches_colorLike h with ⟨name, inside, rfl, hne, hname⟩ | ⟨digits, rfl, hdigits, -⟩ |
    ⟨-, hplain⟩
  · -- A call begins with a character of its name and ends with a bracket.
    obtain ⟨c, name, rfl⟩ := List.exists_cons_of_ne_nil hne
    exact Text.trim_of_ends (Text.isBlank_of_isPlain (hname c List.mem_cons_self).1)
      (by decide : Text.isBlank ')' = false) (u := c :: name ++ '(' :: inside) (by simp)
  · refine Text.trim_of_forall fun c hc => ?_
    rcases List.mem_cons.mp hc with rfl | hc
    · decide
    · exact Text.isBlank_of_isPlain (hdigits c hc)
  · exact Text.trim_of_forall fun c hc => Text.isBlank_of_isPlain (hplain c hc).1

end Pattern

namespace Slices

/-- A part of a border is a color, or plain. -/
theorem plain_of_found {p : Part} (hp : p ∈ Part.border) {value text : Text}
    (h : Found p value text) :
    (Pattern.Matches .colorLike text ∧ Color.isColor text = true) ∨
      ∀ c ∈ text, Text.isPlain c = true := by
  obtain ⟨⟨u, hu, rfl⟩, haccepts, -⟩ := h
  simp only [Part.border, List.mem_cons, List.not_mem_nil, or_false] at hp
  rcases hp with rfl | rfl | rfl
  · have hwidth : Pattern.UsesPlain (.either .length (.keyword borderWidths)) :=
      ⟨Pattern.usesPlain_length, Pattern.usesPlain_keyword (by decide +kernel)⟩
    exact Or.inr (Pattern.Matches.forall_mem hu hwidth)
  · exact Or.inl ⟨hu, by simpa [Part.accepts, Part.color] using haccepts⟩
  · exact Or.inr (Pattern.Matches.forall_mem hu (Pattern.usesPlain_keyword (by decide +kernel)))

/-- **A part of a border is single.**  Without marks and semicolons in the value, its text is kept as
    it is found, and it is a single part again, written so that it stays. -/
theorem single_of_found {p : Part} (hp : p ∈ Part.border) {value text : Text}
    (h : Found p value text) (hmark : '!' ∉ value) (hend : ';' ∉ value) (hne : text ≠ []) :
    (Cleaning.clean text).1 = text ∧ ∃ w, Component.split text = [w] ∧ StartsKept w := by
  rcases plain_of_found hp h with ⟨hcolor, haccepts⟩ | hplain
  · have hclean : Cleaning.clean text = (Text.trim text, false) :=
      Cleaning.clean_eq_trim (fun hm => (h.mem_or_eq _ hm).elim hmark (by decide))
        (fun hm => (h.mem_or_eq _ hm).elim hend (by decide))
    rw [hclean]
    exact ⟨Pattern.trim_of_matches_colorLike hcolor, Color.split_of_isColor haccepts⟩
  · rw [Text.clean_of_plain hplain]
    exact ⟨rfl, Component.split_of_plain hplain hne⟩

end Slices

end CssShorthand
