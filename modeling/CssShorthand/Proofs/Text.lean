/-
  TRIMMING AND CASE.

  What trimming takes off a text and what it leaves, which characters of a text are no blanks
  (`Text.inked`), and how the reader that ignores case behaves on a text that goes on.

  These are facts about texts that do not know of CSS. White space here is that of the language of the
  program, which is larger than that of CSS; the two kinds meet in the modules on slices.
-/
import Mathlib
import CssShorthand.Text.Blank
import CssShorthand.Text.Case
import CssShorthand.Text.Word

namespace CssShorthand

namespace Text

/-! ## Trimming

  Both ends by themselves; a text is trimmed when neither its first nor its last character is white space.
-/

/-- A text without blanks has nothing to trim. -/
theorem trim_of_forall {t : Text} (h : ∀ c ∈ t, isBlank c = false) : trim t = t := by
  have hdrop : ∀ u : Text, (∀ c ∈ u, isBlank c = false) → u.dropWhile isBlank = u := by
    intro u hu
    cases u with
    | nil => rfl
    | cons c u => simp [hu c (by simp)]
  rw [trim, trimStart, hdrop t h, trimEnd, hdrop _ (by simpa using h), List.reverse_reverse]

/-- A text that neither begins nor ends with a blank has nothing to trim. -/
theorem trim_of_ends {c d : Char} {t u : Text} (hc : isBlank c = false) (hd : isBlank d = false)
    (h : c :: t = u ++ [d]) : trim (c :: t) = c :: t := by
  rw [trim, trimStart_of_head hc, h, trimEnd, List.reverse_append]
  simp [hd]

/-- A text without blanks at its ends begins and ends with a character that is none. -/
theorem exists_ends_of_trim {w : Text} (h : trim w = w) (hne : w ≠ []) :
    (∃ c t, w = c :: t ∧ isBlank c = false) ∧ ∃ t d, w = t ++ [d] ∧ isBlank d = false := by
  have hlen : ∀ u : Text, (u.dropWhile isBlank).length ≤ u.length := fun u =>
    (List.dropWhile_sublist _).length_le
  have htrim : ((w.dropWhile isBlank).reverse.dropWhile isBlank).length = w.length := by
    have := congrArg List.length h
    simpa [trim, trimStart, trimEnd] using this
  -- hlen := If the text started or ended with white space, trimming would shorten it.
  have hall := hlen (w.dropWhile isBlank).reverse
  rw [List.length_reverse] at hall
  have hstart : ∃ c t, w = c :: t ∧ isBlank c = false := by
    obtain ⟨c, t, rfl⟩ := List.exists_cons_of_ne_nil hne
    refine ⟨c, t, rfl, ?_⟩
    by_contra hc
    have hdrop := hlen t
    rw [List.dropWhile_cons_of_pos (by simpa using hc)] at htrim hall
    simp only [List.length_cons] at htrim
    omega
  refine ⟨hstart, ?_⟩
  obtain ⟨c, t, hw, hc⟩ := hstart
  have hfix : w.dropWhile isBlank = w := by rw [hw]; simp [hc]
  obtain ⟨u, d, rfl⟩ := (List.eq_nil_or_concat w).resolve_left hne
  rw [List.concat_eq_append] at hfix htrim ⊢
  refine ⟨u, d, rfl, ?_⟩
  by_contra hd
  have hdrop := hlen u.reverse
  rw [hfix, List.reverse_append] at htrim
  simp only [List.reverse_cons, List.reverse_nil, List.nil_append, List.cons_append,
    List.length_append, List.length_cons, List.length_nil] at htrim
  rw [List.dropWhile_cons_of_pos (by simpa using hd)] at htrim
  rw [List.length_reverse] at hdrop
  omega

/-- The last character that is no blank stops the search for blanks. -/
theorem exists_dropWhile_concat {c : Char} (hc : isBlank c = false) (t : Text) :
    ∃ u, (t ++ [c]).dropWhile isBlank = u ++ [c] := by
  induction t with
  | nil => exact ⟨[], by simp [hc]⟩
  | cons d t ih =>
    cases hd : isBlank d with
    | true => simpa [hd] using ih
    | false => exact ⟨d :: t, by simp [hd]⟩

theorem mem_of_mem_trim {t : Text} {c : Char} (h : c ∈ trim t) : c ∈ t := by
  have h := List.mem_reverse.mp ((List.dropWhile_sublist _).subset (List.mem_reverse.mp h))
  exact (List.dropWhile_sublist _).subset h

/-- Before what trimming leaves at the start are blanks. -/
theorem exists_append_trimStart (t : Text) :
    ∃ blanks, t = blanks ++ trimStart t ∧ ∀ c ∈ blanks, isBlank c = true :=
  ⟨t.takeWhile isBlank, List.takeWhile_append_dropWhile.symm, fun _ hc => List.mem_takeWhile_imp hc⟩

/-- A text that holds more than blanks keeps its end where its start is trimmed. -/
theorem trimStart_append {t : Text} (h : trimStart t ≠ []) (u : Text) :
    trimStart (t ++ u) = trimStart t ++ u := by
  unfold trimStart at h ⊢
  rw [List.dropWhile_append, if_neg (by simpa using h)]

/-- Blanks at its ends are all that a trimmed text loses. -/
theorem trim_padded {v a b : Text} (hv : trim v = v) (hne : v ≠ []) (ha : ∀ c ∈ a, isBlank c = true)
    (hb : ∀ c ∈ b, isBlank c = true) : trim (a ++ (v ++ b)) = v := by
  obtain ⟨⟨c, t, hct, hc⟩, u, d, hud, hd⟩ := exists_ends_of_trim hv hne
  have hstart : trimStart (a ++ (v ++ b)) = v ++ b := by
    rw [trimStart, List.dropWhile_append_of_pos ha, hct, List.cons_append]
    exact trimStart_of_head hc
  rw [trim, hstart, trimEnd, List.reverse_append,
    List.dropWhile_append_of_pos fun x hx => hb x (List.mem_reverse.mp hx), hud]
  simp [hd]

/-- Blanks are all that a text loses where it is trimmed. -/
theorem exists_append_trim (t : Text) : ∃ a b, t = a ++ (trim t ++ b) ∧ (∀ c ∈ a, isBlank c = true) ∧
    ∀ c ∈ b, isBlank c = true := by
  obtain ⟨a, ha, hablank⟩ := exists_append_trimStart t
  obtain ⟨b, hb, hbblank⟩ := exists_append_trimStart (trimStart t).reverse
  refine ⟨a, b.reverse, ?_, hablank, fun c hc => hbblank c (List.mem_reverse.mp hc)⟩
  have hend : trimStart t = trim t ++ b.reverse := by
    rw [trim, trimEnd, ← List.reverse_append]
    exact (congrArg List.reverse hb).symm ▸ (List.reverse_reverse _).symm
  rw [← hend]
  exact ha

/-- Trimming makes no text longer. -/
theorem trim_length_le (t : Text) : (trim t).length ≤ t.length := by
  obtain ⟨a, b, ht, -⟩ := exists_append_trim t
  have := congrArg List.length ht
  simp only [List.length_append] at this
  omega

/-- Blanks at the end of a text are of no account where it is trimmed. -/
theorem trim_append {b : Text} (hb : ∀ c ∈ b, isBlank c = true) (t : Text) : trim (t ++ b) = trim t := by
  have hend (u : Text) : trimEnd (u ++ b) = trimEnd u := by
    rw [trimEnd, List.reverse_append,
      List.dropWhile_append_of_pos fun c hc => hb c (List.mem_reverse.mp hc), trimEnd]
  by_cases ht : trimStart t = []
  · have hall : ∀ c ∈ t ++ b, isBlank c = true :=
      List.forall_mem_append.mpr ⟨List.dropWhile_eq_nil_iff.mp ht, hb⟩
    have hboth : trimStart (t ++ b) = [] := List.dropWhile_eq_nil_iff.mpr hall
    rw [trim, trim, ht, hboth]
  · rw [trim, trim, trimStart_append ht, hend]

/-- A blank before a trimmed text is all that is trimmed. -/
theorem trim_cons_space {v : Text} (hv : trim v = v) (hne : v ≠ []) : trim (' ' :: v) = v := by
  have hspace : ∀ c ∈ [' '], isBlank c = true := List.forall_mem_singleton.mpr rfl
  simpa using trim_padded hv hne hspace (b := []) (by simp)

/-! ## Characters that are no blanks

  The measure by which no text gets lost: what moves white space only keeps them.
-/

/-- The characters of a text that are no blanks. -/
def inked (t : Text) : Text := t.filter fun c => !isBlank c

/-- What is inked is found in each part of a text by itself. -/
theorem inked_append (t u : Text) : inked (t ++ u) = inked t ++ inked u := List.filter_append ..

theorem inked_reverse (t : Text) : inked t.reverse = (inked t).reverse := List.filter_reverse ..

theorem inked_of_blank {t : Text} (h : ∀ c ∈ t, isBlank c = true) : inked t = [] :=
  List.filter_eq_nil_iff.mpr fun c hc => by simp [h c hc]

theorem inked_trimStart (t : Text) : inked (trimStart t) = inked t := by
  obtain ⟨a, ht, ha⟩ := exists_append_trimStart t
  conv_rhs => rw [ht, inked_append, inked_of_blank ha, List.nil_append]

/-- Trimming takes white space only. -/
theorem inked_trim (t : Text) : inked (trim t) = inked t := by
  obtain ⟨a, b, ht, ha, hb⟩ := exists_append_trim t
  conv_rhs => rw [ht, inked_append, inked_append, inked_of_blank ha, inked_of_blank hb, List.nil_append, List.append_nil]

/-- A text that is not only white space has some ink. -/
theorem inked_ne_nil {t : Text} (h : trim t ≠ []) : inked t ≠ [] := by
  obtain ⟨⟨c, u, hcu, hc⟩, -⟩ := exists_ends_of_trim (trim_idem t) h
  rw [← inked_trim, hcu, inked, List.filter_cons_of_pos (by simp [hc])]
  exact List.cons_ne_nil _ _

/-! ## Case

  Letters are compared after folding. There are two letters beyond ASCII that fold to ASCII letters, and
  lower case may differ from folding; these lemmas relate the two.
-/

/-- What is read for a word differs from it in case alone. -/
theorem map_foldCase_of_dropFolded? {w t r : Text} (h : dropFolded? w t = some r) :
    ∃ u, t = u ++ r ∧ w.map foldCase = u.map foldCase := by
  induction w generalizing t with
  | nil =>
    simp only [dropFolded?, Option.some.injEq] at h
    exact ⟨[], by simp [h], rfl⟩
  | cons f w ih =>
    cases t with
    | nil => simp [dropFolded?] at h
    | cons c t =>
      simp only [dropFolded?] at h
      split at h
      · rename_i hc
        obtain ⟨u, hu, hw⟩ := ih h
        exact ⟨c :: u, by simp [hu], by simp [hc, hw]⟩
      · simp at h

/-- Blanks have no other case. -/
theorem foldCase_of_isBlank {c : Char} (h : isBlank c = true) : foldCase c = c := by
  have hne : ∀ d, isBlank d = false → c ≠ d := by
    rintro d hd rfl
    rw [h] at hd
    exact Bool.noConfusion hd
  have hupper : c.isUpper = false := by
    by_contra hupper
    simp only [Char.isUpper, ge_iff_le, decide_eq_true_eq, Bool.not_eq_false,
      UInt32.le_iff_toNat_le] at hupper
    have hA : 'A'.val.toNat = 65 := rfl
    have hZ : 'Z'.val.toNat = 90 := rfl
    have hc : c.toNat = c.val.toNat := rfl
    have hascii : c.toNat < 0x80 := by omega
    simp only [isBlank, hascii, if_true, Bool.or_eq_true, Bool.and_eq_true, decide_eq_true_eq] at h
    omega
  have hlower : c.toLower = c := by
    unfold Char.toLower
    rw [dif_neg (by simpa [Char.isUpper] using hupper)]
  simp [foldCase, hne '\u0130' (by decide), hne '\u0131' (by decide), hne '\u017F' (by decide),
    hne '\u212A' (by decide), hlower]

/-- The code points of blanks, and some more. -/
def blankCodes : List Nat :=
  List.range 0x21 ++ [0x85, 0xA0, 0x1680] ++ List.range' 0x2000 0xB ++
    [0x2028, 0x2029, 0x202F, 0x205F, 0x3000]

/-- The codes of the characters that count as white space are those of the table. -/
theorem toNat_mem_blankCodes {c : Char} (h : isBlank c = true) : c.toNat ∈ blankCodes := by
  simp only [isBlank] at h
  simp only [blankCodes, List.mem_append, List.mem_range, List.mem_cons, List.not_mem_nil, or_false,
    List.mem_range'_1]
  split at h <;> simp only [Bool.or_eq_true, Bool.and_eq_true, decide_eq_true_eq, beq_iff_eq] at h <;>
    omega

/-- Blanks belong to no word. -/
theorem isWordChar_of_isBlank {c : Char} (h : isBlank c = true) : isWordChar c = false := by
  have hall : blankCodes.all (fun n => !isWordChar (Char.ofNat n)) = true := by decide +kernel
  have hc := List.all_eq_true.mp hall _ (toNat_mem_blankCodes h)
  rw [Char.ofNat_toNat] at hc
  simpa using hc

/-- A character whose lower case is an ASCII letter is one. -/
theorem isAlpha_of_toLower {c : Char} (h : c.toLower.isAlpha = true) : c.isAlpha = true := by
  unfold Char.toLower at h
  split at h
  · rename_i hupper
    simpa [Char.isAlpha, Char.isUpper] using Or.inl hupper
  · exact h

/-- What stands for a keyword of letters has only letters. -/
theorem isAlpha_of_lower {name : Text} {k : String} (hk : toString (lower name) = k)
    (halpha : (ofString k).all Char.isAlpha = true) : ∀ c ∈ name, c.isAlpha = true := by
  intro c hc
  have hmem : c.toLower ∈ ofString k := by
    rw [← hk, toString, ofString, String.toList_ofList]
    exact List.mem_map_of_mem hc
  exact isAlpha_of_toLower (List.all_eq_true.mp halpha _ hmem)

/-- Folding does not see whether a letter was put to lower case before: the folds of the few letters beyond
    ASCII are looked up one by one. -/
theorem foldCase_toLower (c : Char) : foldCase c.toLower = foldCase c := by
  have hcapitals : ∀ n < 26,
      foldCase (Char.ofNat (65 + n)).toLower = foldCase (Char.ofNat (65 + n)) := by
    decide
  by_cases hupper : c.isUpper = true
  · simp only [Char.isUpper, decide_eq_true_eq, UInt32.le_iff_toNat_le] at hupper
    have hA : 'A'.val.toNat = 65 := rfl
    have hZ : 'Z'.val.toNat = 90 := rfl
    have hc : c = Char.ofNat (65 + (c.toNat - 65)) := by
      have : 65 ≤ c.toNat := by unfold Char.toNat; omega
      rw [Nat.add_sub_cancel' this, Char.ofNat_toNat]
    rw [hc]
    exact hcapitals _ (by unfold Char.toNat; omega)
  · have hsame : c.toLower = c := by
      unfold Char.toLower
      rw [dif_neg (by simpa [Char.isUpper] using hupper)]
    rw [hsame]

/-- Lower case is folded as the text is. -/
theorem map_foldCase_lower (t : Text) : (lower t).map foldCase = t.map foldCase := by
  rw [lower, List.map_map]
  exact List.map_congr_left fun c _ => foldCase_toLower c

/-- A word that differs in case alone is read, whatever follows. -/
theorem dropFolded?_append {u w : Text} (h : w.map foldCase = u.map foldCase) (r : Text) :
    dropFolded? w (u ++ r) = some r := by
  induction w generalizing u with
  | nil =>
    obtain rfl : u = [] := by simpa using h.symm
    rfl
  | cons f w ih =>
    cases u with
    | nil => simp at h
    | cons c u =>
      obtain ⟨hc, hu⟩ := List.cons.inj h
      rw [List.cons_append, dropFolded?, if_pos hc]
      exact ih hu

/-- A character that no letter of a word stands for ends the reading of the word as the end of the text
    does. -/
theorem dropFolded?_stop {word : Text} {c : Char} (hc : foldCase c ∉ word.map foldCase)
    (t r : Text) :
    dropFolded? word (t ++ c :: r) = (dropFolded? word t).map (· ++ c :: r) := by
  induction word generalizing t with
  | nil => rfl
  | cons f word ih =>
    simp only [List.map_cons, List.mem_cons, not_or] at hc
    cases t with
    | nil => simp [dropFolded?, Ne.symm hc.1]
    | cons d t =>
      by_cases hfd : foldCase f = foldCase d
      · simp [dropFolded?, hfd, ih hc.2]
      · simp [dropFolded?, hfd]

end Text

end CssShorthand
