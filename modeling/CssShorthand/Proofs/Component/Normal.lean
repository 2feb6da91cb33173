/-
  NORMAL TEXTS.

  A text is normalized before it is scanned: line ends are newlines, and NUL is replaced.  A text that
  is normal already stays as it is (`normalize_of_normal`), and what is written of a name, a string or
  a URL is normal, because the characters that are not are written as escapes.

  Most lemmas about reading are about normalized texts. They apply to a text as it stands if it is normal,
  and to a front of it if that front is (`normalize_append`): a carriage return at the end of a front could
  belong to a line feed behind it.
-/
import Mathlib.Tactic.Tauto
import CssShorthand.Proofs.Component.Written

namespace CssShorthand

open List

namespace Lexeme

/-- A text as it is scanned has neither NUL nor carriage returns nor form feeds. -/
def Normal (t : Text) : Prop := '\x00' ∉ t ∧ '\r' ∉ t ∧ '\x0C' ∉ t

instance (t : Text) : Decidable (Normal t) := inferInstanceAs (Decidable (_ ∧ _))

/-- A text made of the characters of a normal one is normal. -/
theorem Normal.subset {t u : Text} (h : Normal t) (hu : u ⊆ t) : Normal u :=
  ⟨fun hmem => h.1 (hu hmem), fun hmem => h.2.1 (hu hmem), fun hmem => h.2.2 (hu hmem)⟩

/-- Without a carriage return there is no line end to unify. -/
theorem unifyLineEnds_of_not_mem {t : Text} (h : '\r' ∉ t) : Text.unifyLineEnds t = t := by
  fun_induction Text.unifyLineEnds t with
  | case1 => rfl
  | case2 t ih => exact absurd mem_cons_self h
  | case3 c t _ ih =>
    simp only [mem_cons, not_or] at h
    rw [if_neg (Ne.symm h.1), ih h.2]

/-- With its line ends unified a text has no carriage return. -/
theorem not_mem_unifyLineEnds (t : Text) : '\r' ∉ Text.unifyLineEnds t := by
  fun_induction Text.unifyLineEnds t with
  | case1 => exact not_mem_nil
  | case2 t ih =>
    simp only [mem_cons, not_or]
    exact ⟨by decide, ih⟩
  | case3 c t _ ih =>
    simp only [mem_cons, not_or]
    refine ⟨?_, ih⟩
    split
    · decide
    · rename_i hc
      exact Ne.symm hc

/-- **A text that is normalized is normal.** -/
theorem normal_normalize (t : Text) : Normal (normalize t) := by
  have hmem : ∀ d, d ∈ normalize t → ∃ c ∈ Text.unifyLineEnds t,
      (if c = '\x00' then Name.replacement else if c = '\x0C' then '\n' else c) = d :=
    fun d hd => mem_map.mp hd
  refine ⟨fun h => ?_, fun h => ?_, fun h => ?_⟩
  · obtain ⟨c, -, hc⟩ := hmem _ h
    split at hc
    · exact absurd hc (by decide)
    · split at hc
      · exact absurd hc (by decide)
      · contradiction
  · obtain ⟨c, hcr, hc⟩ := hmem _ h
    split at hc
    · exact absurd hc (by decide)
    · split at hc
      · exact absurd hc (by decide)
      · exact not_mem_unifyLineEnds t (hc ▸ hcr)
  · obtain ⟨c, -, hc⟩ := hmem _ h
    split at hc
    · exact absurd hc (by decide)
    · split at hc
      · exact absurd hc (by decide)
      · contradiction

/-- A normal text stays as it is. -/
theorem normalize_of_normal {t : Text} (h : Normal t) : normalize t = t := by
  rw [normalize, unifyLineEnds_of_not_mem h.2.1]
  conv_rhs => rw [← map_id t]
  refine map_congr_left fun c hc => ?_
  have hnul : c ≠ '\x00' := fun heq => h.1 (heq ▸ hc)
  have hfeed : c ≠ '\x0C' := fun heq => h.2.2 (heq ▸ hc)
  simp [hnul, hfeed]

/-- The first character of a text is unified with the second, or alone. -/
theorem unifyLineEnds_cons (c : Char) (t : Text) :
    Text.unifyLineEnds (c :: t) = if c = '\r' ∧ t.head? = some '\n' then Text.unifyLineEnds t
      else (if c = '\r' then '\n' else c) :: Text.unifyLineEnds t := by
  split
  · rename_i hline
    obtain ⟨rfl, hhead⟩ := hline
    obtain ⟨u, rfl⟩ := head?_eq_some_iff.mp hhead
    rfl
  · rename_i hline
    rw [Text.unifyLineEnds]
    rintro u rfl rfl
    exact hline ⟨rfl, rfl⟩

/-- A normal front of a text stays as it is. -/
theorem normalize_append {w : Text} (h : Normal w) (t : Text) :
    normalize (w ++ t) = w ++ normalize t := by
  induction w with
  | nil => rfl
  | cons c w ih =>
    have hc : c ≠ '\x00' ∧ c ≠ '\r' ∧ c ≠ '\x0C' := by
      refine ⟨?_, ?_, ?_⟩
      · exact fun heq => h.1 (heq ▸ mem_cons_self)
      · exact fun heq => h.2.1 (heq ▸ mem_cons_self)
      · exact fun heq => h.2.2 (heq ▸ mem_cons_self)
    have hline : Text.unifyLineEnds (c :: (w ++ t)) = c :: Text.unifyLineEnds (w ++ t) := by
      rw [unifyLineEnds_cons, if_neg fun h => hc.2.1 h.1, if_neg hc.2.1]
    have ih := ih (h.subset fun _ => mem_cons_of_mem _)
    rw [normalize] at ih ⊢
    rw [cons_append, hline, map_cons, ih, if_neg hc.1, if_neg hc.2.2]
    rfl

/-- A character is scanned for itself, but for the first of two that make one line end; no other character is
    scanned as a star or a slash. -/
theorem exists_normalize_cons (c : Char) :
    ∃ d, (∀ e, e = '*' ∨ e = '/' → (d = e ↔ c = e)) ∧ ∀ t : Text,
      normalize (c :: t) = if c = '\r' ∧ t.head? = some '\n' then normalize t else d :: normalize t := by
  by_cases hr : c = '\r'
  · subst hr
    refine ⟨'\n', by rintro e (rfl | rfl) <;> decide, fun t => ?_⟩
    rw [normalize, unifyLineEnds_cons]
    split <;> rfl
  · refine ⟨if c = '\x00' then Name.replacement else if c = '\x0C' then '\n' else c, fun e he => ?_, fun t => ?_⟩
    · split
      · rename_i h
        subst h
        rcases he with rfl | rfl <;> decide
      · split
        · rename_i h
          subst h
          rcases he with rfl | rfl <;> decide
        · rfl
    · rw [normalize, unifyLineEnds_cons, if_neg hr]
      split <;> rfl

/-- A text begins with a star or a slash once it is normal only if it did before. -/
theorem head?_of_normalize {e : Char} (he : e = '*' ∨ e = '/') {t : Text} (h : (normalize t).head? = some e) :
    t.head? = some e := by
  cases t with
  | nil => exact h
  | cons c t =>
    obtain ⟨d, hd, hcons⟩ := exists_normalize_cons c
    rw [hcons] at h
    split at h
    · rename_i hline
      obtain ⟨u, rfl⟩ := head?_eq_some_iff.mp hline.2
      have hnormal := normalize_append (by decide : Normal ['\n']) u
      rw [singleton_append] at hnormal
      rw [hnormal] at h
      rcases he with rfl | rfl <;> exact absurd (Option.some.inj h) (by decide)
    · exact congrArg some ((hd e he).mp (Option.some.inj h))

/-! ## What is written is normal

  Each character is written as itself, behind a backslash, or as the code of it. A normal name, string or
  url has none of the characters that are replaced, and the codes consist of digits and letters.
-/

theorem normal_append {t u : Text} : Normal (t ++ u) ↔ Normal t ∧ Normal u := by
  simp only [Normal, mem_append, not_or]
  tauto

/-- A text is normal when each of its pieces is. -/
theorem normal_flatMap {t : Text} {f : Char → Text} (h : ∀ c ∈ t, Normal (f c)) :
    Normal (t.flatMap f) := by
  simp only [Normal, mem_flatMap, not_exists, not_and]
  exact ⟨fun c hc => (h c hc).1, fun c hc => (h c hc).2.1, fun c hc => (h c hc).2.2⟩

/-- Normal texts that are joined make a normal text. -/
theorem normal_join {sep : Text} (hsep : Normal sep) {parts : List Text}
    (h : ∀ t ∈ parts, Normal t) : Normal (Text.join sep parts) := by
  induction parts with
  | nil => exact (by decide : Normal [])
  | cons t parts ih =>
    have hrest := ih fun u hu => h u (mem_cons_of_mem _ hu)
    cases parts with
    | nil => simpa [Text.join] using h t mem_cons_self
    | cons u parts =>
      simp only [Text.join, intercalate_cons_cons, normal_append] at hrest ⊢
      exact ⟨⟨h t mem_cons_self, hsep⟩, hrest⟩

/-- An escape is normal: it is a backslash with the character behind it, or with hexadecimal digits and a
    space. -/
theorem normal_escaped {c : Char} (hc : c ≠ '\x00') : Normal (Name.escaped c) := by
  unfold Name.escaped
  split
  · decide
  · split
    · decide
    · split
      · decide
      · rename_i hr hf
        simp [Normal, hc.symm, Ne.symm hr, Ne.symm hf]

/-- Characters of names are normal. -/
theorem normal_of_isChar {c : Char} (h : Name.isChar c = true) : Normal [c] := by
  have hne : ∀ d, Name.isChar d = false → d ≠ c := by
    rintro d hd rfl
    rw [h] at hd
    exact Bool.noConfusion hd
  simp only [Normal, mem_singleton]
  exact ⟨hne _ rfl, hne _ rfl, hne _ rfl⟩

/-- A name is written with escapes for all other characters. -/
theorem normal_write {n : Text} (h : '\x00' ∉ n) : Normal (Name.write n) := by
  refine normal_flatMap fun c hc => ?_
  split
  · rename_i hchar
    exact normal_of_isChar hchar
  · exact normal_escaped fun heq => h (heq ▸ hc)

/-- Hexadecimal digits are normal. -/
theorem normal_upperHex (n : Nat) : Normal (Name.upperHex n) := by
  have hnot : ∀ c, Name.isHexDigit c = false → c ∉ Name.upperHex n := fun c hc h => by
    rw [Name.isHexDigit_of_mem_toDigits h] at hc
    exact Bool.noConfusion hc
  exact ⟨hnot _ rfl, hnot _ rfl, hnot _ rfl⟩

/-- So is the first character of a name, of which more have to be escaped. -/
theorem normal_writeStart {c : Char} (hc : c ≠ '\x00') : Normal (Name.writeStart c) := by
  unfold Name.writeStart
  split
  · rename_i h
    exact normal_of_isChar (by simp [Name.isChar, h])
  · split
    · exact normal_append.mpr ⟨normal_append.mpr ⟨(by decide : Normal ['\\']), normal_upperHex _⟩, by decide⟩
    · exact normal_escaped hc

/-- An identifier may begin with a hyphen, which stands for itself or is escaped. -/
theorem normal_writeIdentifier {n : Text} (h : '\x00' ∉ n) : Normal (Name.writeIdentifier n) := by
  unfold Name.writeIdentifier
  split
  · decide
  · decide
  · rename_i rest
    have hrest : '\x00' ∉ rest := fun hmem => h (by simp [hmem])
    exact normal_append.mpr ⟨(by decide : Normal ['-', '-']), normal_write hrest⟩
  · rename_i c rest _
    have hc : c ≠ '\x00' := fun heq => h (by simp [heq])
    have hrest : '\x00' ∉ rest := fun hmem => h (by simp [hmem])
    exact normal_append.mpr ⟨normal_append.mpr ⟨(by decide : Normal ['-']), normal_writeStart hc⟩,
      normal_write hrest⟩
  · rename_i c rest _ _ _
    have hc : c ≠ '\x00' := fun heq => h (by simp [heq])
    have hrest : '\x00' ∉ rest := fun hmem => h (by simp [hmem])
    exact normal_append.mpr ⟨normal_writeStart hc, normal_write hrest⟩

/-- A unit that begins like an exponent begins with an escape. -/
theorem normal_writeUnit {n : Text} (h : '\x00' ∉ n) : Normal (Name.writeUnit n) := by
  unfold Name.writeUnit
  split
  · split
    · decide
    · exact normal_writeIdentifier h
  · rename_i c rest
    split
    · refine normal_append.mpr ⟨by decide, normal_write fun hmem => h ?_⟩
      exact mem_cons_of_mem _ hmem
    · exact normal_writeIdentifier h
  · exact normal_writeIdentifier h

/-- In a string the ends of lines are written as escapes. -/
theorem normal_writeInString {c : Char} (hc : c ≠ '\x00') : Normal (Name.writeInString c) := by
  unfold Name.writeInString
  split
  · decide
  · split
    · decide
    · split
      · exact normal_escaped hc
      · rename_i hline
        simp only [not_or] at hline
        simp [Normal, hc.symm, Ne.symm hline.2.1, Ne.symm hline.2.2]

/-- In a URL they are as well. -/
theorem normal_writeInUrl {c : Char} (hc : c ≠ '\x00') : Normal (Name.writeInUrl c) := by
  unfold Name.writeInUrl
  split
  · rename_i h
    rcases h with rfl | rfl | rfl | rfl | rfl | rfl <;> decide
  · split
    · decide
    · split
      · exact normal_escaped hc
      · rename_i hline
        simp only [not_or] at hline
        simp [Normal, hc.symm, Ne.symm hline.2.1, Ne.symm hline.2.2]

/-- Ranges of code points are made of digits. -/
theorem normal_writeRange (first last : Nat) : Normal (Component.writeRange first last) := by
  unfold Component.writeRange
  refine normal_append.mpr ⟨normal_append.mpr ⟨by decide, normal_upperHex first⟩, ?_⟩
  split
  · decide
  · exact normal_append.mpr ⟨(by decide : Normal ['-']), normal_upperHex last⟩

end Lexeme

end CssShorthand
