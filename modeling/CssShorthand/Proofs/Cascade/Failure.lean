/-
  WHEN EXPANSION FAILS, AND WHAT IT LEAVES THEN.

  Expanding all shorthands fails for the values of boxes and of fonts that cannot be read
  (`Cascade.Unreadable`), and for nothing else.  The value of a box of the border counts only if
  `border` does not overwrite it, since `border` is expanded first.  What `border` itself is sliced into
  can always be read as the value of a box, colors with comments included
  (`split_of_mem_spread_border`).

  A failure is one of the value, never of a name, and the store is then as it was
  (`Cascade.expandAll_fails_iff`).
-/
import CssShorthand.Proofs.Cascade.Alone

namespace CssShorthand

/-! ## Values that cannot be read

  By shorthand: boxes ask for one to four parts, fonts for the grammar of a font, and the others take
  anything.
-/

/-- The number of parts of a value is not one to four. -/
def Component.Misfits (v : Text) : Prop := ¬(1 ≤ (split v).length ∧ (split v).length ≤ 4)

/-- Four sides are rejected when their number is wrong, and with the error of an invalid value. -/
theorem Sides.ofValue_eq_error {v : Text} {f : Failure} (h : Sides.ofValue v = .error f) :
    Component.Misfits v ∧ f.isInvalidValue = true := by
  unfold Sides.ofValue at h
  dsimp only at h
  split at h
  · contradiction
  · rename_i hnone
    have hlength := Sides.ofList?_eq_none_iff.mp hnone
    refine ⟨by unfold Component.Misfits; omega, ?_⟩
    rw [← Except.error.inj h]
    rfl

/-- A wrong number of sides is rejected. -/
theorem Sides.exists_error_of_misfits {v : Text} (h : Component.Misfits v) :
    ∃ f, Sides.ofValue v = .error f := by
  have hnone : Sides.ofList? (Component.split v) = none := by
    rw [Sides.ofList?_eq_none_iff]
    unfold Component.Misfits at h
    omega
  exact ⟨.boxParts v (Component.split v).length, by simp [Sides.ofValue, hnone]⟩

/-- A font value is rejected for its size or its line height. -/
theorem FontReading.isInvalidValue_of_error {v : Text} {f : Failure} (h : ofValue v = .error f) :
    f.isInvalidValue = true := by
  have hheight : ∀ {values c g}, readLineHeight v values c = .error g → g.isInvalidValue = true := by
    intro values c g hg
    unfold readLineHeight at hg
    split at hg
    · contradiction
    · split at hg
      · contradiction
      · rw [← Except.error.inj hg]
        rfl
  unfold ofValue at h
  dsimp only at h
  split at h
  · contradiction
  · unfold readSize at h
    split at h
    · rw [← Except.error.inj h]
      rfl
    · split at h
      · rename_i g hg
        rw [← Except.error.inj h]
        exact hheight hg
      · contradiction

/-- A value that is a keyword for every property has one part. -/
theorem not_misfits_of_cssWide {v : Text} {k : String} (h : cssWideKeyword? v = some k) :
    ¬Component.Misfits v := by
  obtain ⟨c, hc⟩ : ∃ c, Component.significant (Component.parse v) = [c] := by
    unfold cssWideKeyword? at h
    cases hs : Component.significant (Component.parse v) with
    | nil => simp [hs, Component.soleKeyword?] at h
    | cons c cs =>
      cases cs with
      | nil => exact ⟨c, rfl⟩
      | cons d cs => simp [hs, Component.soleKeyword?] at h
  have hgroups := Component.groups_of_significant Component.isComment_of_mem_parse hc
  simp [Component.Misfits, Component.split, hgroups]

namespace Cascade

/-- The value of a shorthand cannot be read if it is one of a box with a wrong number of parts, or of a
    font that is rejected. -/
theorem not_reads_iff {sh : Shorthand} {d : Declaration} :
    ¬Reads (sh.name, d) ↔
      (∃ b, sh = .box b ∧ Component.Misfits d.value) ∨
        (sh = .font ∧ cssWideKeyword? d.value = none ∧
          ∃ f, FontReading.ofValue d.value = .error f) := by
  have hreads : Reads (sh.name, d) ↔ ∃ e, sh.expand d.value = .ok e := by
    simp [Reads, expandValue, Shorthand.ofName?_name]
  rw [hreads]
  unfold Shorthand.expand
  cases hk : cssWideKeyword? d.value with
  -- A keyword of every property fits every shorthand.
  | some k => simp [not_misfits_of_cssWide hk]
  | none =>
    cases sh with
    | box b =>
      cases hv : Sides.ofValue d.value with
      | ok sides =>
        have hfits : ¬Component.Misfits d.value := fun hm => by
          obtain ⟨f, hf⟩ := Sides.exists_error_of_misfits hm
          rw [hv] at hf
          contradiction
        simp [Shorthand.expandOwn, hv, hfits]
      | error f => simp [Shorthand.expandOwn, hv, (Sides.ofValue_eq_error hv).1]
    | font =>
      cases hv : FontReading.ofValue d.value with
      | ok reading => simp [Shorthand.expandOwn, hv]
      | error f => simp [Shorthand.expandOwn, hv]
    -- Slicing takes what it finds and never fails.
    | _ => simp [Shorthand.expandOwn]

/-- A value that cannot be read is an invalid value. -/
theorem isInvalidValue_of_expandValue {sh : Shorthand} {v : Text} {f : Failure}
    (h : expandValue sh.name v = .error f) : f.isInvalidValue = true := by
  simp only [expandValue, Shorthand.ofName?_name, Shorthand.expand] at h
  split at h
  · contradiction
  · unfold Shorthand.expandOwn at h
    split at h
    · split at h
      · contradiction
      · rename_i hv
        rw [← Except.error.inj h]
        exact (Sides.ofValue_eq_error hv).2
    · split at h
      · contradiction
      · rename_i hv
        rw [← Except.error.inj h]
        exact FontReading.isInvalidValue_of_error hv
    · contradiction

end Cascade

namespace Store

/-- Expanding a shorthand fails for its value only. -/
theorem isInvalidValue_of_expand {s : Store} {sh : Shorthand} {f : Failure}
    (h : s.expand sh.name = .error f) : f.isInvalidValue = true := by
  by_cases hmem : sh.name ∈ s.names
  · obtain ⟨⟨n, d⟩, hd, rfl⟩ := Entries.mem_names_iff.mp hmem
    cases he : expandValue sh.name d.value with
    | error g =>
      rw [expand_of_error hd he] at h
      exact Except.error.inj h ▸ Cascade.isInvalidValue_of_expandValue he
    | ok e =>
      obtain ⟨before, after, hs⟩ := List.append_of_mem hd
      obtain ⟨t, ht, -⟩ := map_expand_of_ok hs he
      rw [h] at ht
      contradiction
  · rw [expand_of_not_mem sh.trimName_name hmem] at h
    contradiction

/-- The loop passes on the error of its first failing step. By induction on the shorthands. -/
theorem isInvalidValue_of_expandEach {s : Store} {l : List Shorthand} {f : Failure}
    (h : s.expandEach (l.map Shorthand.name) = .error f) : f.isInvalidValue = true := by
  induction l generalizing s with
  | nil => contradiction
  | cons sh l ih =>
    rw [List.map_cons, expandEach_cons] at h
    cases hsh : s.expand sh.name with
    | error g =>
      rw [hsh] at h
      exact Except.error.inj h ▸ isInvalidValue_of_expand hsh
    | ok r =>
      rw [hsh] at h
      exact ih h

end Store

namespace Cascade

/-! ## What keeps a store from being expanded

  A value that cannot be read counts only if the program comes to read it.
-/

/-- A declaration of a box of the border is overwritten: a declared `border` sets this box, and wins over
    the declaration by importance or, with the same importance, by its later place. -/
def Overwritten (s : Store) (x : String × Declaration) : Prop :=
  ∃ d, (Shorthand.border.name, d) ∈ s.entries ∧
    x.1 ∈ (spread (Shorthand.border.name, d)).names ∧ s.rank x < s.rank (Shorthand.border.name, d)

/-- Some value of the store cannot be read when all shorthands are expanded. -/
inductive Unreadable (s : Store) : Prop
  /-- A margin or padding without one to four parts. -/
  | space {b : BoxShorthand} {d : Declaration} (hb : b = .margin ∨ b = .padding)
      (hd : (b.name, d) ∈ s.entries) (hparts : Component.Misfits d.value)
  /-- A box of the border without one to four parts that `border` does not overwrite. -/
  | border {b : BoxShorthand} {d : Declaration}
      (hb : b = .borderColor ∨ b = .borderStyle ∨ b = .borderWidth)
      (hd : (b.name, d) ∈ s.entries) (hparts : Component.Misfits d.value)
      (hkept : ¬Overwritten s (b.name, d))
  /-- A font that is rejected, and neither a keyword that every property takes nor the name of a font of
      the system. -/
  | font {d : Declaration} (hd : (Shorthand.font.name, d) ∈ s.entries)
      (hkeyword : cssWideKeyword? d.value = none)
      (hsystem : FontReading.isSystem (Component.parse d.value) = false)
      (hrejected : ∃ f, FontReading.ofValue d.value = .error f)

variable {s : Store} {x y : String × Declaration}

/-- Only `border` can keep a declaration from the second level. -/
theorem mem_decided_iff_not_overwritten (hx : x ∈ s.entries) (hborder : x.1 ≠ Shorthand.border.name) :
    x ∈ decided s x ↔ ¬Overwritten s x := by
  have hfx : first x = [x] := (first_cases x).elim (·.2) fun h => absurd h.1 hborder
  rw [← not_iff_not, not_not, not_mem_decided_iff (hfx ▸ List.mem_singleton_self x)]
  constructor
  · rintro ⟨⟨n, d⟩, hb, hxb, hlt⟩
    by_cases hn : n = Shorthand.border.name
    · subst hn
      exact ⟨d, hb, by simpa [first] using hxb, hlt⟩
    · have hfb : first (n, d) = [(n, d)] := (first_cases (n, d)).elim (·.2) fun h => absurd h.1 hn
      rw [hfb] at hxb
      rw [Store.eq_of_mem_of_name_eq hx hb (List.mem_singleton.mp hxb)] at hlt
      exact absurd hlt (lt_irrefl _)
  · rintro ⟨d, hd, hxd, hlt⟩
    exact ⟨_, hd, by simpa [first] using hxd, hlt⟩

/-- What `border` does not set it does not overwrite. -/
theorem not_overwritten {n : String} {d : Declaration} (h : n ∉ Shorthand.border.longhands) :
    ¬Overwritten s (n, d) := by
  rintro ⟨d, -, hx, -⟩
  obtain ⟨e, he, hne⟩ := Shorthand.expandValue_border d.value
  exact h ((names_spread_sublist he hne).subset hx)

/-- A value that cannot be read on the second level is that of a declaration of the store: what `border`
    spreads into has one part. -/
theorem eq_of_not_reads {sh : Shorthand} (hy : y ∈ first x) (hname : y.1 = sh.name)
    (hreads : ¬Reads y) : y = x ∧ x.1 ≠ Shorthand.border.name := by
  rcases first_cases x with ⟨hne, hf⟩ | ⟨hborder, hf⟩
  · exact ⟨List.mem_singleton.mp (hf ▸ hy), hne⟩
  · exfalso
    have hlong := hf y hy
    obtain ⟨n, d⟩ := x
    obtain rfl : n = Shorthand.border.name := hborder
    obtain ⟨w, hw⟩ := split_of_mem_spread_border (by simpa [first] using hy)
    obtain ⟨m, c⟩ := y
    obtain rfl : m = sh.name := hname
    rcases not_reads_iff.mp hreads with ⟨b, -, hmisfits⟩ | ⟨rfl, -⟩
    · exact hmisfits (by simp [hw])
    · have hfont : Shorthand.font.name ∉ Shorthand.border.longhands := by decide
      exact hfont hlong

/-- A decided part that cannot be read makes the store unreadable. -/
theorem unreadable_of_not_reads {a : String × Declaration} {sh : Shorthand} (ha : a ∈ s.entries)
    (hy : y ∈ decided s a) (hname : y.1 = sh.name) (hreads : ¬Reads y) : Unreadable s := by
  obtain ⟨rfl, hborder⟩ := eq_of_not_reads (mem_first_of_mem_decided hy) hname hreads
  have hkept := (mem_decided_iff_not_overwritten ha hborder).mp hy
  obtain ⟨n, d⟩ := y
  obtain rfl : n = sh.name := hname
  rcases not_reads_iff.mp hreads with ⟨b, rfl, hmisfits⟩ | ⟨rfl, hkeyword, f, hf⟩
  · cases b with
    | margin => exact .space (Or.inl rfl) ha hmisfits
    | padding => exact .space (Or.inr rfl) ha hmisfits
    | borderColor => exact .border (Or.inl rfl) ha hmisfits hkept
    | borderStyle => exact .border (Or.inr (Or.inl rfl)) ha hmisfits hkept
    | borderWidth => exact .border (Or.inr (Or.inr rfl)) ha hmisfits hkept
  · refine .font ha hkeyword ?_ ⟨f, hf⟩
    cases hsystem : FontReading.isSystem (Component.parse d.value) with
    | false => rfl
    | true => simp [FontReading.ofValue, hsystem] at hf

/-- An unreadable store holds a declaration of its own that cannot be read: what comes of a border always can
    be. -/
theorem Unreadable.exists_not_reads (h : Unreadable s) :
    ∃ a ∈ s.entries, a ∈ decided s a ∧ ∃ sh ∈ Shorthand.afterBorder, a.1 = sh.name ∧ ¬Reads a := by
  have hentry : ∀ (sh : Shorthand) {d : Declaration}, sh ≠ .border → (sh.name, d) ∈ s.entries →
      ¬Overwritten s (sh.name, d) → ¬Reads (sh.name, d) →
      ∃ a ∈ s.entries, a ∈ decided s a ∧ ∃ sh ∈ Shorthand.afterBorder, a.1 = sh.name ∧ ¬Reads a := by
    intro sh d hsh hd hkept hreads
    have hborder : sh.name ≠ Shorthand.border.name := fun h => hsh (Shorthand.name_injective h)
    exact ⟨_, hd, (mem_decided_iff_not_overwritten hd hborder).mpr hkept, sh,
      Shorthand.mem_afterBorder hsh, rfl, hreads⟩
  cases h with
  | @space b d hb hd hparts =>
    refine hentry (.box b) (by simp) hd (not_overwritten ?_)
      (not_reads_iff.mpr (Or.inl ⟨b, rfl, hparts⟩))
    rcases hb with rfl | rfl <;> decide
  | @border b d hb hd hparts hkept =>
    exact hentry (.box b) (by simp) hd hkept (not_reads_iff.mpr (Or.inl ⟨b, rfl, hparts⟩))
  | font hd hkeyword hsystem hrejected =>
    exact hentry .font (by simp) hd (not_overwritten (by decide))
      (not_reads_iff.mpr (Or.inr ⟨rfl, hkeyword, hrejected⟩))

/-- Expansion fails if some value cannot be read. -/
theorem exists_error_iff (s : Store) :
    (∃ f, Edit.expandAll.after s = .error f) ↔ Unreadable s := by
  have hok : (∃ f, Edit.expandAll.after s = .error f) ↔ ¬∃ t, Edit.expandAll.after s = .ok t := by
    cases Edit.expandAll.after s <;> simp
  rw [hok, (after_expandAll s).2]
  constructor
  · intro h
    push Not at h
    obtain ⟨a, ha, y, hy, sh, -, hname, hreads⟩ := h
    exact unreadable_of_not_reads ha hy hname hreads
  · intro h hall
    obtain ⟨a, ha, hdecided, sh, hsh, hname, hreads⟩ := h.exists_not_reads
    exact hreads (hall a ha a hdecided sh hsh hname)

/-- **Expansion fails exactly when it must, and then changes nothing.**  It says that a value is invalid
    if and only if the store holds one that cannot be read, it fails for no other cause, and whenever it
    fails the store is as it was, with all its entries in their order. -/
theorem expandAll_fails_iff (s : Store) (said : List Notice) :
    ((∃ f, (Edit.expandAll.exec ⟨s, said⟩).1 = .error f ∧ f.isInvalidValue = true) ↔
        Unreadable s) ∧
      ∀ f, (Edit.expandAll.exec ⟨s, said⟩).1 = .error f →
        f.isInvalidValue = true ∧ (Edit.expandAll.exec ⟨s, said⟩).2.store = s := by
  have herror : ∀ f, (Edit.expandAll.exec ⟨s, said⟩).1 = .error f ↔
      Edit.expandAll.after s = .error f := fun f => by
    rw [Edit.does_expandAll.error_iff, Edit.after_expandAll]
  have hinvalid : ∀ f, (Edit.expandAll.exec ⟨s, said⟩).1 = .error f → f.isInvalidValue = true := by
    intro f hf
    rw [herror, Edit.after_expandAll] at hf
    exact Store.isInvalidValue_of_expandEach hf
  constructor
  · rw [← exists_error_iff]
    constructor
    · rintro ⟨f, hf, -⟩
      exact ⟨f, (herror f).mp hf⟩
    · rintro ⟨f, hf⟩
      exact ⟨f, (herror f).mpr hf, hinvalid f ((herror f).mpr hf)⟩
  · exact fun f hf => ⟨hinvalid f hf, Edit.store_of_transaction_error hf⟩

end Cascade

end CssShorthand
