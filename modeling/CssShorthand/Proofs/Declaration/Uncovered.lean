/-
  WHAT CLEANING UNCOVERS.

  Cleaning looks at a text once, and what it takes away can hide something of the same kind: of two
  semicolons at the end the first is left, so is one before a mark, and a mark within another one leaves
  the two sides of that one, which then form a mark.

  1. Marks and semicolons belong to no mark but as its exclamation mark, so that one is found in the
     text without marks exactly where it was found before (`exists_replaceMarks_iff`).
  2. Trimming uncovers nothing (`hasMark_trim_iff`, `getLast?_trim_iff`).
  3. A cleaned text has a mark, or a semicolon at its end, if and only if the text hides one
     (`hasMark_clean_iff`, `getLast?_clean_iff`).
  4. A declaration is read back from its own text if and only if its value has no mark, and no semicolon
     at its end that no mark covers (`declarationOfText?_text_iff`).
-/
import CssShorthand.Proofs.Declaration.Cleaning

namespace CssShorthand

namespace Cleaning

/-- A mark is in the text. -/
def HasMark (t : Text) : Prop := ∃ u, u <:+ t ∧ (afterMark? u).isSome

/-- An exclamation mark before this text begins a mark. -/
def Completes (t : Text) : Prop :=
  ∃ r, Text.dropFolded? markWord (Text.trimStart t) = some r ∧ Text.startsInWord r = false

/-- An exclamation mark of the text begins no mark, but would if the marks behind it were spaces. -/
def HidesMark (t : Text) : Prop :=
  ∃ a r, dropSemicolon t = a ++ '!' :: r ∧ afterMark? ('!' :: r) = none ∧
    (afterMark? ('!' :: (replaceMarks r).1)).isSome

/-- Behind a semicolon, other than the one that is dropped, are marks and blanks alone. -/
def HidesSemicolon (t : Text) : Prop :=
  ∃ a r, dropSemicolon t = a ++ ';' :: r ∧ ∀ c ∈ (replaceMarks r).1, Text.isBlank c = true

/-- A mark starts here exactly when a bang comes next and the rest completes it. -/
theorem isSome_afterMark?_iff {t : Text} :
    (afterMark? t).isSome ↔ ∃ r, Text.trimStart t = '!' :: r ∧ Completes r := by
  unfold afterMark? Completes
  constructor
  · intro h
    split at h
    · rename_i r hr
      split at h
      · rename_i s hs
        split at h
        · contradiction
        · rename_i hword
          exact ⟨r, hr, s, hs, by simpa using hword⟩
      · contradiction
    · contradiction
  · rintro ⟨r, hr, s, hs, hword⟩
    simp [hr, hs, hword]

/-- Behind a bang it is up to the rest. -/
theorem isSome_afterMark?_bang {t : Text} : (afterMark? ('!' :: t)).isSome ↔ Completes t := by
  rw [isSome_afterMark?_iff, Text.trimStart_of_head (by decide)]
  simp

/-- A text has a mark exactly when some bang of it is completed. -/
theorem hasMark_iff {t : Text} : HasMark t ↔ ∃ a r, t = a ++ '!' :: r ∧ Completes r := by
  constructor
  · rintro ⟨u, ⟨v, rfl⟩, hu⟩
    obtain ⟨r, hr, hcompletes⟩ := isSome_afterMark?_iff.mp hu
    obtain ⟨blanks, hblanks, -⟩ := Text.exists_append_trimStart u
    rw [hr] at hblanks
    exact ⟨v ++ blanks, r, by rw [hblanks, List.append_assoc], hcompletes⟩
  · rintro ⟨a, r, rfl, hcompletes⟩
    exact ⟨'!' :: r, List.suffix_append _ _, isSome_afterMark?_bang.mpr hcompletes⟩

/-- A mark starts at the first character or later. -/
theorem hasMark_cons_iff {c : Char} {t : Text} :
    HasMark (c :: t) ↔ (c = '!' ∧ Completes t) ∨ HasMark t := by
  simp only [hasMark_iff]
  constructor
  · rintro ⟨_ | ⟨b, a⟩, r, h, hcompletes⟩
    · obtain ⟨rfl, rfl⟩ := List.cons.inj h
      exact Or.inl ⟨rfl, hcompletes⟩
    · obtain ⟨rfl, rfl⟩ := List.cons.inj h
      exact Or.inr ⟨a, r, rfl, hcompletes⟩
  · rintro (⟨rfl, hcompletes⟩ | ⟨a, r, rfl, hcompletes⟩)
    · exact ⟨[], t, rfl, hcompletes⟩
    · exact ⟨c :: a, r, rfl, hcompletes⟩

/-- What stays as it is: a text that is not empty, has no mark and no semicolon at its end. -/
theorem stays_iff {t : Text} : Stays t ↔ t ≠ [] ∧ ¬HasMark t ∧ t.getLast? ≠ some ';' := by
  have hmark : ¬HasMark t ↔ ∀ u, u <:+ t → afterMark? u = none := by
    simp only [HasMark, not_exists, not_and, Option.not_isSome_iff_eq_none]
  rw [hmark]
  exact ⟨fun h => ⟨h.ne_nil, h.no_mark, h.no_semicolon⟩, fun h => ⟨h.1, h.2.1, h.2.2⟩⟩

/-! ## Places in a text and in the text without marks

  A character that can stand in no mark is found again, with the same text behind it but for marks.
-/

/-- A place behind a stretch that has no such character. -/
theorem exists_of_append_eq {x y a r : Text} {d : Char} (hx : d ∉ x) (h : x ++ y = a ++ d :: r) :
    ∃ b, a = x ++ b ∧ y = b ++ d :: r := by
  rcases List.append_eq_append_iff.mp h with ⟨b, hb, hy⟩ | ⟨b, hb, hy⟩
  · exact ⟨b, hb, hy⟩
  · cases b with
    | nil => exact ⟨[], by simpa using hb.symm, by simpa using hy.symm⟩
    | cons e b =>
      obtain ⟨rfl, -⟩ := List.cons.inj hy
      exact absurd (hb ▸ by simp) hx

/-- The mark that begins a text, with the blanks before it, has none of these characters but as its
    exclamation mark. -/
theorem exists_of_afterMark? {t r s a : Text} {d : Char} (hblank : Text.isBlank d = false)
    (hword : Text.foldCase d ∉ markWord) (hr : afterMark? t = some r) (ht : t = a ++ d :: s)
    (hd : afterMark? (d :: s) = none) : ∃ b, r = b ++ d :: s := by
  obtain ⟨blanks, word, rfl, hblanks, -, hall⟩ := exists_append_of_afterMark? hr
  have hnotblank : d ∉ blanks := fun h => by
    rw [hblanks d h] at hblank
    contradiction
  obtain ⟨b, -, hb⟩ := exists_of_append_eq hnotblank ht
  cases b with
  | nil =>
    -- The place is that of the mark's own exclamation mark, where a mark does begin.
    obtain ⟨rfl, rfl⟩ := List.cons.inj hb
    have hsome : (afterMark? (blanks ++ '!' :: (word ++ r))).isSome := by rw [hr]; rfl
    obtain ⟨u, hu, hcompletes⟩ := isSome_afterMark?_iff.mp hsome
    rw [Text.trimStart, List.dropWhile_append_of_pos hblanks, List.dropWhile_cons_of_neg (by decide)] at hu
    obtain ⟨-, rfl⟩ := List.cons.inj hu
    have := isSome_afterMark?_bang.mpr hcompletes
    rw [hd] at this
    contradiction
  | cons e b =>
    obtain ⟨-, hb⟩ := List.cons.inj hb
    have hnotword : d ∉ word := fun h => (hall d h).elim (by simp [hblank]) hword
    obtain ⟨b, -, hb⟩ := exists_of_append_eq hnotword hb
    exact ⟨b, hb⟩

/-- **Characters that belong to no mark stay where they are.**  Before a text without marks stands such
    a character exactly where it begins no mark before the text as it was. -/
theorem exists_replaceMarks_iff {d : Char} (hblank : Text.isBlank d = false)
    (hword : Text.foldCase d ∉ markWord) (P : Text → Prop) (t : Text) :
    (∃ a r, (replaceMarks t).1 = a ++ d :: r ∧ P r) ↔
      ∃ a r, t = a ++ d :: r ∧ afterMark? (d :: r) = none ∧ P (replaceMarks r).1 := by
  -- The character is no part of a mark, so it is found in the replaced text where it stood: behind a mark,
  -- here, or later.
  induction t using replaceMarks.induct with
  | case1 => simp [replaceMarks]
  | case2 c t s hs ih =>
    rw [replaceMarks_of_some hs]
    constructor
    · rintro ⟨_ | ⟨e, a⟩, r, h, hr⟩
      · obtain ⟨rfl, -⟩ := List.cons.inj h
        exact absurd hblank (by decide)
      · obtain ⟨b, u, rfl, hu, hp⟩ := ih.mp ⟨a, r, (List.cons.inj h).2, hr⟩
        obtain ⟨blanks, word, hct, -⟩ := exists_append_of_afterMark? hs
        exact ⟨blanks ++ '!' :: (word ++ b), u, by simp [hct], hu, hp⟩
    · rintro ⟨a, r, h, hnone, hr⟩
      obtain ⟨b, hb⟩ := exists_of_afterMark? hblank hword hs h hnone
      obtain ⟨x, y, hxy, hy⟩ := ih.mpr ⟨b, r, hb, hnone, hr⟩
      exact ⟨' ' :: x, y, congrArg (' ' :: ·) hxy, hy⟩
  | case3 c t hnone ih =>
    rw [replaceMarks_of_none hnone]
    constructor
    · rintro ⟨_ | ⟨e, a⟩, r, h, hr⟩
      · obtain ⟨rfl, rfl⟩ := List.cons.inj h
        exact ⟨[], t, rfl, hnone, hr⟩
      · obtain ⟨b, u, hbu, hu, hp⟩ := ih.mp ⟨a, r, (List.cons.inj h).2, hr⟩
        exact ⟨c :: b, u, congrArg (c :: ·) hbu, hu, hp⟩
    · rintro ⟨_ | ⟨e, a⟩, r, h, hr, hp⟩
      · obtain ⟨rfl, rfl⟩ := List.cons.inj h
        exact ⟨[], _, rfl, hp⟩
      · obtain ⟨b, u, hbu, hu⟩ := ih.mpr ⟨a, r, (List.cons.inj h).2, hr, hp⟩
        exact ⟨c :: b, u, congrArg (c :: ·) hbu, hu⟩

/-! ## Trimming uncovers nothing

  A mark may have blanks before it and inside, but it ends with its word or with what follows that; so
  blanks at the ends of a text belong to none.
-/

/-- Blanks behind a text complete no mark. -/
theorem completes_append_iff {t b : Text} (hb : ∀ c ∈ b, Text.isBlank c = true) :
    Completes (t ++ b) ↔ Completes t := by
  have hmarkWord : ∀ u : Text, (∀ c ∈ u, Text.isBlank c = true) →
      Text.dropFolded? markWord (Text.trimStart u) = none := fun u hu => by
    rw [Text.trimStart, List.dropWhile_eq_nil_iff.mpr hu]
    decide
  cases b with
  | nil => simp
  | cons e b =>
    by_cases ht : Text.trimStart t = []
    · have hblanks : ∀ c ∈ t, Text.isBlank c = true := List.dropWhile_eq_nil_iff.mp ht
      have hall : ∀ c ∈ t ++ e :: b, Text.isBlank c = true :=
        List.forall_mem_append.mpr ⟨hblanks, hb⟩
      simp [Completes, hmarkWord t hblanks, hmarkWord _ hall]
    · have he := hb e List.mem_cons_self
      have hstop := Text.dropFolded?_stop (foldCase_not_mem_markWord (Or.inl he)) (Text.trimStart t) b
      have hfirst (r : Text) : Text.startsInWord (r ++ e :: b) = Text.startsInWord r := by
        cases r with
        | nil => exact Text.isWordChar_of_isBlank he
        | cons => rfl
      simp only [Completes, Text.trimStart_append ht, hstop]
      cases Text.dropFolded? markWord (Text.trimStart t) <;> simp [hfirst]

/-- White space at the end neither makes nor breaks a mark. -/
theorem hasMark_append_iff {t b : Text} (hb : ∀ c ∈ b, Text.isBlank c = true) :
    HasMark (t ++ b) ↔ HasMark t := by
  have hne : ∀ c, Text.isBlank c = true → c ≠ '!' := by
    rintro c hc rfl
    exact absurd hc (by decide)
  induction t with
  | nil =>
    induction b with
    | nil => rfl
    | cons c b ih =>
      rw [List.nil_append, hasMark_cons_iff]
      simpa [hne c (hb c List.mem_cons_self)] using ih fun x hx => hb x (List.mem_cons_of_mem _ hx)
  | cons c t ih =>
    rw [List.cons_append, hasMark_cons_iff, hasMark_cons_iff, completes_append_iff hb]
    exact or_congr_right ih

/-- White space at the front neither makes nor breaks a mark. -/
theorem append_hasMark_iff {a t : Text} (ha : ∀ c ∈ a, Text.isBlank c = true) :
    HasMark (a ++ t) ↔ HasMark t := by
  induction a with
  | nil => rfl
  | cons c a ih =>
    have hc : c ≠ '!' := by
      rintro rfl
      exact absurd (ha _ List.mem_cons_self) (by decide)
    rw [List.cons_append, hasMark_cons_iff]
    simpa [hc] using ih fun x hx => ha x (List.mem_cons_of_mem _ hx)

/-- Trimming neither makes nor breaks a mark. -/
theorem hasMark_trim_iff (t : Text) : HasMark (Text.trim t) ↔ HasMark t := by
  obtain ⟨a, b, ht, ha, hb⟩ := Text.exists_append_trim t
  calc HasMark (Text.trim t) ↔ HasMark (Text.trim t ++ b) := (hasMark_append_iff hb).symm
    _ ↔ HasMark (a ++ (Text.trim t ++ b)) := (append_hasMark_iff ha).symm
    _ ↔ HasMark t := by rw [← ht]

/-- What is last in a trimmed text has blanks alone behind it. -/
theorem getLast?_trim_iff {t : Text} {d : Char} (hd : Text.isBlank d = false) :
    (Text.trim t).getLast? = some d ↔ ∃ a r, t = a ++ d :: r ∧ ∀ c ∈ r, Text.isBlank c = true := by
  constructor
  · intro h
    obtain ⟨a, b, ht, -, hb⟩ := Text.exists_append_trim t
    obtain ⟨u, hu⟩ := List.getLast?_eq_some_iff.mp h
    exact ⟨a ++ u, b, by rw [ht, hu]; simp, hb⟩
  · rintro ⟨a, r, rfl, hr⟩
    obtain ⟨u, hu⟩ := Text.exists_dropWhile_concat hd a
    have hstart : Text.trimStart (a ++ d :: r) = u ++ [d] ++ r := by
      have happend := Text.trimStart_append (t := a ++ [d]) (by rw [Text.trimStart, hu]; simp) r
      rw [List.append_assoc, List.singleton_append] at happend
      rw [happend, Text.trimStart, hu]
    have hend : (Text.trimEnd (u ++ [d] ++ r)) = u ++ [d] := by
      rw [Text.trimEnd, List.reverse_append,
        List.dropWhile_append_of_pos fun x hx => hr x (List.mem_reverse.mp hx)]
      simp [hd]
    rw [Text.trim, hstart, hend]
    simp

/-! ## What a cleaned text has

  The last step of the program, seen from the text before it.
-/

/-- **A cleaned text has a mark if and only if the text hides one.** -/
theorem hasMark_clean_iff (t : Text) : HasMark (clean t).1 ↔ HidesMark t := by
  have h := exists_replaceMarks_iff (d := '!') (by decide) (by decide) Completes (dropSemicolon t)
  rw [← hasMark_iff] at h
  simp only [clean, HidesMark, hasMark_trim_iff, h, isSome_afterMark?_bang]

/-- **A cleaned text ends with a semicolon if and only if the text hides one.** -/
theorem getLast?_clean_iff (t : Text) : (clean t).1.getLast? = some ';' ↔ HidesSemicolon t := by
  have hnone (r : Text) : afterMark? (';' :: r) = none := afterMark?_of_head (by decide) (by decide) r
  have h := exists_replaceMarks_iff (d := ';') (by decide) (by decide)
    (fun r => ∀ c ∈ r, Text.isBlank c = true) (dropSemicolon t)
  simp only [clean, HidesSemicolon, getLast?_trim_iff (show Text.isBlank ';' = false by decide), h,
    hnone, true_and]

/-- A cleaned text is trimmed. -/
theorem trim_clean (t : Text) : Text.trim (clean t).1 = (clean t).1 := Text.trim_idem _

/-! ## Reading a declaration back

  Writing puts a mark behind the value of an important declaration, and this one mark is found again.
-/

/-- A text with a mark is not what is left with another mark behind it. -/
theorem clean_marked_ne {t : Text} (htrim : Text.trim t = t) (hne : t ≠ []) (h : HasMark t) :
    (clean (t ++ Declaration.mark)).1 ≠ t := by
  intro heq
  obtain ⟨-, u, d, hu, hd⟩ := Text.exists_ends_of_trim htrim hne
  have hmark : Declaration.mark = [' '] ++ '!' :: markWord := by decide
  have hdrop : dropSemicolon (t ++ Declaration.mark) = t ++ Declaration.mark := by
    rw [hmark, ← List.append_assoc, dropSemicolon_marked]
  have hspace : ∀ c ∈ [' '], Text.isBlank c = true := List.forall_mem_singleton.mpr rfl
  have hmarks := replaceMarks_marked (t := t) hspace (by rw [hu]; simpa using hd)
  rw [← hmark] at hmarks
  have hshort : (replaceMarks t).1.length < t.length := by
    rcases replaceMarks_cases t with ⟨-, hnone⟩ | ⟨-, hlt⟩
    · obtain ⟨v, hv, hsome⟩ := h
      rw [hnone v hv] at hsome
      exact absurd hsome Bool.false_ne_true
    · exact hlt
  have htrimmed : Text.trim (replaceMarks t).1 = t := by
    rwa [clean, hdrop, hmarks, Text.trim_append (List.forall_mem_singleton.mpr rfl)] at heq
  have hlength := Text.trim_length_le (replaceMarks t).1
  rw [htrimmed] at hlength
  omega

/-- **Which declarations are read back from their own text**: those whose value has no mark, and no
    semicolon at its end if no mark is written behind it. -/
theorem declarationOfText?_text_iff {d : Declaration} (htrim : Text.trim d.value = d.value)
    (hne : d.value ≠ []) :
    Value.declarationOfText? d.text false = some d ↔
      ¬HasMark d.value ∧ (d.important = true ∨ d.value.getLast? ≠ some ';') := by
  obtain ⟨value, important⟩ := d
  dsimp only at htrim hne ⊢
  cases important with
  | false => simp [Declaration.text, declarationOfText?_eq_self_iff htrim, stays_iff, hne]
  | true =>
    simp only [Declaration.text, if_true, true_or, and_true]
    constructor
    · intro h hmark
      unfold Value.declarationOfText? at h
      dsimp only at h
      split at h
      · contradiction
      · exact clean_marked_ne htrim hne hmark (congrArg Declaration.value (Option.some.inj h))
    · intro hmark
      have hspace : ∀ c ∈ [' '], Text.isBlank c = true := List.forall_mem_singleton.mpr rfl
      exact declarationOfText?_marked htrim hne
        (fun u hu => Option.not_isSome_iff_eq_none.mp fun hs => hmark ⟨u, hu, hs⟩) hspace false

end Cleaning

end CssShorthand
