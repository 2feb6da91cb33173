/-
  WHAT CLEANING KEEPS.

  A text without marks and semicolons is only trimmed (`clean_eq_trim`), and of a text that begins with a
  character that no cleaning takes something is left (`StartsKept.clean_ne_nil`).

  A trimmed text that has no mark and no semicolon at its end stays as it is
  (`declarationOfText?_eq_self_iff`), and is all that stays if a mark is put behind it
  (`declarationOfText?_marked`).

  Cleaning trims a text, drops one semicolon, replaces each mark by a blank and trims once more. The
  recursion over marks is that of the program (`replaceMarks`): at each place either a mark starts, which is
  skipped as a whole, or one character is copied. Inductions follow it, and not the text.
-/
import CssShorthand.Declaration.Value
import CssShorthand.Proofs.Text

namespace CssShorthand

namespace Cleaning

/-- The text begins with a character that is no blank and begins neither a mark nor an end. -/
def StartsKept (t : Text) : Prop :=
  ∃ c u, t = c :: u ∧ Text.isBlank c = false ∧ c ≠ ';' ∧ c ≠ '!'

/-- What is kept at the front is kept whatever follows it. -/
theorem StartsKept.append {t : Text} (h : StartsKept t) (u : Text) : StartsKept (t ++ u) := by
  obtain ⟨c, v, rfl, hc⟩ := h
  exact ⟨c, v ++ u, rfl, hc⟩

/-- Without a semicolon none is dropped. -/
theorem dropSemicolon_of_not_mem {t : Text} (h : ';' ∉ t) : dropSemicolon t = t := by
  unfold dropSemicolon
  split
  · rename_i r hr
    have hmem : ';' ∈ t.reverse.dropWhile Text.isBlank := hr ▸ List.mem_cons_self
    exact absurd (List.mem_reverse.mp ((List.dropWhile_sublist _).subset hmem)) h
  · rfl

/-- Without a bang there is no mark. -/
theorem afterMark?_of_not_mem {t : Text} (h : '!' ∉ t) : afterMark? t = none := by
  unfold afterMark?
  split
  · rename_i r hr
    have hmem : '!' ∈ Text.trimStart t := hr ▸ List.mem_cons_self
    exact absurd ((List.dropWhile_sublist _).subset hmem) h
  · rfl

/-- A mark is an exclamation mark with blanks around, and then the letters of its word. -/
theorem exists_append_of_afterMark? {t r : Text} (h : afterMark? t = some r) :
    ∃ blanks word, t = blanks ++ '!' :: (word ++ r) ∧ (∀ c ∈ blanks, Text.isBlank c = true) ∧
      word ≠ [] ∧ ∀ c ∈ word, Text.isBlank c = true ∨ Text.foldCase c ∈ markWord := by
  have hfold : markWord.map Text.foldCase = markWord := by decide
  -- White space, the bang, white space, the word, and white space again.
  unfold afterMark? at h
  split at h
  · rename_i u hu
    split at h
    · rename_i s hs
      split at h
      · contradiction
      · obtain rfl := Option.some.inj h
        obtain ⟨before, hbefore, hblanks⟩ := Text.exists_append_trimStart t
        obtain ⟨middle, hmiddle, hmiddles⟩ := Text.exists_append_trimStart u
        obtain ⟨after, hafter, hafters⟩ := Text.exists_append_trimStart s
        obtain ⟨word, hword, hmap⟩ := Text.map_foldCase_of_dropFolded? hs
        have hne : word ≠ [] := by
          rintro rfl
          exact absurd hmap (by decide)
        refine ⟨before, middle ++ (word ++ after), ?_, hblanks, by simp [hne], fun c hc => ?_⟩
        · rw [List.append_assoc, List.append_assoc, ← hafter, ← hword, ← hmiddle, ← hu]
          exact hbefore
        · rcases List.mem_append.mp hc with hc | hc
          · exact Or.inl (hmiddles c hc)
          · rcases List.mem_append.mp hc with hc | hc
            · refine Or.inr ?_
              rw [← hfold, hmap]
              exact List.mem_map_of_mem hc
            · exact Or.inl (hafters c hc)
    · contradiction
  · contradiction

/-- A text that begins with neither a blank nor an exclamation mark begins with no mark. -/
theorem afterMark?_of_head {c : Char} (hblank : Text.isBlank c = false) (hmark : c ≠ '!') (t : Text) :
    afterMark? (c :: t) = none := by
  unfold afterMark?
  rw [Text.trimStart_of_head hblank]
  split
  · rename_i r hr
    exact absurd (List.cons.inj hr).1 hmark
  · rfl

/-- A character at which no mark begins stays. -/
theorem replaceMarks_of_none {c : Char} {t : Text} (h : afterMark? (c :: t) = none) :
    replaceMarks (c :: t) = (c :: (replaceMarks t).1, (replaceMarks t).2) := by
  rw [replaceMarks]
  split
  · rename_i r hr
    rw [h] at hr
    contradiction
  · rfl

/-- A mark becomes a space. -/
theorem replaceMarks_of_some {c : Char} {t r : Text} (h : afterMark? (c :: t) = some r) :
    replaceMarks (c :: t) = (' ' :: (replaceMarks r).1, true) := by
  rw [replaceMarks]
  split
  · rename_i s hs
    rw [h] at hs
    rw [Option.some.inj hs]
  · rename_i hnone
    rw [h] at hnone
    contradiction

/-- Without a bang nothing is replaced, and nothing is marked. -/
theorem replaceMarks_of_not_mem {t : Text} (h : '!' ∉ t) : replaceMarks t = (t, false) := by
  induction t with
  | nil => simp [replaceMarks]
  | cons c t ih =>
    rw [replaceMarks_of_none (afterMark?_of_not_mem h), ih fun hm => h (List.mem_cons_of_mem _ hm)]

/-- A front with neither white space nor a bang is copied: a mark starts with one of these. By induction on
    the front. -/
theorem replaceMarks_append {w : Text} (h : ∀ c ∈ w, Text.isBlank c = false ∧ c ≠ '!') (t : Text) :
    (replaceMarks (w ++ t)).1 = w ++ (replaceMarks t).1 := by
  induction w with
  | nil => rfl
  | cons c w ih =>
    obtain ⟨hblank, hmark⟩ := h c List.mem_cons_self
    rw [List.cons_append, replaceMarks_of_none (afterMark?_of_head hblank hmark _)]
    show c :: (replaceMarks (w ++ t)).1 = _
    rw [ih fun d hd => h d (List.mem_cons_of_mem _ hd)]
    rfl

/-- A text begins with what it began with before, or with the space of a mark. -/
theorem head?_of_replaceMarks {e : Char} (he : e ≠ ' ') {t : Text} (h : (replaceMarks t).1.head? = some e) :
    t.head? = some e := by
  cases t with
  | nil => simp [replaceMarks] at h
  | cons c t =>
    cases hr : afterMark? (c :: t) with
    | none => rwa [replaceMarks_of_none hr] at h
    | some r =>
      rw [replaceMarks_of_some hr] at h
      exact absurd (Option.some.inj h).symm he

/-- What belongs to no mark stays at the end. -/
theorem exists_replaceMarks_concat {d : Char} (hblank : Text.isBlank d = false) (hmark : d ≠ '!')
    (hword : Text.foldCase d ∉ markWord) (t : Text) : ∃ u, (replaceMarks (t ++ [d])).1 = u ++ [d] := by
  generalize ht : t ++ [d] = s
  induction s using replaceMarks.induct generalizing t with
  | case1 => exact absurd ht (by simp)
  | case2 c s r hr ih =>
    obtain ⟨blanks, word, hs, -, -, hall⟩ := exists_append_of_afterMark? hr
    rw [replaceMarks_of_some hr]
    rcases List.eq_nil_or_concat r with rfl | ⟨r, e, rfl⟩
    · -- The mark would end with the last character.
      have hlast : d ∈ '!' :: word := by
        obtain ⟨w, e, hw⟩ := List.eq_nil_or_concat ('!' :: word) |>.resolve_left (by simp)
        rw [hs, List.append_nil, hw, List.concat_eq_append, ← List.append_assoc] at ht
        have hde : [d] = [e] := List.append_inj_right' ht rfl
        rw [hw, List.singleton_inj.mp hde]
        simp
      rcases List.mem_cons.mp hlast with h | h
      · exact absurd h hmark
      · rcases hall d h with h | h
        · rw [hblank] at h
          contradiction
        · exact absurd h hword
    · have he : e = d := by
        rw [hs, List.concat_eq_append, ← List.append_assoc, ← List.cons_append,
          ← List.append_assoc] at ht
        exact (List.singleton_inj.mp (List.append_inj_right' ht rfl)).symm
      subst he
      obtain ⟨u, hu⟩ := ih r (List.concat_eq_append ..).symm
      exact ⟨' ' :: u, congrArg (' ' :: ·) hu⟩
  | case3 c s hnone ih =>
    rw [replaceMarks_of_none hnone]
    cases t with
    | nil =>
      obtain ⟨rfl, rfl⟩ := List.cons.inj ht
      exact ⟨[], by simp [replaceMarks]⟩
    | cons e t =>
      obtain ⟨rfl, hts⟩ := List.cons.inj ht
      obtain ⟨u, hu⟩ := ih t hts
      exact ⟨e :: u, congrArg (e :: ·) hu⟩

/-- A text that ends with neither a blank nor a semicolon loses no semicolon. -/
theorem dropSemicolon_concat {d : Char} (hblank : Text.isBlank d = false) (hend : d ≠ ';') (t : Text) :
    dropSemicolon (t ++ [d]) = t ++ [d] := by
  unfold dropSemicolon
  rw [List.reverse_append]
  split
  · rename_i r hr
    simp only [List.reverse_singleton, List.singleton_append, List.dropWhile_cons, hblank,
      Bool.false_eq_true, if_false] at hr
    exact absurd (List.cons.inj hr).1 hend
  · rfl

/-- Without marks and semicolons cleaning is trimming. -/
theorem clean_eq_trim {t : Text} (hmark : '!' ∉ t) (hend : ';' ∉ t) :
    clean t = (Text.trim t, false) := by
  rw [clean, dropSemicolon_of_not_mem hend, replaceMarks_of_not_mem hmark]

/-- Dropping the semicolon keeps the front. If the text is a semicolon only, the front was none that is kept.
    -/
theorem StartsKept.dropSemicolon {t : Text} (h : StartsKept t) :
    StartsKept (dropSemicolon t) := by
  obtain ⟨c, u, rfl, hc, hend, hmark⟩ := h
  unfold Cleaning.dropSemicolon
  split
  · rename_i r hr
    rw [List.reverse_cons] at hr
    -- The first character is no semicolon, so that it is not the one that is dropped.
    have hlast : ∃ r', r = r' ++ [c] := by
      have hsuf : ';' :: r <:+ u.reverse ++ [c] := hr ▸ List.dropWhile_suffix _
      obtain ⟨v, hv⟩ := hsuf
      rcases List.eq_nil_or_concat r with rfl | ⟨r', d, rfl⟩
      · have := List.append_inj_right' hv (by simp)
        simp only [List.cons.injEq, and_true] at this
        exact absurd this.symm hend
      · rw [List.concat_eq_append, ← List.cons_append, ← List.append_assoc] at hv
        have := List.append_inj_right' hv (by simp)
        simp only [List.cons.injEq, and_true] at this
        exact ⟨r', by rw [this, List.concat_eq_append]⟩
    obtain ⟨r', rfl⟩ := hlast
    obtain ⟨w, hw⟩ := Text.exists_dropWhile_concat hc r'
    rw [hw, List.reverse_append]
    exact ⟨c, w.reverse, rfl, hc, hend, hmark⟩
  · exact ⟨c, u, rfl, hc, hend, hmark⟩

/-- Replacing marks keeps the front, as it starts with no mark. -/
theorem StartsKept.replaceMarks {t : Text} (h : StartsKept t) :
    StartsKept (replaceMarks t).1 := by
  obtain ⟨c, u, rfl, hc, hend, hmark⟩ := h
  rw [replaceMarks_of_none (afterMark?_of_head hc hmark u)]
  exact ⟨c, _, rfl, hc, hend, hmark⟩

/-- What begins with a character that no cleaning takes is not empty once it is cleaned. -/
theorem StartsKept.clean_ne_nil {t : Text} (h : StartsKept t) : (clean t).1 ≠ [] := by
  obtain ⟨c, u, hu, hc, -⟩ := h.dropSemicolon.replaceMarks
  rw [clean]
  dsimp only
  obtain ⟨w, hw⟩ := Text.exists_dropWhile_concat hc u.reverse
  rw [hu, Text.trim, Text.trimStart_of_head hc, Text.trimEnd, List.reverse_cons, hw]
  simp

/-! ## What cleaning leaves as it is

  Each of the steps either leaves the text alone or makes it shorter, so a text that is its own cleaned text
  was left alone by each.
-/

/-- A text that has no mark and no semicolon at its end. -/
structure Stays (t : Text) : Prop where
  ne_nil : t ≠ []
  no_mark : ∀ u, u <:+ t → afterMark? u = none
  no_semicolon : t.getLast? ≠ some ';'

/-- A text is shorter without its marks, if it has any. -/
theorem replaceMarks_cases (t : Text) :
    (replaceMarks t = (t, false) ∧ ∀ u, u <:+ t → afterMark? u = none) ∨
      (¬(∀ u, u <:+ t → afterMark? u = none) ∧ (replaceMarks t).1.length < t.length) := by
  -- Each mark is at least two characters and becomes one, so a text that is not copied gets shorter.
  induction t using replaceMarks.induct with
  | case1 =>
    refine Or.inl ⟨by simp [replaceMarks], fun u hu => ?_⟩
    rw [List.suffix_nil.mp hu]
    rfl
  | case2 c t r hr ih =>
    obtain ⟨blanks, word, hct, -, hword, -⟩ := exists_append_of_afterMark? hr
    refine Or.inr ⟨fun hnone => ?_, ?_⟩
    · rw [hnone _ (List.suffix_refl _)] at hr
      contradiction
    · have hrest : (replaceMarks r).1.length ≤ r.length := by
        rcases ih with ⟨h, -⟩ | ⟨-, h⟩
        · rw [h]
        · exact h.le
      have hpos := List.length_pos_iff.mpr hword
      rw [replaceMarks_of_some hr, hct]
      simp only [List.length_cons, List.length_append]
      omega
  | case3 c t hnone ih =>
    rw [replaceMarks_of_none hnone]
    rcases ih with ⟨h, hall⟩ | ⟨hmark, hlt⟩
    · refine Or.inl ⟨by rw [h], fun u hu => ?_⟩
      rcases List.suffix_cons_iff.mp hu with rfl | hu
      · exact hnone
      · exact hall u hu
    · refine Or.inr ⟨fun hall => hmark fun u hu => hall u (hu.trans (List.suffix_cons c t)), ?_⟩
      simpa using hlt

/-- Each mark becomes one blank, so the text does not grow. -/
theorem replaceMarks_length_le (t : Text) : (replaceMarks t).1.length ≤ t.length := by
  rcases replaceMarks_cases t with ⟨h, -⟩ | ⟨-, h⟩
  · rw [h]
  · exact h.le

/-- A semicolon at the end is dropped. -/
theorem dropSemicolon_length_lt (t : Text) : (dropSemicolon (t ++ [';'])).length < (t ++ [';']).length := by
  have hblank : Text.isBlank ';' = false := by decide
  rw [dropSemicolon, List.reverse_append]
  simp only [List.reverse_singleton, List.singleton_append, List.dropWhile_cons, hblank, Bool.false_eq_true,
    if_false, List.length_reverse, List.length_append, List.length_singleton]
  have := (List.dropWhile_sublist (p := Text.isBlank) (l := t.reverse)).length_le
  rw [List.length_reverse] at this
  omega

/-- A trimmed text that cleaning leaves as it is has no mark, and no semicolon at its end: each of the
    three steps takes characters away, or nothing. -/
theorem stays_of_clean_eq {t : Text} (htrim : Text.trim t = t) (hne : t ≠ []) (h : (clean t).1 = t) :
    Stays t := by
  obtain ⟨-, u, d, hu, hd⟩ := Text.exists_ends_of_trim htrim hne
  have hlength : t.length ≤ (replaceMarks (dropSemicolon t)).1.length := by
    conv_lhs => rw [← h, clean]
    exact Text.trim_length_le _
  have hsemicolon : d ≠ ';' := by
    rintro rfl
    have hmarks := replaceMarks_length_le (dropSemicolon t)
    have hdrop := dropSemicolon_length_lt u
    rw [← hu] at hdrop
    omega
  have hdrop : dropSemicolon t = t := by rw [hu, dropSemicolon_concat hd hsemicolon]
  rw [hdrop] at hlength
  refine ⟨hne, ?_, by rw [hu]; simpa using hsemicolon⟩
  rcases replaceMarks_cases t with ⟨-, hnone⟩ | ⟨-, hlt⟩
  · exact hnone
  · omega

/-- **A trimmed text is declared as it is if and only if it has no mark, and no semicolon at its end.** -/
theorem declarationOfText?_eq_self_iff {t : Text} (htrim : Text.trim t = t) {important : Bool} :
    Value.declarationOfText? t important = some ⟨t, important⟩ ↔ Stays t := by
  constructor
  · intro h
    unfold Value.declarationOfText? at h
    dsimp only at h
    split at h
    · contradiction
    · rename_i hne
      have hvalue : (clean t).1 = t := congrArg Declaration.value (Option.some.inj h)
      refine stays_of_clean_eq htrim ?_ hvalue
      rintro rfl
      simp [hvalue] at hne
  · intro h
    obtain ⟨-, u, d, hu, hd⟩ := Text.exists_ends_of_trim htrim h.ne_nil
    have hsemicolon : d ≠ ';' := fun he => h.no_semicolon (by rw [hu, he]; simp)
    have hdrop : dropSemicolon t = t := by rw [hu, dropSemicolon_concat hd hsemicolon]
    have hmarks : replaceMarks t = (t, false) :=
      (replaceMarks_cases t).elim And.left fun hno => absurd h.no_mark hno.1
    have hempty : t.isEmpty = false := by simpa using h.ne_nil
    simp [Value.declarationOfText?, clean, hdrop, hmarks, htrim, hempty]

/-! ## A mark behind what stays

  The mark is found where it was put, although the text before it may end in something that looks like the
  beginning of one.
-/

/-- Neither a blank nor an exclamation mark stands in the word of the mark. -/
theorem foldCase_not_mem_markWord {c : Char} (h : Text.isBlank c = true ∨ c = '!') :
    Text.foldCase c ∉ markWord.map Text.foldCase := by
  rcases h with h | rfl
  · rw [Text.foldCase_of_isBlank h]
    intro hmem
    have hletters : (markWord.map Text.foldCase).all (fun d => !Text.isBlank d) = true := by decide
    have hletter := List.all_eq_true.mp hletters c hmem
    rw [h] at hletter
    exact Bool.noConfusion hletter
  · decide

/-- What follows the word of a mark and the blanks after it, if blanks and this word start here. -/
def afterWord? (t : Text) : Option Text :=
  match Text.dropFolded? markWord (Text.trimStart t) with
  | some s => if Text.startsInWord s then none else some (Text.trimStart s)
  | none => none

/-- Whether a mark starts is seen behind the white space: by a bang and the word behind it. -/
theorem afterMark?_of_trimStart {c : Char} {t u : Text} (h : Text.trimStart t = c :: u) :
    afterMark? t = if c = '!' then afterWord? u else none := by
  unfold afterMark?
  rw [h]
  by_cases hc : c = '!'
  · subst hc
    rfl
  · simp [hc]

section

variable {blanks : Text} (hblanks : ∀ c ∈ blanks, Text.isBlank c = true) (r : Text)

include hblanks

/-- Behind the blanks stands the bang. -/
theorem trimStart_mark : Text.trimStart (blanks ++ '!' :: r) = '!' :: r := by
  rw [Text.trimStart, List.dropWhile_append_of_pos hblanks]
  rfl

/-- Blanks and a mark begin with a blank or an exclamation mark. -/
theorem exists_cons_mark :
    ∃ e w, blanks ++ '!' :: r = e :: w ∧ (Text.isBlank e = true ∨ e = '!') := by
  cases blanks with
  | nil => exact ⟨'!', r, rfl, Or.inr rfl⟩
  | cons b bs => exact ⟨b, bs ++ '!' :: r, rfl, Or.inl (hblanks b List.mem_cons_self)⟩

/-- A second bang is not the word of a mark. -/
theorem afterWord?_mark : afterWord? (blanks ++ '!' :: r) = none := by
  have hnone : Text.dropFolded? markWord ([] ++ '!' :: r) = none := by
    rw [Text.dropFolded?_stop (foldCase_not_mem_markWord (Or.inr rfl)),
      (by decide : Text.dropFolded? markWord [] = none)]
    rfl
  rw [List.nil_append] at hnone
  rw [afterWord?, trimStart_mark hblanks, hnone]

/-- No word of a mark begins within a text and ends behind it. -/
theorem afterWord?_append {d : Char} (hd : Text.isBlank d = false) (t : Text) :
    afterWord? (t ++ [d] ++ (blanks ++ '!' :: r)) =
      (afterWord? (t ++ [d])).map fun s => if s = [] then '!' :: r else s ++ (blanks ++ '!' :: r) := by
  obtain ⟨e, w, hw, he⟩ := exists_cons_mark hblanks r
  obtain ⟨x, hx⟩ := Text.exists_dropWhile_concat hd t
  have hstart : Text.trimStart (t ++ [d]) = x ++ [d] := hx
  unfold afterWord?
  rw [Text.trimStart_append (t := t ++ [d]) (by simp [hstart]), hstart, hw,
    Text.dropFolded?_stop (foldCase_not_mem_markWord he)]
  cases hs : Text.dropFolded? markWord (x ++ [d]) with
  | none => rfl
  | some s =>
    rcases List.eq_nil_or_concat s with rfl | ⟨s, a, rfl⟩
    · -- The mark ends with the text.
      have hstops : Text.startsInWord (e :: w) = false := by
        rcases he with he | rfl
        · exact Text.isWordChar_of_isBlank he
        · rfl
      have hbehind : Text.trimStart (e :: w) = '!' :: r := hw ▸ trimStart_mark hblanks r
      simp only [Option.map_some, List.nil_append, hstops, hbehind]
      rfl
    · -- The text goes on behind the mark, and so it does behind the blanks there.
      obtain ⟨word, hword, -⟩ := Text.map_foldCase_of_dropFolded? hs
      rw [List.concat_eq_append, ← List.append_assoc] at hword
      obtain rfl : d = a := List.singleton_inj.mp (List.append_inj_right' hword rfl)
      obtain ⟨y, hy⟩ := Text.exists_dropWhile_concat hd s
      have hrest : Text.trimStart (s ++ [d]) = y ++ [d] := hy
      have happend := Text.trimStart_append (t := s ++ [d]) (by simp [hrest]) (e :: w)
      have hfirst : Text.startsInWord (s ++ [d] ++ e :: w) = Text.startsInWord (s ++ [d]) := by
        cases s <;> rfl
      simp only [Option.map_some, List.concat_eq_append, hfirst, happend, hrest]
      split <;> simp

/-- **No mark begins within a text and ends behind it**, if the text ends with no blank and another mark
    follows; only the blanks before that one belong to a mark at the end of the text. -/
theorem afterMark?_append {d : Char} (hd : Text.isBlank d = false) (t : Text) :
    afterMark? (t ++ [d] ++ (blanks ++ '!' :: r)) =
      (afterMark? (t ++ [d])).map fun s => if s = [] then '!' :: r else s ++ (blanks ++ '!' :: r) := by
  obtain ⟨u, hu⟩ := Text.exists_dropWhile_concat hd t
  have hstart : Text.trimStart (t ++ [d]) = u ++ [d] := hu
  have happend : Text.trimStart (t ++ [d] ++ (blanks ++ '!' :: r)) = u ++ [d] ++ (blanks ++ '!' :: r) := by
    rw [Text.trimStart_append (by simp [hstart]), hstart]
  cases u with
  | nil =>
    -- The last character is an exclamation mark, behind which there is only another one, or none.
    have hnone : afterWord? ([].append (blanks ++ '!' :: r)) = none := afterWord?_mark hblanks r
    rw [afterMark?_of_trimStart happend, afterMark?_of_trimStart hstart, hnone,
      (by decide : afterWord? [] = none)]
    split <;> rfl
  | cons c u =>
    rw [afterMark?_of_trimStart happend, afterMark?_of_trimStart hstart]
    split
    · exact afterWord?_append hblanks r hd u
    · rfl

/-- A mark that nothing follows becomes a space. -/
theorem replaceMarks_mark : replaceMarks (blanks ++ '!' :: markWord) = ([' '], true) := by
  have hafter : afterMark? (blanks ++ '!' :: markWord) = some [] := by
    rw [afterMark?, trimStart_mark hblanks]
    decide
  obtain ⟨e, w, hw, -⟩ := exists_cons_mark hblanks markWord
  rw [hw, replaceMarks_of_some (hw ▸ hafter)]
  simp [replaceMarks]

/-- A mark behind a text becomes a space behind what the text becomes. -/
theorem replaceMarks_marked {t : Text} (hend : ∀ d ∈ t.getLast?, Text.isBlank d = false) :
    replaceMarks (t ++ (blanks ++ '!' :: markWord)) = ((replaceMarks t).1 ++ [' '], true) := by
  have hlast {c : Char} {t : Text} (hend : ∀ d ∈ (c :: t).getLast?, Text.isBlank d = false) :
      ∃ u d, c :: t = u ++ [d] ∧ Text.isBlank d = false := by
    obtain ⟨u, d, hud⟩ := (List.eq_nil_or_concat (c :: t)).resolve_left (by simp)
    rw [List.concat_eq_append] at hud
    exact ⟨u, d, hud, hend d (by simp [hud])⟩
  induction t using replaceMarks.induct with
  | case1 => simpa [replaceMarks] using replaceMarks_mark hblanks
  | case2 c t r hr ih =>
    obtain ⟨u, d, hud, hd⟩ := hlast hend
    have hafter := afterMark?_append hblanks markWord hd u
    rw [← hud, List.cons_append, hr, Option.map_some] at hafter
    rw [List.cons_append, replaceMarks_of_some hafter, replaceMarks_of_some hr]
    split
    · -- The blanks belong to the mark before them.
      rename_i hnil
      have hbare := replaceMarks_mark (by simp : ∀ c ∈ ([] : Text), Text.isBlank c = true)
      rw [List.nil_append] at hbare
      simp [hnil, hbare, replaceMarks]
    · rename_i hne
      obtain ⟨front, hfront⟩ : ∃ front, c :: t = front ++ r := by
        obtain ⟨blanks, word, hct, -⟩ := exists_append_of_afterMark? hr
        exact ⟨blanks ++ '!' :: word, by simp [hct]⟩
      rw [ih fun d hd => hend d (by rw [hfront, List.getLast?_append_of_ne_nil _ hne]; exact hd)]
      rfl
  | case3 c t hnone ih =>
    obtain ⟨u, d, hud, hd⟩ := hlast hend
    have hafter := afterMark?_append hblanks markWord hd u
    rw [← hud, List.cons_append, hnone, Option.map_none] at hafter
    have hrest := ih fun d hd => hend d (by
      cases t with
      | nil => contradiction
      | cons e t => exact hd)
    rw [List.cons_append, replaceMarks_of_none hafter, replaceMarks_of_none hnone, hrest]
    rfl

end

/-- A text that ends with a mark loses no semicolon. -/
theorem dropSemicolon_marked (t : Text) : dropSemicolon (t ++ '!' :: markWord) = t ++ '!' :: markWord := by
  have hword : '!' :: markWord = '!' :: markWord.dropLast ++ ['t'] := by decide
  rw [hword, ← List.append_assoc]
  exact dropSemicolon_concat (by decide) (by decide) _

/-- A trimmed text stays trimmed with a mark behind it. -/
theorem trim_marked {t : Text} (htrim : Text.trim t = t) (hne : t ≠ []) (blanks : Text) :
    Text.trim (t ++ (blanks ++ '!' :: markWord)) = t ++ (blanks ++ '!' :: markWord) := by
  have hword : '!' :: markWord = '!' :: markWord.dropLast ++ ['t'] := by decide
  obtain ⟨⟨c, u, hu, hc⟩, -⟩ := Text.exists_ends_of_trim htrim hne
  rw [hu, List.cons_append]
  refine Text.trim_of_ends hc (by decide : Text.isBlank 't' = false)
    (u := c :: (u ++ (blanks ++ '!' :: markWord.dropLast))) ?_
  rw [hword]
  simp

/-- **A text without marks is declared important with a mark behind it**, a semicolon at its end or not. -/
theorem declarationOfText?_marked {t blanks : Text} (htrim : Text.trim t = t) (hne : t ≠ [])
    (hnone : ∀ u, u <:+ t → afterMark? u = none) (hblanks : ∀ c ∈ blanks, Text.isBlank c = true)
    (important : Bool) :
    Value.declarationOfText? (t ++ (blanks ++ '!' :: markWord)) important = some ⟨t, true⟩ := by
  obtain ⟨-, u, d, hu, hd⟩ := Text.exists_ends_of_trim htrim hne
  have hdrop : dropSemicolon (t ++ (blanks ++ '!' :: markWord)) = t ++ (blanks ++ '!' :: markWord) := by
    rw [← List.append_assoc, dropSemicolon_marked]
  have hkept : replaceMarks t = (t, false) :=
    (replaceMarks_cases t).elim And.left fun hno => absurd hnone hno.1
  have hmarks := replaceMarks_marked hblanks (t := t) (by rw [hu]; simpa using hd)
  rw [hkept] at hmarks
  have htrimmed : Text.trim (t ++ [' ']) = t :=
    Text.trim_padded htrim hne (a := []) (by simp) (List.forall_mem_singleton.mpr rfl)
  have hempty : t.isEmpty = false := by simpa using hne
  simp [Value.declarationOfText?, clean, hdrop, hmarks, htrimmed, hempty]

end Cleaning

end CssShorthand
