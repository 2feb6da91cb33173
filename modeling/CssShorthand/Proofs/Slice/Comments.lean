/-
  WHAT COMMENTS HOLD.

  Two texts are alike (`Text.Alike`) if they differ within comments only.  A text that the walk of `Spot` passes
  is alike to what is left of it without marks (`Spot.Passes.alike_replaceMarks`), and alike texts that pass are
  scanned alike (`Text.Alike.lexemes_eq`).  So cleaning changes nothing of a color but what is not read of it
  (`Color.parse_clean`).

  Cleaning replaces marks of importance wherever they stand, and in a color they can stand in comments only.
  As the parser drops comments, the cleaned color is parsed as the color was. The relation `Text.Alike` is
  what makes this an induction: texts that agree but for the inside of closed comments are scanned alike.
-/
import CssShorthand.Proofs.Component.Closed
import CssShorthand.Proofs.Component.Leading
import CssShorthand.Proofs.Slice.Arguments

namespace CssShorthand

open List

/-! ## The end of a comment

  A comment goes on to the first star with a slash behind it. Neither unifying line ends nor replacing marks
  makes or breaks one: a mark has neither of the two characters.
-/

namespace CommentText

variable {c : Char} {t : Text}

/-- A comment goes on behind a character that is no star before a slash. -/
theorem take_cons_of_not (h : ¬(c = '*' ∧ t.head? = some '/')) : (take (c :: t)).2 = (take t).2 :=
  (take_cons c t).resolve_right fun hend => h ⟨hend.1, by rw [hend.2]; rfl⟩

/-- A comment ends where it ended once it is normal. -/
theorem take_normalize (t : Text) : (take (Lexeme.normalize t)).2 = Lexeme.normalize (take t).2 := by
  fun_induction take t with
  | case1 => rfl
  | case2 t =>
    have hnormal := Lexeme.normalize_append (by decide : Lexeme.Normal ['*', '/']) t
    rw [show '*' :: '/' :: t = ['*', '/'] ++ t from rfl, hnormal]
    rfl
  | case3 c t hne more ih =>
    obtain ⟨d, hd, hcons⟩ := Lexeme.exists_normalize_cons c
    rw [hcons]
    split
    · exact ih
    · refine (take_cons_of_not fun hend => ?_).trans ih
      obtain ⟨u, rfl⟩ := head?_eq_some_iff.mp (Lexeme.head?_of_normalize (Or.inr rfl) hend.2)
      exact hne u ((hd '*' (Or.inl rfl)).mp hend.1) rfl

/-- A comment ends where it ended without its marks. -/
theorem take_replaceMarks (t : Text) :
    (take (Cleaning.replaceMarks t).1).2 = (Cleaning.replaceMarks (take t).2).1 := by
  induction t using Cleaning.replaceMarks.induct with
  | case1 => simp [Cleaning.replaceMarks, take]
  | case2 c t r hr ih =>
    obtain ⟨blanks, word, htext, hblanks, -, hword⟩ := Cleaning.exists_append_of_afterMark? hr
    have hstar : '*' ∉ blanks ++ '!' :: word := fun hmem => (Spot.ne_of_mem_mark hblanks hword _ hmem).1 rfl
    have hrest : (take (c :: t)).2 = (take r).2 := by
      rw [htext, ← cons_append, ← append_assoc]
      exact take_append hstar r
    rw [Cleaning.replaceMarks_of_some hr, hrest, ← ih]
    exact take_append (w := [' ']) (by decide) _
  | case3 c t hnone ih =>
    rw [Cleaning.replaceMarks_of_none hnone]
    by_cases hend : c = '*' ∧ t.head? = some '/'
    · obtain ⟨rfl, hhead⟩ := hend
      obtain ⟨u, rfl⟩ := head?_eq_some_iff.mp hhead
      have hslash := Cleaning.replaceMarks_append (w := ['/']) (forall_mem_singleton.mpr (by decide)) u
      rw [singleton_append] at hslash
      rw [hslash]
      rfl
    · rw [take_cons_of_not hend, ← ih]
      exact take_cons_of_not fun h => hend ⟨h.1, Cleaning.head?_of_replaceMarks (by decide) h.2⟩

end CommentText

/-! ## Texts that differ in comments

  The relation, and how it goes with putting texts together and taking them apart.
-/

namespace Text

/-- The texts are the same but for what their comments hold. -/
inductive Alike : Text → Text → Prop
  | nil : Alike [] []
  | cons {c : Char} {t u : Text} (hc : c ≠ '/') (h : Alike t u) : Alike (c :: t) (c :: u)
  | comment {t u : Text} (h : Alike (CommentText.take t).2 (CommentText.take u).2) :
      Alike ('/' :: '*' :: t) ('/' :: '*' :: u)

namespace Alike

variable {t u w : Text}

/-- Alike texts start alike. -/
theorem head?_eq (h : Alike t u) : t.head? = u.head? := by cases h <;> rfl

/-- A text without slashes is alike to itself. -/
theorem refl (h : '/' ∉ t) : Alike t t := by
  induction t with
  | nil => exact .nil
  | cons c t ih =>
    simp only [mem_cons, not_or] at h
    exact .cons (Ne.symm h.1) (ih h.2)

/-- **Alike texts are alike once they are normal.** -/
theorem normalize (h : Alike t u) : Alike (Lexeme.normalize t) (Lexeme.normalize u) := by
  induction h with
  | nil => exact .nil
  | @cons c t u hc h ih =>
    obtain ⟨d, hd, hcons⟩ := Lexeme.exists_normalize_cons c
    rw [hcons, hcons, h.head?_eq]
    split
    · exact ih
    · exact .cons (fun heq => hc ((hd '/' (Or.inr rfl)).mp heq)) ih
  | @comment t u h ih =>
    have hnormal := Lexeme.normalize_append (by decide : Lexeme.Normal ['/', '*'])
    simp only [cons_append, nil_append] at hnormal
    rw [hnormal, hnormal]
    refine .comment ?_
    rwa [CommentText.take_normalize, CommentText.take_normalize]

/-- Up to the first slash alike texts are the same. -/
theorem exists_append (h : Alike t u) :
    t = u ∧ '/' ∉ t ∨ ∃ w x y, t = w ++ '/' :: x ∧ u = w ++ '/' :: y ∧ '/' ∉ w := by
  induction h with
  | nil => exact Or.inl ⟨rfl, not_mem_nil⟩
  | @cons c t u hc h ih =>
    rcases ih with ⟨rfl, hmem⟩ | ⟨w, x, y, rfl, rfl, hmem⟩
    · exact Or.inl ⟨rfl, by simp [hmem, Ne.symm hc]⟩
    · exact Or.inr ⟨c :: w, x, y, rfl, rfl, by simp [hmem, Ne.symm hc]⟩
  | comment h ih => exact Or.inr ⟨[], _, _, rfl, rfl, not_mem_nil⟩

/-- What stands before the first slash is the same, and what stands behind it is alike. -/
theorem exists_of_append (h : Alike (w ++ t) u) (hw : '/' ∉ w) : ∃ v, u = w ++ v ∧ Alike t v := by
  induction w generalizing u with
  | nil => exact ⟨u, rfl, h⟩
  | cons c w ih =>
    simp only [mem_cons, not_or] at hw
    generalize ht : c :: w ++ t = s at h
    cases h with
    | nil => contradiction
    | cons hc h =>
      obtain ⟨rfl, rfl⟩ := cons.inj ht
      obtain ⟨v, rfl, hv⟩ := ih h hw.2
      exact ⟨v, rfl, hv⟩
    | comment h => exact absurd (cons.inj ht).1.symm hw.1

end Alike

end Text

/-! ## Texts that pass

  Replacing marks in a text that passes gives an alike text, by recursion on the replacing; alike texts have
  the same lexemes, by recursion on the scan.
-/

namespace Spot

variable {inside : Bool} {t w z : Text}

/-- **A text that passes is alike to what is left without its marks**, for it has them in comments only. -/
theorem Passes.alike_replaceMarks (h : Passes ⟨inside, .outside⟩ t) : Text.Alike t (Cleaning.replaceMarks t).1 := by
  -- By the length, not by characters: a comment is skipped as a whole.
  induction hn : t.length using Nat.strong_induction_on generalizing inside t with
  | _ n ih =>
    subst hn
    cases t with
    | nil => simpa [Cleaning.replaceMarks] using Text.Alike.nil
    | cons c t =>
      obtain ⟨s, hs, hpasses⟩ := passes_cons.mp h
      by_cases hslash : c = '/'
      · subst hslash
        obtain rfl : ⟨inside, .slash⟩ = s := by simpa [step] using hs
        obtain ⟨u, rfl⟩ := hpasses.exists_star
        have hmarks : (Cleaning.replaceMarks ('/' :: '*' :: u)).1 = '/' :: '*' :: (Cleaning.replaceMarks u).1 :=
          Cleaning.replaceMarks_append (w := ['/', '*']) (by simp; decide) u
        rw [hmarks]
        refine .comment ?_
        rw [CommentText.take_replaceMarks]
        have hlt : (CommentText.take u).2.length < ('/' :: '*' :: u).length :=
          Nat.lt_of_le_of_lt (CommentText.take_length_le u) (by simp)
        exact ih _ hlt ((passes_slash_star u).mp h) rfl
      · -- Outside of comments a mark does not pass.
        have hnone : Cleaning.afterMark? (c :: t) = none := by
          by_contra hsome
          obtain ⟨r, hr⟩ := Option.ne_none_iff_exists'.mp hsome
          obtain ⟨blanks, word, htext, hblanks, -⟩ := Cleaning.exists_append_of_afterMark? hr
          exact not_passes_mark (Or.inl rfl) hblanks _ (htext ▸ h)
        rw [Cleaning.replaceMarks_of_none hnone]
        obtain ⟨b, rfl⟩ : ∃ b, s = ⟨b, .outside⟩ := by
          rcases eq_of_step_outside hs with ⟨hc, -⟩ | ⟨-, rfl⟩ | ⟨-, -, rfl⟩ | ⟨-, -, rfl⟩
          · exact absurd hc hslash
          all_goals exact ⟨_, rfl⟩
        exact .cons hslash (ih _ (Nat.lt_succ_self _) hpasses rfl)

/-- What passes up to its first slash passes for itself, and has only few kinds of characters. -/
theorem Passes.front (h : Passes ⟨inside, .outside⟩ (w ++ z)) (hw : '/' ∉ w) :
    Passes ⟨inside, .outside⟩ w ∧ ∀ c ∈ w, isArgumentChar c = true ∨ isSpace c = true ∨ c = ')' := by
  induction w generalizing inside with
  | nil => exact ⟨passes_nil (by simp), by simp⟩
  | cons c w ih =>
    simp only [mem_cons, not_or] at hw
    obtain ⟨s, hs, hpasses⟩ := passes_cons.mp h
    rw [forall_mem_cons, passes_cons]
    rcases eq_of_step_outside hs with ⟨rfl, -⟩ | ⟨hc, rfl⟩ | ⟨-, rfl, rfl⟩ | ⟨-, hc, rfl⟩
    · exact absurd rfl hw.1
    · exact ⟨⟨_, hs, (ih hpasses hw.2).1⟩, Or.inr (Or.inl hc), (ih hpasses hw.2).2⟩
    · exact ⟨⟨_, hs, (ih hpasses hw.2).1⟩, Or.inr (Or.inr rfl), (ih hpasses hw.2).2⟩
    · exact ⟨⟨_, hs, (ih hpasses hw.2).1⟩, Or.inl hc, (ih hpasses hw.2).2⟩

end Spot

namespace Text.Alike

open Lexeme (lexemes read takeBlanks)

variable {inside : Bool} {c : Char} {d : Component} {t u w : Text}

/-- An argument is read alike, for it ends at a slash. -/
theorem read_eq (h : Alike t u) (hc : Spot.isArgumentChar c = true)
    (hpasses : Spot.Passes ⟨true, .outside⟩ (c :: t)) :
    (read c t).1 = (read c u).1 ∧ Alike (read c t).2 (read c u).2 := by
  have hne : '/' ≠ c := by
    rintro rfl
    exact absurd hc (by decide)
  rcases h.exists_append with ⟨rfl, hslash⟩ | ⟨w, x, y, rfl, rfl, hslash⟩
  · refine ⟨rfl, refl fun hmem => ?_⟩
    exact (not_mem_cons_of_ne_of_not_mem hne hslash) ((Lexeme.reading_read c t).suffix.subset hmem)
  · have hslash : '/' ∉ c :: w := not_mem_cons_of_ne_of_not_mem hne hslash
    obtain ⟨hfront, hchars⟩ := Spot.Passes.front (w := c :: w) (z := '/' :: x) hpasses hslash
    have hreading := Lexeme.reading_read c w
    obtain ⟨d, -, hd, hcomment, hfault, -⟩ := hreading.exists_of_isArgumentChar hc hfront
    have hread : ∀ z, read c (w ++ '/' :: z) = ((read c w).1, (read c w).2 ++ '/' :: z) := fun z => by
      refine Lexeme.read_halt .slash z (fun hmem => ?_) (by simp [hd, hfault])
        (by simp [hd, Lexeme.isComment, hcomment]) fun hblank => ?_
      · rcases hchars _ hmem with h | h | h <;> exact absurd h (by decide)
      · simp only [Text.isCssBlank, Bool.or_eq_true, beq_iff_eq] at hblank
        rcases hblank with (rfl | rfl) | rfl <;> exact absurd hc (by decide)
    rw [hread, hread]
    refine ⟨rfl, ?_⟩
    -- What is left is the same up to the slash, and alike behind it.
    obtain ⟨b, hb⟩ := hreading.suffix
    have hcons : Alike (b ++ ((read c w).2 ++ '/' :: x)) (b ++ ((read c w).2 ++ '/' :: y)) := by
      rw [← append_assoc, ← append_assoc, hb]
      exact .cons (Ne.symm hne) h
    obtain ⟨v, hv, hrest⟩ := hcons.exists_of_append fun hmem => hslash (hb ▸ mem_append_left _ hmem)
    rwa [append_cancel_left hv]

/-- **Alike texts are scanned alike**, if one of them passes. -/
theorem lexemes_eq (h : Alike t u) (hnormal : Lexeme.Normal t) (hpasses : Spot.Passes ⟨inside, .outside⟩ t) :
    lexemes t = lexemes u := by
  induction hn : t.length using Nat.strong_induction_on generalizing inside t u with
  | _ n ih =>
    subst hn
    cases h with
    | nil => rfl
    | @comment t u h =>
      rw [Lexeme.lexemes_comment, Lexeme.lexemes_comment]
      have hlt : (CommentText.take t).2.length < ('/' :: '*' :: t).length :=
        Nat.lt_of_le_of_lt (CommentText.take_length_le t) (by simp)
      have hrest : Lexeme.Normal (CommentText.take t).2 :=
        hnormal.subset (Lexeme.reading_read '/' ('*' :: t)).suffix.subset
      exact ih _ hlt h hrest ((Spot.passes_slash_star t).mp hpasses) rfl
    | @cons c t u hc h =>
      have hlen : (read c t).2.length < (c :: t).length := Nat.lt_succ_of_le (Lexeme.read_length_le c t)
      have hreading := Lexeme.reading_read c t
      have hrest : Lexeme.Normal (read c t).2 := hnormal.subset hreading.suffix.subset
      obtain ⟨s, hs, hbehind⟩ := Spot.passes_cons.mp hpasses
      -- The walk says what is read: a slash, white space, the end of the arguments, or one of them.
      rcases Spot.eq_of_step_outside hs with ⟨rfl, -⟩ | ⟨hspace, -⟩ | ⟨-, rfl, rfl⟩ | ⟨rfl, hchar, -⟩
      · exact absurd rfl hc
      · have hblank := Lexeme.isCssBlank_of_isSpace hnormal hspace
        have hblanks := Lexeme.takeBlanks_subset t
        have hno : '/' ∉ (takeBlanks t).1 := fun hmem => absurd (hblanks _ hmem) (by decide)
        obtain ⟨v, rfl, hv⟩ := exists_of_append ((Lexeme.takeBlanks_fst_append t).symm ▸ h) hno
        have htake := Lexeme.takeBlanks_eq hblanks (z := v) (hv.head?_eq ▸ Lexeme.isCssBlank_of_mem_head? t)
        rw [Lexeme.passes_blanks hblank] at hpasses
        rw [Lexeme.read_of_blank hblank] at hlen hrest
        rw [Lexeme.lexemes_cons, Lexeme.lexemes_cons, Lexeme.read_of_blank hblank, Lexeme.read_of_blank hblank,
          htake, ih _ hlen hv hrest hpasses rfl]
      · rw [Lexeme.lexemes_close, Lexeme.lexemes_close]
        exact congrArg _ (ih _ (Nat.lt_succ_self _) h (hnormal.subset fun _ => mem_cons_of_mem _) hbehind rfl)
      · obtain ⟨d, w, hd, -, -, happend, hw⟩ := hreading.exists_of_isArgumentChar hchar hpasses
        obtain ⟨hread, halike⟩ := h.read_eq hchar hpasses
        rw [happend, Spot.passes_append (Spot.foldlM_of_arguments fun x hx => Or.inl (hw x hx))] at hpasses
        rw [Lexeme.lexemes_cons, Lexeme.lexemes_cons, hread, ih _ hlen halike hrest hpasses rfl]

end Text.Alike

namespace Color

/-- **Cleaning changes nothing of what is read of a color**, for the marks of a color are in its comments. -/
theorem parse_clean {u : Text} (hu : Pattern.Matches .colorLike u) (hcolor : isColor u = true) :
    Component.parse (Cleaning.clean u).1 = Component.parse u := by
  rcases Pattern.cases_of_matches_colorLike hu with ⟨name, inside, rfl, hne, hname⟩ |
    ⟨digits, rfl, hdigits, -⟩ | ⟨-, hall⟩
  · obtain ⟨hcalls, hpasses⟩ := passes_of_isColor hne hname hcolor
    have hlexemes := hpasses.alike_replaceMarks.normalize.lexemes_eq (Lexeme.normal_normalize _)
      ((Spot.passes_normalize _ _).mpr hpasses)
    rw [Component.parse_eq_nest, Component.parse_eq_nest, clean_call hne hname, lexemes_call hname hcalls,
      lexemes_call hname hcalls, hlexemes]
  · rw [clean_of_forall hu fun c hc => (mem_cons.mp hc).imp_right (hdigits c)]
  · rw [clean_of_forall hu fun c hc => Or.inr (hall c hc).1]

end Color

end CssShorthand
