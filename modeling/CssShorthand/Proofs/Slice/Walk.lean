/-
  WALKING OVER ARGUMENTS AND COMMENTS.

  A call that is a color holds numbers, percentages, commas and white space, and comments between them.
  `Spot.step` walks over the characters after its opening bracket, and `Spot.Passes` says that the walk
  gets to the end of a text.

  What is done to a text before it is scanned changes nothing for the walk (`passes_normalize`), and
  neither does cleaning: a text that passes has marks in its comments only, and it passes as well once
  each of them is a space (`Passes.replaceMarks`).

  The walk is a finite automaton: inside or outside of the brackets, and outside of comments, behind a
  slash, inside of a comment, or behind a star there. It reads one character at a time and fails on any that
  a color cannot have. That it is a fold makes the walk over two texts in a row the composition of two
  walks.
-/
import CssShorthand.Proofs.Component.Content
import CssShorthand.Proofs.Component.Normal
import CssShorthand.Proofs.Declaration.Cleaning

namespace CssShorthand

open List

/-! ## The walk

  The steps by the kind of character.
-/

/-- What a character is read as with regard to comments. -/
inductive Remark where
  /-- No comment. -/
  | outside
  /-- A slash was read, and a comment has to begin. -/
  | slash
  /-- A comment. -/
  | comment
  /-- A comment that ends if a slash follows. -/
  | star
  deriving Repr, DecidableEq

/-- A place in the arguments of a function or behind them. -/
structure Spot where
  /-- Whether the bracket that ends the arguments is still to come. -/
  inside : Bool
  remark : Remark
  deriving Repr, DecidableEq

namespace Spot

/-- The white space of CSS, also of texts that are not normal yet. -/
def isSpace (c : Char) : Bool := Text.isCssBlank c || c == '\r' || c == '\x0C'

/-- The characters of the arguments of colors. -/
def isArgumentChar (c : Char) : Bool := Number.isNumeralChar c || c == '%' || c == ','

/-- Walks over one character, if it may stand there. -/
def step (s : Spot) (c : Char) : Option Spot :=
  match s.remark with
  | .outside =>
    if c = '/' then some { s with remark := .slash }
    else if isSpace c then some s
    else if !s.inside then none
    else if c = ')' then some { s with inside := false }
    else if isArgumentChar c then some s
    else none
  | .slash => if c = '*' then some { s with remark := .comment } else none
  | .comment => some { s with remark := if c = '*' then .star else .comment }
  | .star =>
    some { s with remark := if c = '*' then .star else if c = '/' then .outside else .comment }

/-- The walk gets to the end of the text, and not to a slash there. -/
def Passes (s : Spot) (t : Text) : Prop := ∃ e, t.foldlM step s = some e ∧ e.remark ≠ .slash

variable {s s' : Spot} {inside : Bool} {c : Char} {t u w : Text}

/-- The walk may end anywhere but behind a slash, which could open a comment with what follows. -/
theorem passes_nil (h : s.remark ≠ .slash) : Passes s [] := ⟨s, rfl, h⟩

/-- A walk is a step and the walk from there. -/
theorem passes_cons : Passes s (c :: t) ↔ ∃ s', s.step c = some s' ∧ Passes s' t := by
  unfold Passes
  rw [foldlM_cons]
  cases s.step c with
  | none => simp
  | some s' => simp

/-- A walk over two texts is the walk over the first and then over the second. -/
theorem passes_append (h : w.foldlM step s = some s') : Passes s (w ++ t) ↔ Passes s' t := by
  unfold Passes
  rw [foldlM_append, h]
  rfl

/-- The walk stays where it is over texts of characters that leave it there. -/
theorem foldlM_of_forall (h : ∀ c ∈ w, s.step c = some s) : w.foldlM step s = some s := by
  induction w with
  | nil => rfl
  | cons c w ih =>
    rw [foldlM_cons, h c mem_cons_self]
    exact ih fun d hd => h d (mem_cons_of_mem _ hd)

/-- White space is stepped over outside of remarks. -/
theorem step_of_isSpace (h : isSpace c = true) : step ⟨inside, .outside⟩ c = some ⟨inside, .outside⟩ := by
  have hc : c ≠ '/' := by
    rintro rfl
    exact absurd h (by decide)
  simp [step, hc, h]

/-- What an argument is spelled with is stepped over inside of a call. -/
theorem step_of_isArgumentChar (h : isArgumentChar c = true) :
    step ⟨true, .outside⟩ c = some ⟨true, .outside⟩ := by
  have hslash : c ≠ '/' := by
    rintro rfl
    exact absurd h (by decide)
  have hparen : c ≠ ')' := by
    rintro rfl
    exact absurd h (by decide)
  simp [step, hslash, hparen, h]

/-- Arguments are walked over. -/
theorem foldlM_of_arguments (h : ∀ c ∈ w, isArgumentChar c = true ∨ isSpace c = true) :
    w.foldlM step ⟨true, .outside⟩ = some ⟨true, .outside⟩ :=
  foldlM_of_forall fun c hc => (h c hc).elim step_of_isArgumentChar step_of_isSpace

/-- Outside of comments only some characters are walked over. -/
theorem eq_of_step_outside (h : step ⟨inside, .outside⟩ c = some s) :
    (c = '/' ∧ s = ⟨inside, .slash⟩) ∨ (isSpace c = true ∧ s = ⟨inside, .outside⟩) ∨
      (inside = true ∧ c = ')' ∧ s = ⟨false, .outside⟩) ∨
      (inside = true ∧ isArgumentChar c = true ∧ s = ⟨true, .outside⟩) := by
  simp only [step] at h
  split at h
  · rename_i hc
    exact Or.inl ⟨hc, (Option.some.inj h).symm⟩
  · split at h
    · rename_i hc
      exact Or.inr (Or.inl ⟨hc, (Option.some.inj h).symm⟩)
    · split at h
      · contradiction
      · rename_i hinside
        obtain rfl : inside = true := by simpa using hinside
        split at h
        · rename_i hc
          exact Or.inr (Or.inr (Or.inl ⟨rfl, hc, (Option.some.inj h).symm⟩))
        · split at h
          · rename_i hc
            exact Or.inr (Or.inr (Or.inr ⟨rfl, hc, (Option.some.inj h).symm⟩))
          · contradiction

/-- Behind a slash only a star is walked over. -/
theorem Passes.exists_star (h : Passes ⟨inside, .slash⟩ t) : ∃ u, t = '*' :: u := by
  cases t with
  | nil =>
    obtain ⟨e, he, hslash⟩ := h
    obtain rfl := Option.some.inj he
    exact absurd rfl hslash
  | cons d u =>
    obtain ⟨s, hs, -⟩ := passes_cons.mp h
    by_cases hd : d = '*'
    · exact ⟨u, hd ▸ rfl⟩
    · simp [step, hd] at hs

/-- A comment is walked over to its end. -/
theorem passes_comment (t : Text) :
    Passes ⟨inside, .comment⟩ t ↔ Passes ⟨inside, .outside⟩ (CommentText.take t).2 := by
  fun_induction CommentText.take t with
  | case1 => exact ⟨fun _ => passes_nil (by simp), fun _ => passes_nil (by simp)⟩
  | case2 t => simp [passes_cons, step]
  | case3 c t hne more ih =>
    rw [← ih, passes_cons]
    by_cases hc : c = '*'
    · subst hc
      -- What follows the star is no slash, and is walked over as anything in a comment is.
      have hstar : Passes ⟨inside, .star⟩ t ↔ Passes ⟨inside, .comment⟩ t := by
        cases t with
        | nil => exact ⟨fun _ => passes_nil (by simp), fun _ => passes_nil (by simp)⟩
        | cons d t =>
          have hd : d ≠ '/' := fun hd => hne t rfl (hd ▸ rfl)
          simp [passes_cons, step, hd]
      simpa [step] using hstar
    · simp [step, hc]

/-- The walk over a comment that begins. -/
theorem passes_slash_star (t : Text) :
    Passes ⟨inside, .outside⟩ ('/' :: '*' :: t) ↔
      Passes ⟨inside, .outside⟩ (CommentText.take t).2 := by
  rw [← passes_comment]
  simp [passes_cons, step]

/-! ## Texts that are not normal

  Unifying line ends replaces one character by another that is stepped over in the same way, or drops a line
  feed behind a carriage return.
-/

/-- A carriage return is unified to a line feed before the walk, and is stepped over like one. -/
theorem step_return (s : Spot) : s.step '\r' = s.step '\n' := by
  obtain ⟨inside, remark⟩ := s
  cases remark <;> rfl

/-- A form feed is unified to a line feed as well. -/
theorem step_feed (s : Spot) : s.step '\x0C' = s.step '\n' := by
  obtain ⟨inside, remark⟩ := s
  cases remark <;> rfl

/-- The replacement of NUL is stepped over as NUL is. -/
theorem step_nul (s : Spot) : s.step '\x00' = s.step Name.replacement := by
  obtain ⟨inside, remark⟩ := s
  cases remark <;> rfl

/-- Where one newline is walked over, a second changes nothing. -/
theorem step_newline_again (h : s.step '\n' = some s') : s'.step '\n' = some s' := by
  obtain ⟨inside, remark⟩ := s
  cases remark
  case slash => contradiction
  all_goals
    cases h
    rfl

/-- What is put for a character is walked over as the character. -/
theorem step_normalize (s : Spot) (c : Char) :
    s.step (if c = '\x00' then Name.replacement else if c = '\x0C' then '\n' else c) = s.step c := by
  split_ifs with hnul hfeed
  · rw [hnul, step_nul]
  · rw [hfeed, step_feed]
  · rfl

/-- A line end of two characters is walked over as one of one character. -/
theorem passes_normalize (s : Spot) (t : Text) : Passes s (Lexeme.normalize t) ↔ Passes s t := by
  unfold Lexeme.normalize
  fun_induction Text.unifyLineEnds t generalizing s with
  | case1 => rfl
  | case2 t ih =>
    rw [map_cons, passes_cons, passes_cons, step_normalize, step_return]
    refine exists_congr fun s' => and_congr_right fun hs => ?_
    refine (ih s').trans ?_
    rw [passes_cons]
    constructor
    · exact fun h => ⟨s', step_newline_again hs, h⟩
    · rintro ⟨s'', hs'', h⟩
      rw [step_newline_again hs] at hs''
      exact Option.some.inj hs'' ▸ h
  | case3 c t hne ih =>
    have hunify : s.step (if c = '\r' then '\n' else c) = s.step c := by
      split_ifs with hreturn
      · rw [hreturn, step_return]
      · rfl
    rw [map_cons, passes_cons, passes_cons, step_normalize, hunify]
    exact exists_congr fun s' => and_congr_right fun _ => ih s'

/-! ## Marks

  Outside of comments there is no bang, so a mark is inside of one; replacing it by a blank leaves the walk
  in the comment.
-/

open Cleaning (afterMark? replaceMarks)

/-- Outside of comments no mark is walked over. -/
theorem not_passes_mark (hs : s.remark = .outside ∨ s.remark = .slash) {blanks : Text}
    (hblanks : ∀ c ∈ blanks, Text.isBlank c = true) (t : Text) : ¬Passes s (blanks ++ '!' :: t) := by
  obtain ⟨inside, remark⟩ := s
  -- Outside of remarks the blanks are stepped over, and the bang is not; behind a slash only a star is.
  rcases hs with rfl | rfl
  · induction blanks with
    | nil =>
      rw [nil_append, passes_cons]
      rintro ⟨s', hs', -⟩
      rcases eq_of_step_outside hs' with ⟨h, -⟩ | ⟨h, -⟩ | ⟨-, h, -⟩ | ⟨-, h, -⟩
      · exact absurd h (by decide)
      · exact absurd h (by decide)
      · exact absurd h (by decide)
      · exact absurd h (by decide)
    | cons c blanks ih =>
      have hc := hblanks c mem_cons_self
      rw [cons_append, passes_cons]
      rintro ⟨s', hs', hpasses⟩
      rcases eq_of_step_outside hs' with ⟨rfl, -⟩ | ⟨-, rfl⟩ | ⟨-, rfl, -⟩ | ⟨rfl, -, rfl⟩
      · exact absurd hc (by decide)
      · exact ih (fun d hd => hblanks d (mem_cons_of_mem _ hd)) hpasses
      · exact absurd hc (by decide)
      · exact ih (fun d hd => hblanks d (mem_cons_of_mem _ hd)) hpasses
  · have hstep : ∀ c, c ≠ '*' → step ⟨inside, .slash⟩ c = none := fun c hc => by simp [step, hc]
    cases blanks with
    | nil =>
      rw [nil_append, passes_cons, hstep _ (by decide)]
      simp
    | cons c blanks =>
      have hc : c ≠ '*' := fun heq => absurd (heq ▸ hblanks c mem_cons_self) (by decide)
      rw [cons_append, passes_cons, hstep c hc]
      simp

/-- In a comment a mark is walked over as a space is. -/
theorem foldlM_of_comment {w : Text} (hw : ∀ c ∈ w, c ≠ '*' ∧ c ≠ '/') :
    w.foldlM step ⟨inside, .comment⟩ = some ⟨inside, .comment⟩ :=
  foldlM_of_forall fun c hc => by simp [step, (hw c hc).1]

/-- No character of a mark has a part in a comment's bounds. -/
theorem ne_of_mem_mark {blanks word : Text} (hblanks : ∀ c ∈ blanks, Text.isBlank c = true)
    (hword : ∀ c ∈ word, Text.isBlank c = true ∨ Text.foldCase c ∈ Cleaning.markWord) :
    ∀ d ∈ blanks ++ '!' :: word, d ≠ '*' ∧ d ≠ '/' := by
  have hblank : ∀ d, Text.isBlank d = true → d ≠ '*' ∧ d ≠ '/' := fun d hd =>
    ⟨fun heq => absurd (heq ▸ hd) (by decide), fun heq => absurd (heq ▸ hd) (by decide)⟩
  have hletter : Text.foldCase '*' ∉ Cleaning.markWord ∧ Text.foldCase '/' ∉ Cleaning.markWord := by
    decide
  intro d hd
  rcases mem_append.mp hd with hd | hd
  · exact hblank d (hblanks d hd)
  · rcases mem_cons.mp hd with rfl | hd
    · exact ⟨by decide, by decide⟩
    · rcases hword d hd with hd | hd
      · exact hblank d hd
      · exact ⟨fun heq => hletter.1 (heq ▸ hd), fun heq => hletter.2 (heq ▸ hd)⟩

/-- **A text passes without its marks as well.** -/
theorem Passes.replaceMarks (h : Passes s t) : Passes s (replaceMarks t).1 := by
  induction t using Cleaning.replaceMarks.induct generalizing s with
  | case1 => simpa [Cleaning.replaceMarks] using h
  | case2 c t r hr ih =>
    obtain ⟨blanks, word, htext, hblanks, -, hword⟩ := Cleaning.exists_append_of_afterMark? hr
    have hin : s.remark = .comment ∨ s.remark = .star := by
      by_contra hout
      refine not_passes_mark ?_ hblanks (word ++ r) (htext ▸ h)
      revert hout
      cases s.remark <;> simp
    obtain ⟨inside, remark⟩ := s
    -- The first character of the mark leads from either place into the comment.
    have hfirst : ∀ d, d ≠ '*' → d ≠ '/' →
        step ⟨inside, remark⟩ d = some ⟨inside, .comment⟩ := by
      intro d hstar hslash
      rcases hin with rfl | rfl <;> simp [step, hstar, hslash]
    have hmark := ne_of_mem_mark hblanks hword
    have hwalk : (blanks ++ '!' :: word).foldlM step ⟨inside, remark⟩ = some ⟨inside, .comment⟩ := by
      obtain ⟨d, w, hdw⟩ : ∃ d w, blanks ++ '!' :: word = d :: w := by
        cases blanks <;> exact ⟨_, _, rfl⟩
      rw [hdw] at hmark ⊢
      have hd := hmark d mem_cons_self
      rw [foldlM_cons, hfirst d hd.1 hd.2]
      exact foldlM_of_comment fun e he => hmark e (mem_cons_of_mem _ he)
    have happend : c :: t = blanks ++ '!' :: word ++ r := by rw [htext, append_assoc, cons_append]
    rw [happend, passes_append hwalk] at h
    rw [Cleaning.replaceMarks_of_some hr, passes_cons]
    exact ⟨_, hfirst ' ' (by decide) (by decide), ih h⟩
  | case3 c t hnone ih =>
    rw [Cleaning.replaceMarks_of_none hnone]
    rw [passes_cons] at h ⊢
    obtain ⟨s', hs', h⟩ := h
    exact ⟨s', hs', ih h⟩

end Spot

end CssShorthand
