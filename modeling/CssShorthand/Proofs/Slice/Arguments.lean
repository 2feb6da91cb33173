/-
  COLORS WITH COMMENTS.

  A text that the walk of `Spot` passes makes the arguments of one function, with nothing but white space
  behind it: its lexemes are laid so (`Lexeme.Laid`).  The text of a color that is a call passes
  (`Color.passes_of_isColor`), and it passes as well once it is cleaned.  So a color is a single part
  also when its comments hold marks and semicolons (`Color.split_clean`).

  Two descriptions of the inside of a call meet here. One is by characters, as the pattern of a color and
  cleaning see it; the other by lexemes, as the tokenizer sees it. The first half goes from lexemes to
  characters, by which a color that is parsed passes the walk; the second half goes back, by which a text
  that still passes after cleaning is parsed as one call. Comments are the reason for the detour: cleaning
  may change what they hold, and may even make a text look like the end of one.
-/
import CssShorthand.Proofs.Component.Sole
import CssShorthand.Proofs.Slice.Border
import CssShorthand.Proofs.Slice.Walk

namespace CssShorthand

open List

namespace Lexeme

/-- The lexemes of arguments that satisfy `p` up to the bracket that closes them, and of white space
    behind it.  The bracket may be missing. -/
inductive Laid (p : Component → Prop) : Bool → List Lexeme → Prop
  | nil (inside : Bool) : Laid p inside []
  | argument {c : Component} {ls : List Lexeme} (h : p c) (hls : Laid p true ls) :
      Laid p true (.leaf c :: ls)
  | close {ls : List Lexeme} (hls : Laid p false ls) : Laid p true (.closed .round :: ls)
  | blank {c : Component} {ls : List Lexeme} (h : c.isWhitespace = true) (hls : Laid p false ls) :
      Laid p false (.leaf c :: ls)

/-- The components that the arguments of a color are made of. -/
inductive IsArgument : Component → Prop
  | whitespace (text : Text) : IsArgument (.whitespace text)
  | number (numeral : Text) : IsArgument (.number numeral)
  | percentage (numeral : Text) : IsArgument (.percentage numeral)
  | comma : IsArgument (.literal [','])

variable {p : Component → Prop} {inside : Bool} {c : Char} {t r v : Text} {ls : List Lexeme}
  {d : Component}

/-- A front of what is laid out is laid out: each condition is on single lexemes. -/
theorem Laid.of_append {ms : List Lexeme} (h : Laid p inside (ls ++ ms)) : Laid p inside ls := by
  induction ls generalizing inside with
  | nil => exact .nil inside
  | cons l ls ih =>
    cases h with
    | argument h hls => exact .argument h (ih hls)
    | close hls => exact .close (ih hls)
    | blank h hls => exact .blank h (ih hls)

/-- Arguments, the bracket and white space behind it are laid out, read off the components that wrote them. -/
theorem Laid.of_map {cs ws : List Component} (hcs : ∀ c ∈ cs, p c)
    (hws : ∀ w ∈ ws, w.isWhitespace = true) :
    Laid p true (cs.map .leaf ++ .closed .round :: ws.map .leaf) := by
  induction cs with
  | nil =>
    refine .close ?_
    induction ws with
    | nil => exact .nil false
    | cons w ws ih =>
      exact .blank (hws w mem_cons_self) (ih fun x hx => hws x (mem_cons_of_mem _ hx))
  | cons c cs ih =>
    exact .argument (hcs c mem_cons_self) (ih fun x hx => hcs x (mem_cons_of_mem _ hx))

/-- What is laid behind the arguments is white space. -/
theorem Laid.exists_whitespace (h : Laid p false ls) :
    ∃ ws : List Component, ls = ws.map .leaf ∧ ∀ w ∈ ws, w.isWhitespace = true := by
  induction ls with
  | nil => exact ⟨[], rfl, by simp⟩
  | cons l ls ih =>
    cases h with
    | blank hw hls =>
      obtain ⟨ws, rfl, hws⟩ := ih hls
      exact ⟨_ :: ws, rfl, forall_mem_cons.mpr ⟨hw, hws⟩⟩

/-- What is laid as arguments is arguments, and the bracket with white space behind it, if it is not
    missing. -/
theorem Laid.exists_arguments (h : Laid p true ls) :
    ∃ cs ws : List Component, (∀ c ∈ cs, p c) ∧ (∀ w ∈ ws, w.isWhitespace = true) ∧
      (ls = cs.map .leaf ∧ ws = [] ∨ ls = cs.map .leaf ++ .closed .round :: ws.map .leaf) := by
  induction ls with
  | nil => exact ⟨[], [], by simp, by simp, Or.inl ⟨rfl, rfl⟩⟩
  | cons l ls ih =>
    cases h with
    | argument hc hls =>
      obtain ⟨cs, ws, hcs, hws, hcase⟩ := ih hls
      refine ⟨_ :: cs, ws, forall_mem_cons.mpr ⟨hc, hcs⟩, hws, ?_⟩
      rcases hcase with ⟨rfl, rfl⟩ | rfl
      · exact Or.inl ⟨rfl, rfl⟩
      · exact Or.inr rfl
    | close hls =>
      obtain ⟨ws, rfl, hws⟩ := hls.exists_whitespace
      exact ⟨[], ws, by simp, hws, Or.inr rfl⟩

/-- There is no fault among arguments of a color. -/
theorem Laid.isFault_eq_false (h : Laid IsArgument inside ls) : ∀ l ∈ ls, l.isFault = false := by
  induction h with
  | nil => simp
  | argument h _ ih => exact forall_mem_cons.mpr ⟨by cases h <;> rfl, ih⟩
  | close _ ih => exact forall_mem_cons.mpr ⟨rfl, ih⟩
  | @blank c _ h _ ih => exact forall_mem_cons.mpr ⟨by cases c <;> first | rfl | contradiction, ih⟩

/-! ## From lexemes to the walk

  Each argument consists of characters that the walk steps over, and each comment is walked over to its end.
-/

/-- In a normal text the space that is walked over is white space, for there are no carriage returns and
    no form feeds. -/
theorem isCssBlank_of_isSpace (hnormal : Normal (c :: t)) (h : Spot.isSpace c = true) :
    Text.isCssBlank c = true := by
  simp only [Spot.isSpace, Bool.or_eq_true, beq_iff_eq] at h
  rcases h with (hblank | rfl) | rfl
  · exact hblank
  · exact absurd mem_cons_self hnormal.2.1
  · exact absurd mem_cons_self hnormal.2.2

/-- A run of blanks holds blanks only, its first character too. -/
theorem isCssBlank_of_mem_blanks (hc : Text.isCssBlank c = true) {x : Char}
    (hx : x ∈ c :: (takeBlanks t).1) : Text.isCssBlank x = true :=
  (mem_cons.mp hx).elim (fun h => h ▸ hc) (takeBlanks_subset t x)

/-- White space is walked over. -/
theorem passes_blanks (hc : Text.isCssBlank c = true) :
    Spot.Passes ⟨inside, .outside⟩ (c :: t) ↔ Spot.Passes ⟨inside, .outside⟩ (takeBlanks t).2 := by
  have hwalk : (c :: (takeBlanks t).1).foldlM Spot.step ⟨inside, .outside⟩ =
      some ⟨inside, .outside⟩ := Spot.foldlM_of_forall fun x hx =>
    Spot.step_of_isSpace (by simp [Spot.isSpace, isCssBlank_of_mem_blanks hc hx])
  have h := Spot.passes_append (t := (takeBlanks t).2) hwalk
  rwa [cons_append, takeBlanks_fst_append] at h

/-- A numeral is made of characters of arguments. -/
theorem append_of_take? {n u : Text} (h : Number.take? v = some (n, u)) :
    v = n ++ u ∧ ∀ x ∈ n, Spot.isArgumentChar x = true :=
  ⟨(Number.take?_append h).1.symm, fun x hx => by
    simp [Spot.isArgumentChar, Number.isNumeralChar_of_take h hx]⟩

/-- So is a percentage. -/
theorem append_of_take?_percent {n u : Text} (h : Number.take? v = some (n, '%' :: u)) :
    v = n ++ ['%'] ++ u ∧ ∀ x ∈ n ++ ['%'], Spot.isArgumentChar x = true := by
  obtain ⟨happend, hall⟩ := append_of_take? h
  refine ⟨by rw [happend, append_assoc]; rfl, fun x hx => ?_⟩
  rcases mem_append.mp hx with hx | hx
  · exact hall x hx
  · rw [mem_singleton.mp hx]
    decide

/-- What is read as an argument of a color is walked over. -/
theorem Reading.walk_of_isArgument (h : Reading c t [.leaf d] r) (hd : IsArgument d) :
    ∃ w, c :: t = w ++ r ∧ ∀ x ∈ w, Spot.isArgumentChar x = true ∨ Spot.isSpace x = true := by
  generalize hls : [Lexeme.leaf d] = ls at h
  -- Only white space, a number, a percentage and a comma are arguments; the other readings give something
  -- else.
  cases h with
  | blanks h =>
    refine ⟨c :: (takeBlanks t).1, by rw [cons_append, takeBlanks_fst_append], fun x hx => ?_⟩
    simp [Spot.isSpace, isCssBlank_of_mem_blanks h hx]
  | percentage hn =>
    obtain ⟨happend, hall⟩ := append_of_take?_percent hn
    exact ⟨_, happend, fun x hx => Or.inl (hall x hx)⟩
  | number hn =>
    obtain ⟨happend, hall⟩ := append_of_take? hn
    exact ⟨_, happend, fun x hx => Or.inl (hall x hx)⟩
  | symbol hb hs hn =>
    obtain ⟨text, htext, happend, -⟩ := readDelimiter_eq c t
    rw [htext] at hls
    obtain rfl : d = .literal text := leaf.inj (cons.inj hls).1
    cases hd
    exact ⟨[','], happend.symm, forall_mem_singleton.mpr (by decide)⟩
  | arrow h =>
    obtain rfl : d = .literal ['-', '-', '>'] := leaf.inj (cons.inj hls).1
    contradiction
  | mark h =>
    obtain rfl : d = .literal [c] := leaf.inj (cons.inj hls).1
    cases hd
    exact absurd h (by decide)
  | url hr =>
    rcases mem_ofUrl (hls ▸ mem_singleton_self (Lexeme.leaf d)) with ⟨u, isClosed, hd'⟩ | ⟨f, hd'⟩
    all_goals
      obtain rfl := leaf.inj hd'
      contradiction
  | string hq =>
    rcases mem_ofString (hls ▸ mem_singleton_self (Lexeme.leaf d)) with ⟨u, isClosed, hd'⟩ | ⟨f, hd'⟩
    all_goals
      obtain rfl := leaf.inj hd'
      contradiction
  | call h hr => simp at hls
  | opened b h => simp at hls
  | closed b h => simp at hls
  | _ =>
    obtain rfl := leaf.inj (cons.inj hls).1
    contradiction

/-- The bracket is read where it stands. -/
theorem Reading.of_closed (h : Reading c t [.closed .round] r) : c = ')' ∧ r = t := by
  generalize hls : [Lexeme.closed .round] = ls at h
  cases h with
  | closed b h =>
    obtain rfl : Bracket.round = b := closed.inj (cons.inj hls).1
    exact ⟨h, rfl⟩
  | url hr =>
    rcases mem_ofUrl (hls ▸ mem_singleton_self (Lexeme.closed .round)) with ⟨u, b, h⟩ | ⟨f, h⟩ <;>
      contradiction
  | string hq =>
    rcases mem_ofString (hls ▸ mem_singleton_self (Lexeme.closed .round)) with ⟨u, b, h⟩ | ⟨f, h⟩ <;>
      contradiction
  | symbol hb hs hn =>
    obtain ⟨text, htext, -⟩ := readDelimiter_eq c t
    rw [htext] at hls
    simp [delimiter] at hls
  | _ => simp [delimiter] at hls

/-- **Texts whose lexemes are laid as arguments of a color pass.** -/
theorem Laid.passes (h : Laid IsArgument inside (lexemes v)) : Spot.Passes ⟨inside, .outside⟩ v := by
  -- On the length, as a comment is walked over without a lexeme of its own.
  induction hn : v.length using Nat.strong_induction_on generalizing inside v with
  | _ n ih =>
    subst hn
    cases v with
    | nil => exact Spot.passes_nil (by simp)
    | cons c t =>
      have hlen : (read c t).2.length < (c :: t).length := Nat.lt_succ_of_le (read_length_le c t)
      have hreading := reading_read c t
      obtain ⟨k, hk⟩ := hreading.eq_singleton fun l hl => isFault_of_mem_read h.isFault_eq_false hl
      rw [lexemes_cons, hk] at h
      rw [hk] at hreading
      cases hcomment : k.isComment with
      | true =>
        obtain ⟨u, rfl, rfl, hr⟩ := hreading.of_comment (mem_singleton_self k) hcomment
        simp only [filter_cons, hcomment, Bool.not_true, Bool.false_eq_true, if_false, filter_nil,
          nil_append] at h
        rw [Spot.passes_slash_star, ← hr]
        exact ih _ hlen h rfl
      | false =>
        simp only [filter_cons, hcomment, Bool.not_false, if_true, filter_nil, cons_append,
          nil_append] at h
        cases h with
        | argument hd hls =>
          obtain ⟨w, happend, hw⟩ := hreading.walk_of_isArgument hd
          rw [happend, Spot.passes_append (Spot.foldlM_of_arguments hw)]
          exact ih _ hlen hls rfl
        | close hls =>
          obtain ⟨rfl, hr⟩ := hreading.of_closed
          rw [Spot.passes_cons, ← hr]
          exact ⟨_, rfl, ih _ hlen hls rfl⟩
        | blank hd hls =>
          have hblank := hreading.of_whitespace (mem_singleton_self _) hd
          rw [passes_blanks hblank]
          rw [read_of_blank hblank] at hls hlen
          exact ih _ hlen hls rfl

/-! ## From the walk to lexemes

  A character of an argument starts a number, a comma or white space, since a letter could only stand behind
  a number, where the walk stops.
-/

/-- A name that is walked over is made of characters of arguments. -/
theorem exists_append_take (h : Spot.Passes ⟨true, .outside⟩ t) :
    ∃ w, t = w ++ (Name.take t).2 ∧ ∀ x ∈ w, Spot.isArgumentChar x = true := by
  fun_induction Name.take t with
  | case1 => exact ⟨[], rfl, by simp⟩
  | case2 c t hc more ih =>
    obtain ⟨s, hs, hrest⟩ := Spot.passes_cons.mp h
    rcases Spot.eq_of_step_outside hs with ⟨rfl, -⟩ | ⟨hspace, -⟩ | ⟨-, rfl, -⟩ | ⟨-, hchar, rfl⟩
    · exact absurd hc (by decide)
    · simp only [Spot.isSpace, Text.isCssBlank, Bool.or_eq_true, beq_iff_eq] at hspace
      rcases hspace with (((rfl | rfl) | rfl) | rfl) | rfl <;> exact absurd hc (by decide)
    · exact absurd hc (by decide)
    · obtain ⟨w, hw, hall⟩ := ih hrest
      exact ⟨c :: w, congrArg (c :: ·) hw, forall_mem_cons.mpr ⟨hchar, hall⟩⟩
  | case3 c t hc he escape more ih =>
    obtain ⟨s, hs, -⟩ := Spot.passes_cons.mp h
    have hnone : Spot.step ⟨true, .outside⟩ '\\' = none := by decide
    rw [he.1, hnone] at hs
    contradiction
  | case4 c t hc he => exact ⟨[], rfl, by simp⟩

/-- A text that passes holds no character that may stand nowhere in arguments, as far as the walk is in
    them. -/
theorem ne_append_cons (h : Spot.Passes ⟨true, .outside⟩ v) {w u : Text} {x : Char}
    (hw : ∀ y ∈ w, Spot.isArgumentChar y = true) (hx : Spot.step ⟨true, .outside⟩ x = none) :
    v ≠ w ++ x :: u := by
  intro heq
  rw [heq, Spot.passes_append (Spot.foldlM_of_arguments fun y hy => Or.inl (hw y hy)),
    Spot.passes_cons, hx] at h
  simp at h

/-- What begins with a character of arguments is read as one component of such characters. -/
theorem Reading.exists_of_isArgumentChar (h : Reading c t ls r) (hc : Spot.isArgumentChar c = true)
    (hpasses : Spot.Passes ⟨true, .outside⟩ (c :: t)) :
    ∃ d w, ls = [.leaf d] ∧ d.isComment = false ∧ (leaf d).isFault = false ∧ c :: t = w ++ r ∧
      ∀ x ∈ w, Spot.isArgumentChar x = true := by
  have hne : ∀ x, Spot.isArgumentChar x = false → c ≠ x := fun x hx heq => by simp [heq, hx] at hc
  obtain ⟨name, hname, hnameall⟩ := exists_append_take hpasses
  cases h with
  | blanks h =>
    simp only [Text.isCssBlank, Bool.or_eq_true, beq_iff_eq] at h
    rcases h with (rfl | rfl) | rfl <;> exact absurd hc (by decide)
  | range hu ht => rcases hu with rfl | rfl <;> exact absurd hc (by decide)
  | arrow h =>
    exact absurd h (ne_append_cons hpasses (w := ['-', '-']) (all_eq_true.mp rfl) (by decide))
  | ident h => exact ⟨_, name, rfl, rfl, rfl, hname, hnameall⟩
  | call h hr => exact absurd (hr ▸ hname) (ne_append_cons hpasses hnameall (by decide))
  | url hr => exact absurd (hr ▸ hname) (ne_append_cons hpasses hnameall (by decide))
  | @dimension n u hn =>
    -- The unit is a name in what is left of the walk.
    obtain ⟨happend, hall⟩ := append_of_take? hn
    rw [happend, Spot.passes_append (Spot.foldlM_of_arguments fun y hy => Or.inl (hall y hy))]
      at hpasses
    obtain ⟨w, hw, hunit⟩ := exists_append_take hpasses
    refine ⟨_, n ++ w, rfl, rfl, rfl, by rw [append_assoc, ← hw, happend], fun x hx => ?_⟩
    exact (mem_append.mp hx).elim (hall x) (hunit x)
  | percentage hn => exact ⟨_, _, rfl, rfl, rfl, append_of_take?_percent hn⟩
  | number hn => exact ⟨_, _, rfl, rfl, rfl, append_of_take? hn⟩
  | atKeyword h => exact absurd h (hne _ (by decide))
  | hash h => exact absurd h (hne _ (by decide))
  | mark h => exact h.elim (fun h => absurd h (hne _ (by decide))) fun h => absurd h (hne _ (by decide))
  | opened b h => exact absurd h (hne _ (by cases b <;> decide))
  | closed b h => exact absurd h (hne _ (by cases b <;> decide))
  | string h =>
    exact h.elim (fun h => absurd h (hne _ (by decide))) fun h => absurd h (hne _ (by decide))
  | comment hslash ht => exact absurd hslash (hne _ (by decide))
  | symbol hb hs hn =>
    have hjoins : joinsEquals c = false := by
      simp [joinsEquals, hne '~' (by decide), hne '|' (by decide), hne '^' (by decide),
        hne '$' (by decide), hne '*' (by decide)]
    rw [readDelimiter_of_not_joins (hne '<' (by decide)) hjoins]
    exact ⟨_, [c], rfl, rfl, rfl, rfl, forall_mem_singleton.mpr hc⟩

/-- **The lexemes of a text that passes are laid as arguments.** -/
theorem laid_of_passes (hnormal : Normal v) (h : Spot.Passes ⟨inside, .outside⟩ v) :
    Laid Component.IsLeaf inside (lexemes v) := by
  induction hn : v.length using Nat.strong_induction_on generalizing inside v with
  | _ n ih =>
    subst hn
    cases v with
    | nil => exact lexemes_nil ▸ .nil inside
    | cons c t =>
      have hlen : (read c t).2.length < (c :: t).length := Nat.lt_succ_of_le (read_length_le c t)
      have hreading := reading_read c t
      have hrest : Normal (read c t).2 := hnormal.subset hreading.suffix.subset
      have hleaf : ∀ d, (read c t).1 = [.leaf d] → Component.IsLeaf d := fun d hd =>
        hreading.isLeaf (by simp [hd])
      obtain ⟨s, hs, hpasses⟩ := Spot.passes_cons.mp h
      rw [lexemes_cons]
      rcases Spot.eq_of_step_outside hs with ⟨rfl, rfl⟩ | ⟨hspace, rfl⟩ | ⟨rfl, rfl, rfl⟩ |
        ⟨rfl, hchar, rfl⟩
      · -- A comment begins, or the walk would not go on.
        obtain ⟨u, rfl⟩ := hpasses.exists_star
        rw [Spot.passes_slash_star] at h
        exact ih _ hlen hrest h rfl
      · have hblank := isCssBlank_of_isSpace hnormal hspace
        rw [passes_blanks hblank] at h
        rw [read_of_blank hblank] at hlen hrest ⊢
        have hlaid := ih _ hlen hrest h rfl
        cases inside with
        | true => exact .argument rfl hlaid
        | false => exact .blank rfl hlaid
      · exact .close (ih _ hlen hrest hpasses rfl)
      · obtain ⟨d, w, hd, hcomment, -, happend, hw⟩ := hreading.exists_of_isArgumentChar hchar h
        rw [happend, Spot.passes_append (Spot.foldlM_of_arguments fun x hx => Or.inl (hw x hx))] at h
        rw [hd]
        simp only [filter_cons, Lexeme.isComment, hcomment, Bool.not_false, if_true, filter_nil,
          cons_append, nil_append]
        exact .argument (hleaf d hd) (ih _ hlen hrest h rfl)

end Lexeme

namespace Component

open Lexeme (lexemes Laid)

/-- A function that is opened and whose arguments are laid is a function, with white space behind it. -/
theorem exists_function_of_laid {t name : Text} {ls : List Lexeme}
    (h : lexemes (Lexeme.normalize t) = .call name :: ls) (hls : Laid IsLeaf true ls) :
    ∃ cs ws, parse t = .function name cs :: ws ∧ ∀ w ∈ ws, w.isWhitespace = true := by
  obtain ⟨cs, ws, hcs, hws, hcase⟩ := hls.exists_arguments
  have hflat := flatList_of_isLeaf hcs
  refine ⟨cs, ws, ?_, hws⟩
  rcases hcase with ⟨rfl, rfl⟩ | rfl
  · -- The function is closed by the end of the text.
    obtain ⟨⟨l, s⟩, rest, hscan, rfl, hrest⟩ := map_eq_cons_iff.mp h
    obtain ⟨ds, rfl, hfold⟩ := Nesting.foldl_step_flatList cs
      (Nesting.empty.enter (.call name) s) rest (hflat ▸ hrest)
    rw [parse, parseFound, hscan, Nesting.ofLexemes, foldl_cons]
    show (Nesting.finish (rest.foldl Nesting.step (Nesting.empty.enter (.call name) s)).current
      (rest.foldl Nesting.step (Nesting.empty.enter (.call name) s)).frames).map (·.item) = _
    rw [hfold]
    simp [Nesting.finish, Nesting.enter, Nesting.empty, Opening.component]
  · refine Nesting.ofLexemes_flat (h.trans ?_)
    show _ = flat (.function name cs) ++ flatList ws
    rw [flat, hflat, flatList_of_isWhitespace hws]
    simp

/-- **A text that passes behind the opening of a function is a single part.** -/
theorem exists_split_of_passes {t v : Text} (name : Text)
    (h : lexemes (Lexeme.normalize t) = .call name :: lexemes (Lexeme.normalize v))
    (hv : Spot.Passes ⟨true, .outside⟩ v) : ∃ w, split t = [w] := by
  have hpasses := (Spot.passes_normalize _ v).mpr hv
  obtain ⟨cs, ws, hparse, hws⟩ :=
    exists_function_of_laid h (Lexeme.laid_of_passes (Lexeme.normal_normalize v) hpasses)
  have hsignificant : significant (parse t) = [.function name cs] := by
    have hnone : ws.filter (fun w => !w.isSeparator) = [] := by
      refine filter_eq_nil_iff.mpr fun w hw => ?_
      have hblank := hws w hw
      cases w <;> first | contradiction | simp [isSeparator]
    rw [hparse, significant, filter_cons, hnone]
    rfl
  rw [split, groups_of_significant isComment_of_mem_parse hsignificant]
  exact ⟨_, rfl⟩

end Component

namespace Name

/-- A name ends at a bracket. -/
theorem take_paren {n : Text} (h : ∀ c ∈ n, isChar c = true) (t : Text) :
    take (n ++ '(' :: t) = (n, '(' :: t) := by
  have hparen : Lexeme.startsName ('(' :: t) = false := rfl
  rw [take_append_of_isChar h, take_of_not_startsName hparen, append_nil]

end Name

namespace Lexeme

/-- A name with a bracket behind it opens a function. -/
theorem lexemes_call {c : Char} {n : Text} (hc : c.isAlpha = true)
    (hn : ∀ d ∈ c :: n, Name.isChar d = true) (hurl : Text.lower (c :: n) ≠ ['u', 'r', 'l'])
    (t : Text) : lexemes (c :: n ++ '(' :: t) = .call (c :: n) :: lexemes t := by
  have hstart : Name.isStart c = true := by simp [Name.isStart, hc]
  have hread : read c (n ++ '(' :: t) = readName (c :: n ++ '(' :: t) :=
    read_name hn (startsIdentifier_of_isStart hstart _) rfl (by simp)
  rw [cons_append, lexemes_cons, hread, readName_call (Name.take_paren hn t) fun h => hurl h.1]
  rfl

/-- What opens a function is read to its bracket. -/
theorem Reading.of_call {n : Text} (h : Reading c t [.call n] r) :
    (Name.take (c :: t)).1 = n ∧ (Name.take (c :: t)).2 = '(' :: r := by
  generalize hls : [Lexeme.call n] = ls at h
  cases h with
  | call h hr => exact ⟨(call.inj (cons.inj hls).1).symm, hr⟩
  | url hr =>
    rcases mem_ofUrl (hls ▸ mem_singleton_self (Lexeme.call n)) with ⟨u, b, h⟩ | ⟨f, h⟩ <;>
      contradiction
  | string hq =>
    rcases mem_ofString (hls ▸ mem_singleton_self (Lexeme.call n)) with ⟨u, b, h⟩ | ⟨f, h⟩ <;>
      contradiction
  | symbol hb hs hn =>
    obtain ⟨text, htext, -⟩ := readDelimiter_eq c t
    rw [htext] at hls
    simp [delimiter] at hls
  | _ => simp [delimiter] at hls

/-- A plain text is normal. -/
theorem normal_of_plain {t : Text} (h : ∀ c ∈ t, Text.isPlain c = true) : Normal t :=
  ⟨fun hm => absurd (h _ hm) (by decide), fun hm => absurd (h _ hm) (by decide),
    fun hm => absurd (h _ hm) (by decide)⟩

/-- Comments are dropped by the scan, so no leaf of a text is one. -/
theorem isComment_of_mem_lexemes (h : .leaf d ∈ lexemes v) : d.isComment = false := by
  obtain ⟨l, hl, hd⟩ := mem_map.mp h
  have := (mem_filter.mp hl).2
  rw [hd] at this
  simpa [isComment] using this

end Lexeme

namespace Color

open Component (Faultless flatList IsLeaf significant)

/-- The arguments of a color function are the components between the commas and the commas themselves. By
    induction on the arguments, two at a time. -/
theorem mem_of_betweenCommas {cs ds : List Component} (h : betweenCommas? cs = some ds) :
    ∀ c ∈ cs, c ∈ ds ∨ c = .literal [','] := by
  fun_induction betweenCommas? cs generalizing ds with
  | case1 => contradiction
  | case2 c =>
    obtain rfl := Option.some.inj h
    exact fun d hd => Or.inl hd
  | case3 c comma cs hcomma ih =>
    obtain ⟨es, hes, rfl⟩ := Option.map_eq_some_iff.mp h
    intro d hd
    rcases mem_cons.mp hd with rfl | hd
    · exact Or.inl mem_cons_self
    · rcases mem_cons.mp hd with rfl | hd
      · refine Or.inr ?_
        cases d <;> simp_all [Component.isDelimiter]
      · exact (ih hes d hd).imp_left (mem_cons_of_mem _)
  | case4 => contradiction

/-- Each argument of a call that makes a color has a kind of its own. -/
theorem ne_other_of_isCall {name : String} {arguments : List Argument}
    (h : isCall name arguments = true) : ∀ a ∈ arguments, a ≠ .other := by
  have hrgb : ∀ {as : List Argument}, isRgb as = true → ∀ a ∈ as, a ≠ .other := by
    intro as has
    simp only [isRgb, Bool.or_eq_true, beq_iff_eq] at has
    rcases has with rfl | rfl <;> decide
  have hhsl : ∀ {as : List Argument}, isHsl as = true → ∀ a ∈ as, a ≠ .other := by
    intro as has
    unfold isHsl at has
    split at has
    · simp only [Bool.and_eq_true, beq_iff_eq, Argument.isNumber, Bool.or_eq_true] at has
      obtain ⟨⟨hhue, rfl⟩, rfl⟩ := has
      rcases hhue with rfl | rfl <;> decide
    · contradiction
  have hopacity : ∀ {as : List Argument}, isOpacity as = true → ∀ a ∈ as, a ≠ .other := by
    intro as has
    unfold isOpacity at has
    split at has
    · simp only [Argument.isNumber, Bool.or_eq_true, beq_iff_eq] at has
      rcases has with rfl | rfl <;> decide
    · contradiction
  -- An alpha color is three arguments of the plain one and an opacity.
  have hparts : ∀ {p q : List Argument → Bool},
      (∀ {as : List Argument}, p as = true → ∀ a ∈ as, a ≠ .other) →
      (∀ {as : List Argument}, q as = true → ∀ a ∈ as, a ≠ .other) →
      (p (arguments.take 3) && q (arguments.drop 3)) = true → ∀ a ∈ arguments, a ≠ .other := by
    intro p q hp hq hpq a ha
    rw [Bool.and_eq_true] at hpq
    rw [← take_append_drop 3 arguments] at ha
    exact (mem_append.mp ha).elim (hp hpq.1 a) (hq hpq.2 a)
  unfold isCall at h
  split at h
  · exact hrgb h
  · exact hparts hrgb hopacity h
  · exact hhsl h
  · exact hparts hhsl hopacity h
  · contradiction

/-- The arguments of a call that is a color. -/
theorem isArgument_of_isComponent {name : Text} {arguments : List Component}
    (h : isComponent (.function name arguments) = true) :
    ∀ c ∈ arguments, c.isComment = false → Lexeme.IsArgument c := by
  intro c hc hcomment
  simp only [isComponent] at h
  split at h
  · rename_i ds hds
    by_cases hsep : c.isSeparator = true
    · cases c with
      | whitespace text => exact .whitespace text
      | comment text => contradiction
      | _ => contradiction
    · have hmem : c ∈ significant arguments := by simpa [significant, hc] using hsep
      rcases mem_of_betweenCommas hds c hmem with hd | rfl
      · have hother := ne_other_of_isCall h (Argument.of c) (mem_map_of_mem hd)
        cases c with
        | number numeral => exact .number numeral
        | percentage numeral => exact .percentage numeral
        | _ => exact absurd rfl hother
      · exact .comma
  · contradiction

/-- The names of the functions that make colors. -/
theorem mem_of_isComponent {name : Text} {arguments : List Component}
    (h : isComponent (.function name arguments) = true) :
    Text.toString (Text.lower name) ∈ ["rgb", "rgba", "hsl", "hsla"] := by
  simp only [isComponent] at h
  split at h
  · unfold isCall at h
    split at h <;> simp_all
  · contradiction

/-- A color function holds no call and no block of its own: each argument is a leaf. -/
theorem isLeaf_of_isComponent {name : Text} {arguments : List Component}
    (h : isComponent (.function name arguments) = true) :
    ∀ c ∈ arguments, IsLeaf c ∧ (Lexeme.leaf c).isFault = false := by
  intro c hc
  cases hcomment : c.isComment with
  | true => cases c <;> first | exact ⟨rfl, rfl⟩ | contradiction
  | false => cases isArgument_of_isComponent h c hc hcomment <;> exact ⟨rfl, rfl⟩

/-- A color carries no fault. A function would carry it in its arguments, and these are leaves. -/
theorem faultless_of_isComponent {d : Component} (h : isComponent d = true) : Faultless [d] := by
  cases d with
  | ident name => simp [Faultless, Component.flatList, Component.flat, Lexeme.isFault]
  | hash name isIdent => simp [Faultless, Component.flatList, Component.flat, Lexeme.isFault]
  | function name arguments =>
    rw [Component.faultless_function, Faultless,
      Component.flatList_of_isLeaf fun c hc => (isLeaf_of_isComponent h c hc).1]
    intro l hl
    obtain ⟨c, hc, rfl⟩ := mem_map.mp hl
    exact (isLeaf_of_isComponent h c hc).2
  | _ => contradiction

/-- What is read of a color is its component, with white space around it. -/
theorem exists_parse {u : Text} (h : isColor u = true) :
    ∃ (d : Component) (front back : List Component), isComponent d = true ∧
      significant (Component.parse u) = [d] ∧ Component.parse u = front ++ [d] ++ back ∧
      (∀ c ∈ front, c.isWhitespace = true) ∧ (∀ c ∈ back, c.isWhitespace = true) ∧
      Faultless (Component.parse u) := by
  unfold isColor at h
  split at h
  · rename_i d hd
    obtain ⟨front, back, hparse, hfront, hback⟩ := Component.exists_parse_of_sole hd
    exact ⟨d, front, back, h, hd, hparse, hfront, hback,
      Component.faultless_of_sole hd (faultless_of_isComponent h)⟩
  · contradiction

/-- A color that begins with no white space and no comment begins with its component. -/
theorem exists_reading {u t : Text} {c : Char} (h : isColor u = true)
    (htext : Lexeme.normalize u = c :: t) (hblank : Text.isCssBlank c = false) (hslash : c ≠ '/') :
    ∃ (d : Component) (r : Text) (rest closing : List Lexeme) (back : List Component),
      isComponent d = true ∧ Component.flat d = d.head :: rest ∧ Lexeme.Reading c t [d.head] r ∧
      Lexeme.lexemes r ++ closing = rest ++ back.map .leaf ∧
      (∀ b ∈ back, b.isWhitespace = true) ∧ ∀ l ∈ closing, ∃ b, l = .closed b := by
  obtain ⟨d, -, -, hd, hsole, -⟩ := exists_parse h
  obtain ⟨r, rest, closing, back, hall⟩ := Component.exists_reading_of_sole hsole
    (faultless_of_isComponent hd) htext hblank hslash
  exact ⟨d, r, rest, closing, back, hd, hall⟩

/-- Nothing in the name of a call or its bracket is changed when line ends are unified. -/
theorem normal_call {name : Text} (hname : ∀ c ∈ name, Text.isPlain c = true ∧ Name.isChar c = true) :
    Lexeme.Normal (name ++ ['(']) := by
  refine ⟨fun hmem => ?_, fun hmem => ?_, fun hmem => ?_⟩
  all_goals
    rcases mem_append.mp hmem with hmem | hmem
    · exact absurd (hname _ hmem).1 (by decide)
    · exact absurd (mem_singleton.mp hmem) (by decide)

/-- A color that begins with a name and a bracket is a function of that name: behind an identifier the
    bracket would be left, and that is no white space. -/
theorem exists_function_of_reading {d : Component} {c : Char} {t r n v : Text}
    {rest closing : List Lexeme} {back : List Component} (hd : isComponent d = true)
    (hflat : Component.flat d = d.head :: rest) (hreading : Lexeme.Reading c t [d.head] r)
    (hchar : Name.isChar c = true) (htake : Name.take (c :: t) = (n, '(' :: v))
    (hlexemes : Lexeme.lexemes r ++ closing = rest ++ back.map .leaf) :
    ∃ arguments, d = .function n arguments ∧ rest = flatList arguments ++ [.closed .round] ∧ r = v := by
  -- A name before the bracket is the name of a call: read as a plain name, the bracket would be left over.
  cases d with
  | ident m =>
    have hend := hreading.of_ident
    rw [htake] at hend
    obtain rfl : '(' :: v = r := (Prod.mk.inj hend).2
    obtain rfl : [] = rest := (cons.inj hflat).2
    have hopened : Lexeme.lexemes ('(' :: v) = .opened .round :: Lexeme.lexemes v := by
      rw [Lexeme.lexemes_cons]
      rfl
    rw [hopened] at hlexemes
    cases back with
    | nil => contradiction
    | cons b back => exact absurd (cons.inj hlexemes).1 (by simp)
  | hash m b => exact absurd (hreading.of_leaf.2 m b rfl ▸ hchar) (by decide)
  | function m arguments =>
    obtain ⟨hm, hend⟩ := hreading.of_call
    rw [htake] at hm hend
    obtain rfl : n = m := hm
    exact ⟨arguments, rfl, (cons.inj hflat).2.symm, (cons.inj hend).2.symm⟩
  | _ => contradiction

/-- The arguments of a color pass, with white space behind their bracket. -/
theorem passes_of_arguments {name v : Text} {arguments back : List Component} {closing : List Lexeme}
    (h : isComponent (.function name arguments) = true)
    (hlexemes : Lexeme.lexemes v ++ closing =
      flatList arguments ++ [.closed .round] ++ back.map .leaf)
    (hback : ∀ b ∈ back, b.isWhitespace = true) (hclosing : ∀ l ∈ closing, ∃ b, l = .closed b) :
    Spot.Passes ⟨true, .outside⟩ v := by
  rw [Component.flatList_of_isLeaf fun e he => (isLeaf_of_isComponent h e he).1, append_assoc]
    at hlexemes
  have hargument : ∀ e ∈ arguments, Lexeme.IsArgument e := by
    refine fun e he => isArgument_of_isComponent h e he ?_
    have hmem : .leaf e ∈ Lexeme.lexemes v ++ closing := by
      rw [hlexemes]
      exact mem_append_left _ (mem_map_of_mem he)
    rcases mem_append.mp hmem with hmem | hmem
    · exact Lexeme.isComment_of_mem_lexemes hmem
    · obtain ⟨b, hb⟩ := hclosing _ hmem
      contradiction
  refine Lexeme.Laid.passes (Lexeme.Laid.of_append (?_ : Lexeme.Laid _ _ (_ ++ closing)))
  rw [hlexemes]
  exact .of_map hargument hback

/-- **A call that is a color passes**, and its name is that of a function that makes colors. -/
theorem passes_of_isColor {name v : Text} (hne : name ≠ [])
    (hname : ∀ c ∈ name, Text.isPlain c = true ∧ Name.isChar c = true)
    (h : isColor (name ++ '(' :: v) = true) :
    Text.toString (Text.lower name) ∈ ["rgb", "rgba", "hsl", "hsla"] ∧
      Spot.Passes ⟨true, .outside⟩ v := by
  obtain ⟨c, n, rfl⟩ := exists_cons_of_ne_nil hne
  obtain ⟨hplain, hchar⟩ := hname c mem_cons_self
  have htext : Lexeme.normalize (c :: n ++ '(' :: v) = c :: (n ++ '(' :: Lexeme.normalize v) := by
    have := Lexeme.normalize_append (normal_call hname) v
    rwa [append_assoc, append_assoc] at this
  have htake : Name.take (c :: (n ++ '(' :: Lexeme.normalize v)) =
      (c :: n, '(' :: Lexeme.normalize v) := Name.take_paren (fun d hd => (hname d hd).2) _
  have hblank : Text.isCssBlank c = false := by
    by_contra hblank
    have := Text.isBlank_of_isCssBlank (by simpa using hblank)
    rw [Text.isBlank_of_isPlain hplain] at this
    contradiction
  obtain ⟨d, r, rest, closing, back, hd, hflat, hreading, hlexemes, hback, hclosing⟩ :=
    exists_reading h htext hblank (Text.ne_of_isPlain hplain (by decide))
  obtain ⟨arguments, rfl, rfl, rfl⟩ :=
    exists_function_of_reading hd hflat hreading hchar htake hlexemes
  exact ⟨mem_of_isComponent hd,
    (Spot.passes_normalize _ v).mp (passes_of_arguments hd hlexemes hback hclosing)⟩

/-- A word or a hash stays as it is when it is cleaned. -/
theorem clean_of_forall {u : Text} (hu : Pattern.Matches .colorLike u)
    (hall : ∀ c ∈ u, c = '#' ∨ Text.isPlain c = true) : (Cleaning.clean u).1 = u := by
  have hnot : ∀ x, x ≠ '#' → Text.isPlain x = false → x ∉ u := fun x hx hno hmem =>
    (hall x hmem).elim hx fun hyes => by simp [hno] at hyes
  rw [Cleaning.clean_eq_trim (hnot '!' (by decide) (by decide)) (hnot ';' (by decide) (by decide)),
    Pattern.trim_of_matches_colorLike hu]

/-- The name of a call, its bracket and its last bracket stay, and marks are gone between these. -/
theorem clean_call {name : Text} (hne : name ≠ [])
    (hname : ∀ c ∈ name, Text.isPlain c = true ∧ Name.isChar c = true) (inside : Text) :
    (Cleaning.clean (name ++ '(' :: (inside ++ [')']))).1 =
      name ++ '(' :: (Cleaning.replaceMarks (inside ++ [')'])).1 := by
  obtain ⟨c, n, rfl⟩ := exists_cons_of_ne_nil hne
  obtain ⟨v, hv⟩ := Cleaning.exists_replaceMarks_concat (d := ')') (by decide) (by decide)
    (by decide) inside
  have hmarks := Cleaning.replaceMarks_append (w := c :: n ++ ['(']) (fun d hd => by
    rcases mem_append.mp hd with hd | hd
    · have hd := (hname d hd).1
      exact ⟨Text.isBlank_of_isPlain hd, Text.ne_of_isPlain hd (by decide)⟩
    · rw [mem_singleton.mp hd]
      decide) (inside ++ [')'])
  have hend := Cleaning.dropSemicolon_concat (d := ')') (by decide) (by decide)
    (c :: n ++ '(' :: inside)
  simp only [append_assoc, cons_append, nil_append] at hmarks hend ⊢
  rw [Cleaning.clean, hend, hmarks, hv]
  exact Text.trim_of_ends (Text.isBlank_of_isPlain (hname c mem_cons_self).1)
    (by decide : Text.isBlank ')' = false) (u := c :: n ++ '(' :: v) (by simp)

/-- A call that makes a color is read from its name on. -/
theorem lexemes_call {name : Text} (hname : ∀ c ∈ name, Text.isPlain c = true ∧ Name.isChar c = true)
    (hcalls : Text.toString (Text.lower name) ∈ ["rgb", "rgba", "hsl", "hsla"]) (v : Text) :
    Lexeme.lexemes (Lexeme.normalize (name ++ '(' :: v)) =
      .call name :: Lexeme.lexemes (Lexeme.normalize v) := by
  obtain ⟨c, n, rfl, halpha⟩ := exists_isAlpha (mem_append_right names hcalls)
  have htext := Lexeme.normalize_append (normal_call hname) v
  rw [append_assoc, append_assoc] at htext
  have hurl : Text.lower (c :: n) ≠ ['u', 'r', 'l'] := by
    intro heq
    rw [heq] at hcalls
    exact absurd hcalls (by decide)
  exact (congrArg Lexeme.lexemes htext).trans
    (Lexeme.lexemes_call halpha (fun d hd => (hname d hd).2) hurl _)

/-- **A color that is cleaned is a single part**, whatever its comments hold. -/
theorem split_clean {u : Text} (hu : Pattern.Matches .colorLike u) (hcolor : isColor u = true) :
    ∃ w, Component.split (Cleaning.clean u).1 = [w] := by
  rcases Pattern.cases_of_matches_colorLike hu with ⟨name, inside, rfl, hne, hname⟩ |
    ⟨digits, rfl, hdigits, -⟩ | ⟨-, hall⟩
  · obtain ⟨hcalls, hpasses⟩ := passes_of_isColor hne hname hcolor
    rw [clean_call hne hname]
    exact Component.exists_split_of_passes name (lexemes_call hname hcalls _) hpasses.replaceMarks
  · rw [clean_of_forall hu fun c hc => (mem_cons.mp hc).imp_right (hdigits c)]
    exact (split_of_isColor hcolor).imp fun w h => h.1
  · rw [clean_of_forall hu fun c hc => Or.inr (hall c hc).1]
    exact (split_of_isColor hcolor).imp fun w h => h.1

end Color

/-- **A part of a border that is cleaned is single**, whatever the value of the border holds. -/
theorem Slices.split_of_found {p : Part} (hp : p ∈ Part.border) {value text : Text}
    (h : Slices.Found p value text) (hne : text ≠ []) :
    ∃ w, Component.split (Cleaning.clean text).1 = [w] := by
  rcases plain_of_found hp h with ⟨hcolor, haccepts⟩ | hplain
  · exact Color.split_clean hcolor haccepts
  · rw [Text.clean_of_plain hplain]
    exact (Component.split_of_plain hplain hne).imp fun w h => h.1

end CssShorthand
