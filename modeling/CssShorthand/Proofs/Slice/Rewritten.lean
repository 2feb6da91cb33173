/-
  A COLOR, WRITTEN AND READ AGAIN.

  A color is written without its comments and without the white space behind it.  Read again, it is the same
  component (`Color.parse_write`), but where a comment stood between white space there is one component of white
  space for two (`Component.joinBlanks`): numbers, percentages, commas and brackets are read as they were.

  The two sides of the comparison are the border, whose color goes through one of its sides and is written
  twice, and the side itself, where it is written once. What is lost on the way is white space at the end,
  and the comment between two blanks. `ReadAs` says how the second reading relates to the first one.
-/
import Mathlib.Data.List.DropRight
import CssShorthand.Proofs.Slice.ColorWords
import CssShorthand.Proofs.Slice.Comments
import CssShorthand.Proofs.Slice.Lengths

namespace CssShorthand

open List

/-- What starts a name, with neither a hyphen nor a backslash, is a character that may start one. -/
theorem Name.isStart_of_startsIdentifier {c : Char} {t : Text} (h : startsIdentifier (c :: t) = true)
    (hminus : c ≠ '-') (hback : c ≠ '\\') : isStart c = true := by
  unfold startsIdentifier at h
  split at h <;> simp_all

/-! ## White space joined

  Two neighbouring components of white space become one; the function is applied to the arguments of a call
  and to the end of a value.
-/

namespace Component

/-- Components, of which white space next to other white space is one. -/
def joinBlanks : List Component → List Component
  | .whitespace v :: .whitespace w :: cs => joinBlanks (.whitespace (v ++ w) :: cs)
  | c :: cs => c :: joinBlanks cs
  | [] => []
termination_by cs => cs.length

/-- A function with the white space among its arguments joined; any other component is as it is. -/
def joinArguments : Component → Component
  | .function name cs => .function name (joinBlanks cs)
  | c => c

/-- What is read of a value that was read before and is written as its one part: the white space behind the
    part is gone, and that among arguments is joined. -/
def tidy (cs : List Component) : List Component := (cs.rdropWhile isWhitespace).map joinArguments

variable {c : Char} {n t : Text} {a b : Component} {cs ws : List Component}

/-- What holds no components has none to join. -/
theorem IsLeaf.joinArguments_eq (h : IsLeaf a) : joinArguments a = a := by
  cases a with
  | function name arguments => simp [IsLeaf, flat] at h
  | _ => rfl

/-- If nothing is joined, only the white space behind the part is gone. -/
theorem tidy_eq_rdropWhile (h : ∀ c ∈ cs, joinArguments c = c) : tidy cs = cs.rdropWhile isWhitespace := by
  have hfront := rdropWhile_prefix isWhitespace cs
  exact (map_congr_left fun c hc => h c (hfront.subset hc)).trans (map_id _)

/-- Components that hold no others, and no white space among them, are tidy. -/
theorem tidy_of_forall (h : ∀ c ∈ cs, IsLeaf c ∧ c.isWhitespace = false) : tidy cs = cs := by
  have hlast : ∀ hne : cs ≠ [], ¬(cs.getLast hne).isWhitespace = true := fun hne => by
    simp [(h _ (getLast_mem hne)).2]
  rw [tidy_eq_rdropWhile fun c hc => (h c hc).1.joinArguments_eq, rdropWhile_eq_self_iff.mpr hlast]

/-- White space behind a function is gone. -/
theorem tidy_function (hws : ∀ w ∈ ws, w.isWhitespace = true) :
    tidy (.function n cs :: ws) = [.function n (joinBlanks cs)] := by
  have hdrop : rdropWhile isWhitespace (.function n cs :: ws) = [.function n cs] := by
    rw [rdropWhile, reverse_cons, dropWhile_append_of_pos (by simpa using hws)]
    rfl
  rw [tidy, hdrop]
  rfl

end Component

/-! ## Arguments read again

  Numbers, percentages, commas and blanks, written with the gap that the writer puts between two of them.
-/

namespace Component

open Lexeme (lexemes)

/-- An argument of a color as it was read: what of it is read again depends on this. -/
inductive IsRead : Component → Prop
  | whitespace {c : Char} {t : Text} (h : ∀ d ∈ c :: t, Text.isCssBlank d = true) : IsRead (.whitespace (c :: t))
  | number {n t r : Text} (h : Number.take? t = some (n, r)) : IsRead (.number n)
  | percentage {n t r : Text} (h : Number.take? t = some (n, r)) : IsRead (.percentage n)
  | comma : IsRead (.literal [','])

variable {c : Char} {n r t y : Text} {a b : Component} {cs : List Component}

/-- What is read as one component is a leaf. -/
theorem IsRead.isLeaf (h : IsRead a) : IsLeaf a := by cases h <;> rfl

/-- An argument begins with a character that is white space if the argument is. -/
theorem IsRead.exists_write (h : IsRead a) : ∃ x y, a.write = x :: y ∧ Text.isCssBlank x = a.isWhitespace := by
  have hnumeral : ∀ {n t r : Text}, Number.take? t = some (n, r) →
      ∃ x y, n = x :: y ∧ Text.isCssBlank x = false := by
    intro n t r hn
    obtain ⟨x, y, rfl⟩ := exists_cons_of_ne_nil (Number.take?_append hn).2
    refine ⟨x, y, rfl, ?_⟩
    have hx := Number.isNumeralChar_of_take hn (mem_cons_self (a := x))
    by_contra hblank
    simp only [Bool.not_eq_false, Text.isCssBlank, Bool.or_eq_true, beq_iff_eq] at hblank
    rcases hblank with (rfl | rfl) | rfl <;> exact absurd hx (by decide)
  cases h with
  | whitespace h => exact ⟨_, _, rfl, h _ mem_cons_self⟩
  | number h =>
    obtain ⟨x, y, rfl, hx⟩ := hnumeral h
    exact ⟨x, y, rfl, hx⟩
  | percentage h =>
    obtain ⟨x, y, rfl, hx⟩ := hnumeral h
    exact ⟨x, y ++ ['%'], rfl, hx⟩
  | comma => exact ⟨',', [], rfl, rfl⟩

/-- White space that is joined is read as white space. -/
theorem IsRead.join {v w : Text} (hv : IsRead (.whitespace v)) (hw : IsRead (.whitespace w)) :
    IsRead (.whitespace (v ++ w)) := by
  cases hv with
  | whitespace hv =>
    cases hw with
    | whitespace hw =>
      exact .whitespace fun d hd => (mem_append.mp hd).elim (hv d) (hw d)

/-- Arguments with white space joined are arguments. -/
theorem isRead_of_mem_joinBlanks (h : ∀ c ∈ cs, IsRead c) : ∀ c ∈ joinBlanks cs, IsRead c := by
  fun_induction joinBlanks cs with
  | case1 v w cs ih =>
    simp only [forall_mem_cons] at h
    exact ih (forall_mem_cons.mpr ⟨h.1.join h.2.1, h.2.2⟩)
  | case2 c cs hne ih =>
    rw [forall_mem_cons] at h
    exact forall_mem_cons.mpr ⟨h.1, ih h.2⟩
  | case3 => nofun

/-- What is written behind a component, up to the next one. -/
def gap (a : Component) (cs : List Component) : Text := cs.head?.elim [] (between a)

/-- Two neighbours are written with the gap between them that keeps them apart. -/
theorem writeList_cons (a : Component) (cs : List Component) :
    writeList (a :: cs) = a.write ++ (gap a cs ++ writeList cs) := by
  cases cs with
  | nil => simp [writeList, gap]
  | cons b cs => simp [writeList, gap]

/-- Nothing is written behind white space, behind a percentage and behind a comma. -/
theorem IsRead.gap_eq_nil (h : IsRead a) (hnumber : ∀ n, a ≠ .number n) (cs : List Component) : gap a cs = [] := by
  cases cs with
  | nil => rfl
  | cons b cs =>
    cases h with
    | number => exact absurd rfl (hnumber _)
    | _ => simp [gap, between, Joint.of, Joint.clash, isDelimiter]

/-- White space is written as if it were joined. -/
theorem writeList_blanks {v w : Text} (hv : IsRead (.whitespace v)) (hw : IsRead (.whitespace w))
    (cs : List Component) :
    writeList (.whitespace v :: .whitespace w :: cs) = writeList (.whitespace (v ++ w) :: cs) := by
  rw [writeList_cons, writeList_cons, writeList_cons, hv.gap_eq_nil (by simp), hw.gap_eq_nil (by simp),
    (hv.join hw).gap_eq_nil (by simp)]
  simp [write]

/-- No number goes on with what begins so. -/
theorem ended_of_head (h : c = '/' ∨ c = ',' ∨ c = ')' ∨ Text.isCssBlank c = true) (t : Text) :
    Number.Ended (c :: t) ∧ Name.startsIdentifier (c :: t) = false ∧ (c :: t).head? ≠ some '%' := by
  simp only [Text.isCssBlank, Bool.or_eq_true, beq_iff_eq] at h
  rcases h with rfl | rfl | rfl | (rfl | rfl) | rfl
  all_goals exact ⟨Number.ended_cons rfl (by decide) (by decide) (by decide) t, rfl, by simp⟩

/-- **Behind a number stands nothing that it goes on with**, for there is a comment between two of them. -/
theorem exists_behind_number (h : ∀ c ∈ cs, IsRead c) (n r : Text) :
    ∃ x y, gap (.number n) cs ++ (writeList cs ++ ')' :: r) = x :: y ∧
      (x = '/' ∨ x = ',' ∨ x = ')' ∨ Text.isCssBlank x = true) ∧
      lexemes (x :: y) = lexemes (writeList cs ++ ')' :: r) := by
  cases cs with
  | nil => exact ⟨')', r, rfl, by simp, rfl⟩
  | cons b cs =>
    have hcomment : ∀ z, ∃ x y, ['/', '*', '*', '/'] ++ z = x :: y ∧
        (x = '/' ∨ x = ',' ∨ x = ')' ∨ Text.isCssBlank x = true) ∧ lexemes (x :: y) = lexemes z := fun z =>
      ⟨'/', _, rfl, Or.inl rfl, Lexeme.lexemes_between z⟩
    rw [writeList_cons]
    cases h b mem_cons_self with
    | number => exact hcomment _
    | percentage => exact hcomment _
    | whitespace hw => exact ⟨_, _, rfl, by simp [hw], rfl⟩
    | comma => exact ⟨',', _, rfl, by simp, rfl⟩

/-- **Arguments are read as they were**, but for white space that is next to other white space. -/
theorem lexemes_writeList (h : ∀ c ∈ cs, IsRead c) (r : Text) :
    lexemes (writeList cs ++ ')' :: r) = (joinBlanks cs).map .leaf ++ .closed .round :: lexemes r := by
  fun_induction joinBlanks cs with
  | case1 v w cs ih =>
    simp only [forall_mem_cons] at h
    rw [writeList_blanks h.1 h.2.1]
    exact ih (forall_mem_cons.mpr ⟨h.1.join h.2.1, h.2.2⟩)
  | case2 c cs hne ih =>
    rw [forall_mem_cons] at h
    obtain ⟨hc, hcs⟩ := h
    have hrest := ih hcs
    rw [writeList_cons, append_assoc, append_assoc, map_cons, cons_append, ← hrest]
    cases hc with
    | @whitespace x t hx =>
      -- Joined as they are, no white space stands behind it.
      have hend : ∀ e ∈ (writeList cs ++ ')' :: r).head?, Text.isCssBlank e = false := by
        cases cs with
        | nil => simp [writeList, Text.isCssBlank]
        | cons b cs =>
          obtain ⟨e, y, hwrite, he⟩ := (hcs b mem_cons_self).exists_write
          have hb : b.isWhitespace = false := by
            cases b with
            | whitespace w => exact (hne _ _ _ rfl rfl).elim
            | _ => rfl
          rw [writeList_cons, hwrite]
          simp [he, hb]
      rw [(IsRead.whitespace hx).gap_eq_nil (by simp), nil_append]
      exact Lexeme.lexemes_whitespace hx hend
    | @number n t u hn =>
      -- A number would go on with another one: the comment between them keeps it apart, and is not read.
      obtain ⟨x, y, hbehind, hx, hlexemes⟩ := exists_behind_number hcs n r
      obtain ⟨hended, hunit, hpercent⟩ := ended_of_head hx y
      rw [hbehind, ← hlexemes]
      exact Lexeme.lexemes_number (Number.take?_again hn hended) hunit hpercent
    | percentage hn =>
      rw [(IsRead.percentage hn).gap_eq_nil (by simp), write, append_assoc]
      exact Lexeme.lexemes_percentage hn _
    | comma =>
      rw [IsRead.comma.gap_eq_nil (by simp)]
      exact Lexeme.lexemes_comma _
  | case3 => exact Lexeme.lexemes_close r

end Component

/-! ## Colors read again

  A call is read again as a call, with its arguments as above; a name and a hash as themselves.
-/

namespace Color

open Component (joinBlanks tidy)

variable {n u : Text} {cs ws front back : List Component}

/-- The arguments of a color were read as arguments. -/
theorem isRead_of_mem (hd : isComponent (.function n cs) = true)
    (hparse : Component.parse u = front ++ [.function n cs] ++ back)
    (hfault : Component.Faultless (Component.parse u)) : ∀ a ∈ cs, Component.IsRead a := by
  intro a ha
  obtain ⟨hargument, hformed⟩ := isArgument_of_mem hd hparse hfault a ha
  obtain ⟨closing, hflat, hclosing⟩ := Component.exists_flatList_parse hfault
  have hmem : .leaf a ∈ Lexeme.lexemes (Lexeme.normalize u) :=
    (mem_append.mp (hflat ▸ leaf_mem_flatList_parse hd hparse a ha)).resolve_right fun h => by
      obtain ⟨b, hb⟩ := hclosing _ h
      contradiction
  cases hargument with
  | whitespace text =>
    obtain ⟨c, t, rfl⟩ := exists_cons_of_ne_nil hformed.2.1
    exact .whitespace hformed.2.2
  | number n =>
    obtain ⟨w, r, hw⟩ := Component.exists_take?_of_mem_lexemes hmem rfl
    exact .number hw
  | percentage n =>
    obtain ⟨w, r, hw⟩ := Component.exists_take?_of_mem_lexemes hmem rfl
    exact .percentage hw
  | comma => exact .comma

/-- **A call that makes a color is read again of what is written**, with the white space in it joined. -/
theorem parse_write (hd : isComponent (.function n cs) = true)
    (hcs : ∀ a ∈ cs, Lexeme.IsArgument a ∧ Lexeme.Formed (.leaf a)) (hread : ∀ a ∈ cs, Component.IsRead a) :
    Component.parse (Component.function n cs).write = [.function n (joinBlanks cs)] := by
  obtain ⟨halpha, hwrite⟩ := write_function hd
  have hname : ∀ c ∈ n, Text.isPlain c = true ∧ Name.isChar c = true := fun c hc => by
    simp [Text.isPlain, Char.isAlphanum, Name.isChar, Name.isStart, halpha c hc]
  have hwritten := isWritten_of_mem_writeList hcs
  have hnormal : Lexeme.Normal (Component.writeList cs ++ [')']) := by
    refine Lexeme.normal_append.mpr ⟨⟨fun hm => ?_, fun hm => ?_, fun hm => ?_⟩, by decide⟩
    all_goals exact absurd (hwritten _ hm) (by decide)
  have hlexemes := Component.lexemes_writeList hread []
  have hcall := lexemes_call hname (mem_of_isComponent hd) (Component.writeList cs ++ [')'])
  rw [Lexeme.normalize_of_normal hnormal, hlexemes, Lexeme.lexemes_nil] at hcall
  rw [hwrite]
  -- What is nested again is the flat form of the call, with its arguments as leaves.
  refine Nesting.ofLexemes_flat (hcall.trans ?_)
  have hleaf : ∀ c ∈ joinBlanks cs, Component.IsLeaf c := fun c hc =>
    (Component.isRead_of_mem_joinBlanks hread c hc).isLeaf
  show _ = Component.flat (.function n (joinBlanks cs)) ++ []
  rw [Component.flat, Component.flatList_of_isLeaf hleaf]
  simp

/-- Nothing of such a call is taken away when it is cleaned. -/
theorem clean_write (hd : isComponent (.function n cs) = true)
    (hcs : ∀ a ∈ cs, Lexeme.IsArgument a ∧ Lexeme.Formed (.leaf a)) :
    (Cleaning.clean (Component.function n cs).write).1 = (Component.function n cs).write := by
  obtain ⟨halpha, hwrite⟩ := write_function hd
  obtain ⟨c, m, rfl, hc⟩ := exists_isAlpha (mem_append_right names (mem_of_isComponent hd))
  have hplain : ∀ x ∈ c :: m, Text.isPlain x = true := fun x hx => by
    simp [Text.isPlain, Char.isAlphanum, halpha x hx]
  have hnot : ∀ x, x ≠ '(' → x ≠ ')' → Text.isPlain x = false → isWritten x = false →
      x ∉ c :: m ++ '(' :: (Component.writeList cs ++ [')']) := by
    intro x hopen hclose hno hunwritten hmem
    rcases mem_append.mp hmem with hmem | hmem
    · simp [hplain x hmem] at hno
    · rcases mem_cons.mp hmem with hmem | hmem
      · exact hopen hmem
      · rcases mem_append.mp hmem with hmem | hmem
        · simp [isWritten_of_mem_writeList hcs x hmem] at hunwritten
        · exact hclose (mem_singleton.mp hmem)
  rw [hwrite, Cleaning.clean_eq_trim (hnot '!' (by decide) (by decide) (by decide) (by decide))
    (hnot ';' (by decide) (by decide) (by decide) (by decide))]
  exact Text.trim_of_ends (Text.isBlank_of_isPlain (hplain c mem_cons_self)) (by decide : Text.isBlank ')' = false)
    (u := c :: m ++ '(' :: Component.writeList cs) (by simp)

end Color

/-! ## Parts of a border read again

  The three parts together: which value is set by a side for what was found in the border.
-/

/-- Of `w` the same is read as of `v`, but for white space: that behind the part is gone, and that among the
    arguments of a component is joined, of which there is none to join if what the component is written as is read
    as the component again. -/
structure ReadAs (v w : Text) : Prop where
  parse_eq : Component.parse w = Component.tidy (Component.parse v)
  joined_eq : ∀ c ∈ Component.parse v, Component.parse c.write = [c] → c.joinArguments = c

/-- A value that is one part and no keyword for every property, and the text `w` that the rule of the four sides
    sets of it: it begins with what no cleaning takes away, and the same is read of it again. -/
structure SetAs (v w : Text) : Prop extends ReadAs v w where
  split_eq : Component.split v = [w]
  keyword : cssWideKeyword? v = none
  startsKept : Cleaning.StartsKept w
  clean_eq : (Cleaning.clean w).1 = w

namespace ReadAs

open Component (IsLeaf parse)

variable {v w : Text}

/-- Of components that hold no others, and no white space among them, nothing is gone. -/
theorem of_forall (h : ∀ c ∈ parse v, IsLeaf c ∧ c.isWhitespace = false) (hparse : parse w = parse v) :
    ReadAs v w where
  parse_eq := hparse.trans (Component.tidy_of_forall h).symm
  joined_eq c hc _ := (h c hc).1.joinArguments_eq

/-- If each component is read again of what it is written as, only white space behind the part is gone. -/
theorem parse_eq_rdropWhile (h : ReadAs v w) (hagain : ∀ c ∈ parse v, parse c.write = [c]) :
    parse w = (parse v).rdropWhile Component.isWhitespace :=
  h.parse_eq.trans (Component.tidy_eq_rdropWhile fun c hc => h.joined_eq c hc (hagain c hc))

end ReadAs

namespace Component

/-- What holds no others, and no white space, is written as one part. -/
theorem split_of_isLeaf {v : Text} (h : ∀ c ∈ parse v, IsLeaf c ∧ c.isWhitespace = false) (hne : parse v ≠ []) :
    split v = [writeList (parse v)] := by
  rw [split, groups_of_forall (fun c hc => (h c hc).2) hne]
  rfl

/-- Several components are no keyword. -/
theorem cssWideKeyword?_of_two_le {v : Text} (h : ∀ c ∈ parse v, c.isSeparator = false)
    (hlength : 2 ≤ (parse v).length) : cssWideKeyword? v = none := by
  have hsignificant : significant (parse v) = parse v := filter_eq_self.mpr fun c hc => by simp [h c hc]
  by_contra hsome
  obtain ⟨k, hk⟩ := Option.ne_none_iff_exists'.mp hsome
  have hsole := (cssWideKeyword?_eq_some_iff.mp hk).1
  rw [hsignificant] at hsole
  match hparse : parse v, hsole with
  | [c], _ => simp [hparse] at hlength

/-- A value that is written as it stands is set as it stands. -/
theorem setAs_of_writeList_eq {v : Text} (h : ∀ c ∈ parse v, IsLeaf c ∧ c.isWhitespace = false)
    (hne : parse v ≠ []) (hwrite : writeList (parse v) = v) (hkeyword : cssWideKeyword? v = none)
    (hkept : Cleaning.StartsKept v) (hclean : (Cleaning.clean v).1 = v) : SetAs v v where
  toReadAs := .of_forall h rfl
  split_eq := by rw [split_of_isLeaf h hne, hwrite]
  keyword := hkeyword
  startsKept := hkept
  clean_eq := hclean

/-- A word is read as an identifier, and is written as it stands. -/
theorem setAs_of_word {v : Text} (hne : v ≠ []) (hstart : ∀ c ∈ v, Name.isStart c = true)
    (hplain : ∀ c ∈ v, Text.isPlain c = true) (hwide : Text.toString (Text.lower v) ∉ cssWideKeywords) :
    SetAs v v := by
  obtain ⟨c, t, rfl⟩ := exists_cons_of_ne_nil hne
  have hchars : ∀ d ∈ c :: t, Name.isChar d = true := fun d hd => by simp [Name.isChar, hstart d hd]
  have hlexemes := Lexeme.lexemes_ident (z := []) hchars
    (Lexeme.startsIdentifier_of_isStart (hstart c mem_cons_self) _) rfl (by simp)
  rw [append_nil, Lexeme.lexemes_nil] at hlexemes
  have hparse : parse (c :: t) = [.ident (c :: t)] :=
    parse_of_leaves (Lexeme.normal_of_plain hplain) (forall_mem_singleton.mpr rfl) hlexemes
  have hwrite : writeList (parse (c :: t)) = c :: t := by
    rw [hparse]
    exact Name.writeIdentifier_of_isStart (hstart c mem_cons_self) fun d hd => hchars d (mem_cons_of_mem _ hd)
  have hall : ∀ d ∈ parse (c :: t), IsLeaf d ∧ d.isWhitespace = false := by
    rw [hparse]
    exact forall_mem_singleton.mpr ⟨rfl, rfl⟩
  have hne : parse (c :: t) ≠ [] := by simp [hparse]
  exact setAs_of_writeList_eq hall hne hwrite
    (cssWideKeyword?_eq_none (by rw [split_of_isLeaf hall hne, hwrite]) hwide)
    (Text.startsKept_of_isPlain (hplain c mem_cons_self) t) (by rw [Text.clean_of_plain hplain])

/-- A hash sign with characters of names is read as a hash. -/
theorem parse_hash {v : Text} (hne : v ≠ []) (hchars : ∀ c ∈ v, Name.isChar c = true)
    (hplain : ∀ c ∈ v, Text.isPlain c = true) : parse ('#' :: v) = [.hash v (Name.startsIdentifier v)] := by
  obtain ⟨c, t, rfl⟩ := exists_cons_of_ne_nil hne
  have hlexemes := Lexeme.lexemes_hash (z := []) hchars rfl
  rw [append_nil, Lexeme.lexemes_nil] at hlexemes
  refine parse_of_leaves ?_ (forall_mem_singleton.mpr rfl) hlexemes
  exact (Lexeme.normal_append (t := ['#'])).mpr ⟨by decide, Lexeme.normal_of_plain hplain⟩

/-- A hash with hexadecimal digits is written as it stands. -/
theorem write_hash {v : Text} (hhex : ∀ c ∈ v, Name.isHexDigit c = true) :
    (hash v (Name.startsIdentifier v)).write = '#' :: v := by
  have hchars : ∀ c ∈ v, Name.isChar c = true := fun c hc => Name.isChar_of_isHexDigit (hhex c hc)
  cases hstarts : Name.startsIdentifier v with
  | false =>
    rw [write, if_neg Bool.false_ne_true]
    exact congrArg ('#' :: ·) (Name.write_of_isChar hchars)
  | true =>
    cases v with
    | nil => exact Bool.noConfusion hstarts
    | cons c t =>
      have hne : ∀ e, Name.isHexDigit e = false → c ≠ e := by
        rintro e he rfl
        simp [hhex _ mem_cons_self] at he
      have hstart := Name.isStart_of_startsIdentifier hstarts (hne '-' (by decide)) (hne '\\' (by decide))
      have hident := Name.writeIdentifier_of_isStart hstart fun d hd => hchars d (mem_cons_of_mem _ hd)
      rw [write, if_pos rfl, hident]

end Component

/-- **A length is set so that the same is read again.** -/
theorem Pattern.exists_setAs_of_length {v : Text} (h : Matches .length v) : ∃ w, SetAs v w := by
  have hplain := h.forall_mem usesPlain_length
  obtain ⟨x, hx, -⟩ := exists_isDigit_of_matches_length h
  have hne : v ≠ [] := ne_nil_of_mem hx
  obtain ⟨hsolid, hparse⟩ := Component.parse_of_plain hplain hne
  have hall : ∀ c ∈ Component.parse v, c.IsLeaf ∧ c.isWhitespace = false := fun c hc =>
    ⟨(hsolid c hc).isLeaf, (hsolid c hc).not_whitespace⟩
  have hsplit := Component.split_of_isLeaf hall hparse
  obtain ⟨w, hw, hkept⟩ := Component.split_of_plain hplain hne
  obtain rfl : Component.writeList (Component.parse v) = w := singleton_inj.mp (hsplit.symm.trans hw)
  rcases isRewritten_of_length h with hwrite | ⟨hlength, hread, hchars⟩
  · rw [hwrite] at hkept hsplit
    have hfits : Part.width.Fits v := ⟨.left h, rfl, hsplit⟩
    exact ⟨v, Component.setAs_of_writeList_eq hall hparse hwrite
      (cssWideKeyword?_eq_none hsplit hfits.width_not_cssWide) hkept (by rw [Text.clean_of_plain hplain])⟩
  · -- What is written besides the text are comments, of which no cleaning takes anything away.
    refine ⟨_, .of_forall hall hread, hsplit, ?_, hkept, ?_⟩
    · refine Component.cssWideKeyword?_of_two_le (fun c hc => ?_) hlength
      have hcomment := (hsolid c hc).not_comment
      have hblank := (hsolid c hc).not_whitespace
      cases c <;> first | rfl | contradiction
    · have hcases : ∀ c ∈ Component.writeList (Component.parse v), Text.isPlain c = true ∨ c = '/' ∨ c = '*' :=
        fun c hc => (hchars c hc).imp_left (hplain c)
      rw [Cleaning.clean_eq_trim (fun hm => absurd (hcases _ hm) (by decide))
        fun hm => absurd (hcases _ hm) (by decide)]
      refine Text.trim_of_forall fun c hc => ?_
      rcases hcases c hc with hc | rfl | rfl
      · exact Text.isBlank_of_isPlain hc
      · decide
      · decide

namespace Color

/-- A call that makes a color begins with its function, and nothing but white space stands behind that. -/
theorem exists_function {name v : Text} (hne : name ≠ [])
    (hname : ∀ c ∈ name, Text.isPlain c = true ∧ Name.isChar c = true) (h : isColor (name ++ '(' :: v) = true) :
    ∃ cs ws, Component.parse (name ++ '(' :: v) = .function name cs :: ws ∧
      (∀ w ∈ ws, w.isWhitespace = true) ∧ isComponent (.function name cs) = true ∧
      Component.significant (Component.parse (name ++ '(' :: v)) = [.function name cs] ∧
      Component.Faultless (Component.parse (name ++ '(' :: v)) := by
  obtain ⟨hcalls, hpasses⟩ := passes_of_isColor hne hname h
  obtain ⟨cs, ws, hparse, hws⟩ := Component.exists_function_of_laid (lexemes_call hname hcalls v)
    (Lexeme.laid_of_passes (Lexeme.normal_normalize v) ((Spot.passes_normalize _ v).mpr hpasses))
  obtain ⟨d, front, back, hd, hsole, hall, hfront, -, hfault⟩ := exists_parse h
  rw [hparse] at hall
  cases front with
  | nil =>
    obtain rfl : Component.function name cs = d := (cons.inj hall).1
    exact ⟨cs, ws, hparse, hws, hd, hsole, hfault⟩
  | cons f front =>
    have hblank := hfront f mem_cons_self
    rw [← (cons.inj hall).1] at hblank
    contradiction

/-- **A color that is cleaned is set so that the same is read again**, but for white space. -/
theorem exists_setAs {u : Text} (hu : Pattern.Matches .colorLike u) (hcolor : isColor u = true) :
    ∃ w, SetAs (Cleaning.clean u).1 w := by
  have hclean := parse_clean hu hcolor
  have hkeyword : cssWideKeyword? (Cleaning.clean u).1 = none :=
    Color.cssWideKeyword?_eq_none (by rwa [isColor, hclean])
  rcases Pattern.cases_of_matches_colorLike hu with ⟨name, inside, rfl, hne, hname⟩ |
    ⟨digits, rfl, hdigits, hne, hchars⟩ | ⟨hne, hall⟩
  · obtain ⟨cs, ws, hparse, hws, hd, hsole, hfault⟩ := exists_function hne hname hcolor
    have happend : Component.parse (name ++ '(' :: (inside ++ [')'])) = [] ++ [.function name cs] ++ ws := hparse
    have hcs := isArgument_of_mem hd happend hfault
    have hwrite := parse_write hd hcs (isRead_of_mem hd happend hfault)
    refine ⟨(Component.function name cs).write, ⟨?_, fun c hc hagain => ?_⟩, ?_, hkeyword, startsKept_write hd,
      clean_write hd hcs⟩
    · rw [hclean, hparse, Component.tidy_function hws, hwrite]
    · rw [hclean, hparse] at hc
      rcases mem_cons.mp hc with rfl | hc
      · exact singleton_inj.mp (hwrite.symm.trans hagain)
      · have hblank := hws c hc
        cases c <;> first | rfl | contradiction
    · rw [Component.split, hclean, Component.groups_of_significant Component.isComment_of_mem_parse hsole]
      rfl
  · have hstay := clean_of_forall hu fun c hc => (mem_cons.mp hc).imp_right (hdigits c)
    have hparse := Component.parse_hash hne hchars hdigits
    have hhex : ∀ c ∈ digits, Name.isHexDigit c = true := by
      have hd : isComponent (.hash digits (Name.startsIdentifier digits)) = true := by
        simpa [isColor, hparse, Component.significant, Component.isSeparator] using hcolor
      simp only [isComponent, Bool.and_eq_true, all_eq_true] at hd
      exact hd.2
    -- A hash of a color has digits only, which are written without escapes.
    rw [hstay] at hkeyword ⊢
    refine ⟨_, Component.setAs_of_writeList_eq ?_ (by simp [hparse]) ?_ hkeyword
      ⟨'#', digits, rfl, by decide⟩ hstay⟩
    · rw [hparse]
      exact forall_mem_singleton.mpr ⟨rfl, rfl⟩
    · rw [hparse]
      exact Component.write_hash hhex
  · have hname := mem_names_of_isColor hne hall hcolor
    have halpha := Text.isAlpha_of_lower rfl (all_isAlpha _ (mem_append_left _ hname))
    have hapart : ∀ k ∈ names, k ∉ cssWideKeywords := by decide +kernel
    rw [clean_of_forall hu fun c hc => Or.inr (hall c hc).1]
    exact ⟨_, Component.setAs_of_word hne (fun c hc => by simp [Name.isStart, halpha c hc])
      (fun c hc => (hall c hc).1) (hapart _ hname)⟩

end Color

/-- **A part of a border that is cleaned is set so that the same is read again**, but for white space. -/
theorem Slices.exists_setAs {p : Part} (hp : p ∈ Part.border) {value text : Text} (h : Found p value text)
    (hne : text ≠ []) : ∃ w, SetAs (Cleaning.clean text).1 w := by
  obtain ⟨⟨u, hu, rfl⟩, haccepts, -⟩ := h
  simp only [Part.border, mem_cons, not_mem_nil, or_false] at hp
  have hkeyword : ∀ {ks : List String} {u : Text}, u ≠ [] →
      (∀ k ∈ ks, (k.toList.all fun f => 'a' ≤ Text.foldCase f && Text.foldCase f ≤ 'z') = true) →
      Pattern.UsesPlain (.keyword ks) → (∀ k ∈ ks, ∀ k' ∈ cssWideKeywords,
        (Text.ofString k).map Text.foldCase ≠ (Text.ofString k').map Text.foldCase) →
      Pattern.Matches (.keyword ks) u → ∃ w, SetAs (Cleaning.clean u).1 w := by
    intro ks u hne hletters huses hapart hmatch
    have hplain := hmatch.forall_mem huses
    rw [Text.clean_of_plain hplain]
    exact ⟨u, Component.setAs_of_word hne (Pattern.isStart_of_matches_keyword hletters hmatch) hplain
      (Pattern.lower_not_mem_of_matches hapart hmatch)⟩
  -- A width is a length or a keyword, then come the color and the style.
  rcases hp with rfl | rfl | rfl
  · cases hu with
    | left hlength =>
      obtain ⟨w, hw⟩ := Pattern.exists_setAs_of_length hlength
      refine ⟨w, ?_⟩
      have hclean := Text.clean_of_plain (hlength.forall_mem Pattern.usesPlain_length)
      show SetAs (Cleaning.clean u).1 w
      rwa [hclean]
    | right hmatch =>
      exact hkeyword hne (by decide) (Pattern.usesPlain_keyword (by decide +kernel)) (by decide) hmatch
  · exact Color.exists_setAs hu (by simpa [Part.accepts, Part.color] using haccepts)
  · exact hkeyword hne (by decide) (Pattern.usesPlain_keyword (by decide +kernel)) (by decide) hu

end CssShorthand
