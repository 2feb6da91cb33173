/-
  MARKS IN VALUES AND IN TEXTS.

  A mark of importance is looked for twice: among the components at the end of a value (`takeMark`), and
  wherever it stands in the text of the value, when this is cleaned.  What the first finds the second
  finds as well (`not_stays_of_complete`).

  The two searches differ: the first is on components, where a mark inside of a string or behind an escape
  is none, the second on characters. That one of them finds what the other does is needed for values that
  end in a mark, since their text is cleaned after their components were looked at.
-/
import CssShorthand.Block
import CssShorthand.Proofs.Component.Whole

namespace CssShorthand

open List

namespace Component

variable {cs seps : List Component}

/-! ## White space as it is written

  White space between components is written as it is, and comments in a value are gone.
-/

/-- White space as it is read. -/
def IsBlank (c : Component) : Prop := ∃ t, c = .whitespace t ∧ ∀ x ∈ t, Text.isCssBlank x = true

/-- Nothing needs to be put behind white space. -/
theorem between_whitespace_left (t : Text) (d : Component) : between (.whitespace t) d = [] := by
  simp [between, Joint.of, Joint.clash, isDelimiter]

/-- Before white space only a newline is written, behind a backslash. -/
theorem between_whitespace_right (c : Component) (t : Text) :
    between c (.whitespace t) = [] ∨ between c (.whitespace t) = ['\n'] := by
  unfold between
  split
  · rename_i h
    simp [Joint.of, Joint.clash] at h
  · split
    · exact Or.inr rfl
    · exact Or.inl rfl

/-- White space is written as it is. -/
theorem writeList_whitespace (t : Text) (cs : List Component) :
    writeList (.whitespace t :: cs) = t ++ writeList cs := by
  cases cs with
  | nil => simp [writeList, write]
  | cons d ds => simp [writeList, write, between_whitespace_left]

/-- A bang is written as it is. -/
theorem writeList_bang (cs : List Component) :
    writeList (.literal ['!'] :: cs) = '!' :: writeList cs := by
  cases cs with
  | nil => rfl
  | cons d ds => simp [writeList, write, between, Joint.of, Joint.clash, isDelimiter]

/-- White space is written as blanks, whatever follows. -/
theorem exists_writeList_append (h : ∀ c ∈ seps, IsBlank c) :
    ∃ blanks : Text, (∀ x ∈ blanks, Text.isCssBlank x = true) ∧
      ∀ cs, writeList (seps ++ cs) = blanks ++ writeList cs := by
  induction seps with
  | nil => exact ⟨[], by simp, fun cs => rfl⟩
  | cons c seps ih =>
    obtain ⟨t, rfl, ht⟩ := h c mem_cons_self
    obtain ⟨blanks, hblanks, hwrite⟩ := ih fun d hd => h d (mem_cons_of_mem _ hd)
    refine ⟨t ++ blanks, forall_mem_append.mpr ⟨ht, hblanks⟩, fun cs => ?_⟩
    rw [cons_append, writeList_whitespace, hwrite, append_assoc]

/-- A name of letters is written as it is before white space, and this as blanks. -/
theorem exists_writeList_ident {name : Text} (hname : ∀ c ∈ name, c.isAlpha = true)
    (h : ∀ c ∈ seps, IsBlank c) :
    ∃ blanks : Text, (∀ x ∈ blanks, Text.isCssBlank x = true) ∧
      writeList (.ident name :: seps) = name ++ blanks := by
  obtain ⟨blanks, hblanks, hwrite⟩ := exists_writeList_append h
  have hseps := hwrite []
  rw [append_nil] at hseps
  refine ⟨blanks, hblanks, ?_⟩
  cases seps with
  | nil =>
    obtain rfl : blanks = [] := by simpa [writeList] using hseps.symm
    simp [writeList, write, Name.writeIdentifier_of_isAlpha hname]
  | cons c seps =>
    obtain ⟨t, rfl, -⟩ := h c mem_cons_self
    simp only [writeList] at hseps
    simp [writeList, write, Name.writeIdentifier_of_isAlpha hname, hseps, between, Joint.of,
      Joint.clash, isDelimiter]

/-- White space behind components is written as blanks, whatever follows. -/
theorem exists_writeList_concat (hcs : cs ≠ []) (t : Text) :
    ∃ blanks : Text, (∀ x ∈ blanks, Text.isCssBlank x = true) ∧
      ∀ ds, writeList (cs ++ .whitespace t :: ds) = writeList cs ++ (blanks ++ (t ++ writeList ds)) := by
  induction cs with
  | nil => contradiction
  | cons c cs ih =>
    cases cs with
    | nil =>
      refine ⟨between c (.whitespace t), ?_, fun ds => ?_⟩
      · rcases between_whitespace_right c t with h | h <;> simp [h, Text.isCssBlank]
      · rw [← writeList_whitespace]
        simp [writeList]
    | cons d cs =>
      obtain ⟨blanks, hblanks, hwrite⟩ := ih (by simp)
      refine ⟨blanks, hblanks, fun ds => ?_⟩
      have hrest := hwrite ds
      simp only [cons_append, writeList] at hrest ⊢
      rw [hrest]
      simp

/-- The lexemes of a component are among those of the list. -/
theorem flat_subset_flatList {c : Component} (h : c ∈ cs) : flat c ⊆ flatList cs := by
  induction cs with
  | nil => contradiction
  | cons d cs ih =>
    rcases mem_cons.mp h with rfl | h
    · exact fun l hl => mem_append_left _ hl
    · exact fun l hl => mem_append_right _ (ih h hl)

/-- What separates the components of a whole value is white space. -/
theorem Whole.isBlank_of_isSeparator {v : Text} (h : Whole v) {c : Component} (hc : c ∈ parse v)
    (hsep : c.isSeparator = true) : IsBlank c := by
  have hformed : ∀ l ∈ flat c, Lexeme.Formed l := fun l hl =>
    formed_of_mem_flatList_parse h.faultless l (flat_subset_flatList hc hl)
  cases c with
  | whitespace t => exact ⟨t, rfl, (hformed _ mem_cons_self).2.2⟩
  | comment t => exact (hformed _ mem_cons_self).2.elim
  | _ => contradiction

/-- What is written at the end does not depend on what is before it. -/
theorem writeList_suffix (cs ds : List Component) : writeList ds <:+ writeList (cs ++ ds) := by
  induction cs with
  | nil => exact suffix_refl _
  | cons c cs ih =>
    refine ih.trans ?_
    rw [cons_append]
    cases cs ++ ds with
    | nil => exact nil_suffix
    | cons d ds => exact suffix_append _ _

end Component

namespace Block

open Component (IsBlank writeList)

variable {cs : List Component} {start : Nat}

/-! ## Marks among components

  The program reads the components once, from the front, and keeps what it has seen of a mark; the lemmas
  say which components lead to each state.
-/

/-- How far a mark is read at the end of components. -/
def marking (cs : List Component) : Mark := cs.zipIdx.foldl Mark.step .absent

/-- The mark is cut off where its reading started. -/
theorem takeMark_eq (cs : List Component) :
    takeMark cs = match marking cs with
      | .complete start => (cs.take start, true)
      | _ => (cs, false) := rfl

/-- Reading one component more is one step of the marking. -/
theorem marking_concat (cs : List Component) (c : Component) :
    marking (cs ++ [c]) = (marking cs).step (c, cs.length) := by
  simp [marking, zipIdx_append]

/-- A marking that has seen a bang has seen nothing but separators since. By induction on the components from
    the end, where each step reads one. -/
theorem exists_of_bang (h : marking cs = .bang start) :
    ∃ front seps, cs = front ++ .literal ['!'] :: seps ∧ ∀ c ∈ seps, c.isSeparator = true := by
  -- From the end: the last component either opens the mark or separates what follows it.
  induction cs using reverseRecOn generalizing start with
  | nil => simp [marking] at h
  | append_singleton cs c ih =>
    rw [marking_concat] at h
    cases hcs : marking cs with
    | absent =>
      simp only [hcs, Mark.step] at h
      split at h
      · rename_i hbang
        obtain rfl : c = .literal ['!'] := by
          cases c <;> simp_all [Component.isDelimiter]
        exact ⟨cs, [], rfl, by simp⟩
      · contradiction
    | bang first =>
      obtain ⟨front, seps, rfl, hseps⟩ := ih hcs
      simp only [hcs, Mark.step] at h
      split at h
      · contradiction
      · split at h
        · rename_i hsep
          refine ⟨front, seps ++ [c], by simp, ?_⟩
          simpa [or_imp, forall_and] using ⟨hseps, hsep⟩
        · contradiction
    | complete first =>
      simp only [hcs, Mark.step] at h
      split at h <;> contradiction

/-- **Where a mark is complete**, an exclamation mark stands before its word, with separators between
    and behind. -/
theorem exists_of_complete (h : marking cs = .complete start) :
    ∃ front seps word back, cs = front ++ .literal ['!'] :: (seps ++ word :: back) ∧
      (∀ c ∈ seps, c.isSeparator = true) ∧ word.keyword? = some "important" ∧
      ∀ c ∈ back, c.isSeparator = true := by
  -- The mark is read from the front, so each step is about the last component.
  induction cs using reverseRecOn generalizing start with
  | nil => simp [marking] at h
  | append_singleton cs c ih =>
    rw [marking_concat] at h
    cases hcs : marking cs with
    | absent =>
      simp only [hcs, Mark.step] at h
      split at h <;> contradiction
    | bang first =>
      -- exists_of_bang hcs := The word completes the mark only if nothing but separators came since the bang.
      obtain ⟨front, seps, rfl, hseps⟩ := exists_of_bang hcs
      simp only [hcs, Mark.step] at h
      split at h
      · rename_i hword
        exact ⟨front, seps, c, [], by simp, hseps, hword, by simp⟩
      · split at h <;> contradiction
    | complete first =>
      obtain ⟨front, seps, word, back, rfl, hseps, hword, hback⟩ := ih hcs
      simp only [hcs, Mark.step] at h
      split at h
      · rename_i hsep
        refine ⟨front, seps, word, back ++ [c], by simp, hseps, hword, ?_⟩
        simpa [or_imp, forall_and] using ⟨hback, hsep⟩
      · contradiction

/-! ## Marks in texts

  The mark among components is written as a bang, blanks and the word, in any case, and this is a mark of
  the text.
-/

/-- A text that is folded to the word of a mark begins with a letter of it, not with a blank. -/
theorem trimStart_of_markWord {name : Text}
    (hfold : Cleaning.markWord.map Text.foldCase = name.map Text.foldCase) (t : Text) :
    Text.trimStart (name ++ t) = name ++ t := by
  cases name with
  | nil => contradiction
  | cons c name =>
    refine Text.trimStart_of_head ?_
    by_contra hc
    refine Cleaning.foldCase_not_mem_markWord (Or.inl (by simpa using hc)) ?_
    rw [hfold]
    exact mem_cons_self

/-- White space is not the rest of a word. -/
theorem startsInWord_of_isCssBlank {t : Text} (h : ∀ x ∈ t, Text.isCssBlank x = true) :
    Text.startsInWord t = false := by
  cases t with
  | nil => rfl
  | cons c t =>
    have hc := h c mem_cons_self
    simp only [Text.isCssBlank, Bool.or_eq_true, beq_iff_eq] at hc
    rcases hc with (rfl | rfl) | rfl <;> rfl

/-- A mark is cleaned away in whatever case its word is written, and with blanks before the word. -/
theorem afterMark?_of_markWord {blanks name ends : Text}
    (hblanks : ∀ x ∈ blanks, Text.isCssBlank x = true)
    (hfold : Cleaning.markWord.map Text.foldCase = name.map Text.foldCase)
    (hends : ∀ x ∈ ends, Text.isCssBlank x = true) :
    Cleaning.afterMark? ('!' :: (blanks ++ (name ++ ends))) = some (Text.trimStart ends) := by
  have hstart : Text.trimStart (blanks ++ (name ++ ends)) = name ++ ends := by
    rw [Text.trimStart,
      dropWhile_append_of_pos fun x hx => Text.isBlank_of_isCssBlank (hblanks x hx)]
    exact trimStart_of_markWord hfold ends
  rw [Cleaning.afterMark?, Text.trimStart_of_head (by decide)]
  simp only [hstart, Text.dropFolded?_append hfold, startsInWord_of_isCssBlank hends]
  rfl

/-- The text of a mark is one that is cleaned away. -/
theorem exists_afterMark? {seps back : List Component} {word : Component}
    (hseps : ∀ c ∈ seps, IsBlank c) (hword : word.keyword? = some "important")
    (hback : ∀ c ∈ back, IsBlank c) :
    ∃ r, Cleaning.afterMark? (writeList (.literal ['!'] :: (seps ++ word :: back))) = some r := by
  obtain ⟨blanks, hblanks, hwrite⟩ := Component.exists_writeList_append hseps
  obtain ⟨name, rfl, hname⟩ :
      ∃ name, word = .ident name ∧ Text.toString (Text.lower name) = "important" := by
    cases word with
    | ident name => exact ⟨name, rfl, Option.some.inj hword⟩
    | _ => contradiction
  obtain ⟨ends, hends, hwriteName⟩ :=
    Component.exists_writeList_ident (Text.isAlpha_of_lower hname (by decide)) hback
  have hfold : Cleaning.markWord.map Text.foldCase = name.map Text.foldCase := by
    have hlower : (Text.toString (Text.lower name)).toList = Cleaning.markWord :=
      congrArg String.toList hname
    rw [Text.toString, String.toList_ofList] at hlower
    rw [← hlower, Text.map_foldCase_lower]
  refine ⟨Text.trimStart ends, ?_⟩
  rw [Component.writeList_bang, hwrite, hwriteName]
  exact afterMark?_of_markWord hblanks hfold hends

/-- **A mark at the end of a value stands in its text**, and is cleaned away. -/
theorem not_stays_of_complete {v : Text} (h : Component.Whole v) {front : List Component}
    (hfront : ∀ c ∈ front, IsBlank c)
    (hcomplete : marking (front ++ Component.parse v) = .complete start) : ¬Cleaning.Stays v := by
  intro hstays
  have hblank : ∀ c ∈ Component.parse v, c.isSeparator = true → IsBlank c := fun c hc =>
    h.isBlank_of_isSeparator hc
  obtain ⟨before, seps, word, back, heq, hseps, hword, hback⟩ := exists_of_complete hcomplete
  -- What is before the value is white space, so the exclamation mark is in the value.
  obtain ⟨before, hparse⟩ : ∃ before,
      Component.parse v = before ++ .literal ['!'] :: (seps ++ word :: back) := by
    rcases append_eq_append_iff.mp heq with ⟨middle, -, hparse⟩ | ⟨middle, hsplit, hrest⟩
    · exact ⟨middle, hparse⟩
    · cases middle with
      | nil => exact ⟨[], hrest.symm⟩
      | cons c middle =>
        obtain ⟨t, ht, -⟩ := hfront c (by simp [hsplit])
        rw [ht] at hrest
        cases (List.cons.inj hrest).1
  obtain ⟨r, hr⟩ := exists_afterMark? (fun c hc => hblank c (by simp [hparse, hc]) (hseps c hc)) hword
    fun c hc => hblank c (by simp [hparse, hc]) (hback c hc)
  have hsuffix := Component.writeList_suffix before (.literal ['!'] :: (seps ++ word :: back))
  rw [← hparse, h.writeList_eq] at hsuffix
  rw [hstays.no_mark _ hsuffix] at hr
  contradiction

end Block

end CssShorthand
