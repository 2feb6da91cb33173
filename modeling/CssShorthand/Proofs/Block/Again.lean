/-
  A STORE THAT IS WRITTEN AND READ AGAIN.

  A store is written as a block: each name as it stands, each value as it is kept, and a mark where it
  is important.  What is read of this block is found in three steps.

  1. The text is scanned into the components of the entries (`parse_join`), if their names need no
     escapes and their values are whole.
  2. The components of an entry are read as one declaration (`map_itemsOf`), if nothing in its value
     ends it before its semicolon.
  3. The declaration declares the value again (`Lasting.declarationOfText?_again`): its mark is either
     taken off the components, or cleaned from the text of the value.

  `Lasting` is what these steps ask of an entry, `parse_text` says it of a store, and `parse_text_parse`
  of the store of a block.  `not_parse_text_parse` has a block whose name needs an escape.
-/
import CssShorthand.Proofs.Block.Mark
import CssShorthand.Proofs.Block.Stored
import CssShorthand.Proofs.Cascade.Spread

namespace CssShorthand

open List

namespace Block

open Component (flatList)
open Lexeme (lexemes)

/-- What is asked of an entry: its name needs no escape, and its value is written as it is read and
    stays when it is cleaned.  No semicolon ends the value, and a block in braces is all of it and is
    not written as important. -/
structure Lasting (force : Bool) (e : String × Declaration) : Prop where
  name_ne_nil : Text.ofString e.1 ≠ []
  name_eq : Name.writeIdentifier (Text.ofString e.1) = Text.ofString e.1
  whole : Component.Whole e.2.value
  stays : Cleaning.Stays e.2.value
  isSemicolon : ∀ c ∈ Component.parse e.2.value, c.isSemicolon = false
  isBraceBlock : ∀ c ∈ Component.parse e.2.value, c.isBraceBlock = true →
    (Component.parse e.2.value).length = 1 ∧ (force || e.2.important) = false

/-- The space that is written behind a colon, before a mark and between entries. -/
def gap : Component := .whitespace [' ']

/-- The components of the mark, if it is written. -/
def markOf (important : Bool) : List Component :=
  if important then [gap, .literal ['!'], .ident Cleaning.markWord] else []

/-- The components of an entry behind its colon. -/
def body (force : Bool) (e : String × Declaration) : List Component :=
  gap :: (Component.parse e.2.value ++ markOf (force || e.2.important))

/-- The components of an entry as it is written. -/
def components (force : Bool) (e : String × Declaration) : List Component :=
  .ident (Text.ofString e.1) :: .literal [':'] :: (body force e ++ [.literal [';']])

variable {force : Bool} {e : String × Declaration} {es : Entries Declaration}

/-! ## The components of what is written

  From characters to lexemes and to components: each entry ends with a semicolon, at which the reading
  stops, so the entries are read one by one.
-/

/-- The text of an entry is scanned into its components, whatever follows. -/
theorem lexemes_entryText (h : Lasting force e) (htrim : Text.trim e.2.value = e.2.value) (r : Text) :
    lexemes (Store.entryText force e ++ r) = flatList (components force e) ++ lexemes r := by
  obtain ⟨⟨c, t, hv, hc⟩, -⟩ := Text.exists_ends_of_trim htrim h.stays.ne_nil
  have hblank : Text.isCssBlank c = false := by
    by_contra hb
    rw [Text.isBlank_of_isCssBlank (by simpa using hb)] at hc
    contradiction
  -- What follows the value is a space, if a mark is written, and the semicolon otherwise: both stop it.
  have hvalue : lexemes (e.2.value ++
      ((if force || e.2.important then Declaration.mark else []) ++ ';' :: r)) =
        flatList (Component.parse e.2.value ++ markOf (force || e.2.important)) ++
          .leaf (.literal [';']) :: lexemes r := by
    rw [Component.flatList_append, append_assoc]
    cases force || e.2.important with
    | false =>
      show lexemes (e.2.value ++ ';' :: r) = _
      rw [h.whole.lexemes_append htrim .semicolon, Lexeme.lexemes_mark (Or.inr (Or.inl rfl))]
      rfl
    | true =>
      have hmark : Declaration.mark = ' ' :: '!' :: Cleaning.markWord := by decide
      show lexemes (e.2.value ++ (Declaration.mark ++ ';' :: r)) = _
      rw [hmark, cons_append, h.whole.lexemes_append htrim .space, cons_append,
        Component.lexemes_blank (by decide), Lexeme.lexemes_mark (Or.inr (Or.inr rfl)),
        Lexeme.lexemes_name (by decide) (by decide) (Or.inr rfl),
        Lexeme.lexemes_mark (Or.inr (Or.inl rfl))]
      rfl
  have htext : Store.entryText force e ++ r = Text.ofString e.1 ++ ':' :: ' ' :: (e.2.value ++
      ((if force || e.2.important then Declaration.mark else []) ++ ';' :: r)) := by
    simp [Store.entryText]
  have hcomponents : flatList (components force e) = .leaf (.ident (Text.ofString e.1)) ::
      .leaf (.literal [':']) :: .leaf gap ::
        (flatList (Component.parse e.2.value ++ markOf (force || e.2.important)) ++
          [.leaf (.literal [';'])]) := by
    simp [components, body, gap, Component.flatList_append, flatList, Component.flat]
  rw [htext, Lexeme.lexemes_name h.name_eq h.name_ne_nil (Or.inl rfl),
    Lexeme.lexemes_mark (Or.inl rfl), hv, cons_append, Component.lexemes_blank hblank, ← cons_append,
    ← hv, hvalue, hcomponents]
  simp [Lexeme.delimiter, gap]

/-- A name that needs no escape begins with no blank. -/
theorem Lasting.exists_name (h : Lasting force e) :
    ∃ c t, Text.ofString e.1 = c :: t ∧ Text.isCssBlank c = false := by
  obtain ⟨hchars, -⟩ := Name.isChar_of_writeIdentifier_eq h.name_eq h.name_ne_nil
  obtain ⟨c, t, hct⟩ := exists_cons_of_ne_nil h.name_ne_nil
  refine ⟨c, t, hct, ?_⟩
  by_contra hc
  have hchar := hchars c (by simp [hct])
  simp only [Text.isCssBlank, Bool.not_eq_false, Bool.or_eq_true, beq_iff_eq] at hc
  rcases hc with (rfl | rfl) | rfl <;> exact absurd hchar (by decide)

/-- The written block is read declaration by declaration, with the gap between two of them. By induction on
    the declarations: each ends with a semicolon, at which the reading stops. -/
theorem lexemes_join (h : ∀ e ∈ es, Lasting force e ∧ Text.trim e.2.value = e.2.value) :
    lexemes (Text.join [' '] (es.map (Store.entryText force))) =
      flatList (intercalate [gap] (es.map (components force))) := by
  -- The space between two entries is read alone, as the name behind it begins with no blank.
  induction es with
  | nil => exact Lexeme.lexemes_nil
  | cons e es ih =>
    obtain ⟨he, htrim⟩ := h e mem_cons_self
    have hrest := ih fun x hx => h x (mem_cons_of_mem _ hx)
    cases es with
    | nil =>
      have hone := lexemes_entryText he htrim []
      rw [append_nil, Lexeme.lexemes_nil, append_nil] at hone
      simpa [Text.join] using hone
    | cons d es =>
      obtain ⟨c, t, hct, hc⟩ := (h d (by simp)).1.exists_name
      obtain ⟨u, hu⟩ : ∃ u, Text.join [' '] ((d :: es).map (Store.entryText force)) = c :: u := by
        cases es <;> simp [Text.join, intercalate_cons_cons, Store.entryText, hct]
      have hjoin : Text.join [' '] ((e :: d :: es).map (Store.entryText force)) =
          Store.entryText force e ++
            ' ' :: Text.join [' '] ((d :: es).map (Store.entryText force)) := by
        simp [Text.join, intercalate_cons_cons]
      rw [hjoin, lexemes_entryText he htrim, hu, Component.lexemes_blank hc, ← hu, hrest]
      simp [intercalate_cons_cons, Component.flatList_append, flatList, Component.flat, gap]

/-- What is written has no line end that reading would change. -/
theorem Lasting.normal (h : Lasting force e) : Lexeme.Normal (Store.entryText force e) := by
  obtain ⟨hchars, -⟩ := Name.isChar_of_writeIdentifier_eq h.name_eq h.name_ne_nil
  have hnone : ∀ d, Name.isChar d = false → d ∉ Text.ofString e.1 := by
    intro d hd hmem
    rw [hchars d hmem] at hd
    exact Bool.noConfusion hd
  have hname : Lexeme.Normal (Text.ofString e.1) := ⟨hnone _ rfl, hnone _ rfl, hnone _ rfl⟩
  have hmark : Lexeme.Normal (if force || e.2.important then Declaration.mark else []) := by
    split <;> decide
  simp only [Store.entryText, Lexeme.normal_append]
  exact ⟨⟨⟨⟨hname, by decide⟩, h.whole.normal⟩, hmark⟩, by decide⟩

/-- **What is written is read as the components of the entries.** -/
theorem parse_join (h : ∀ e ∈ es, Lasting force e ∧ Text.trim e.2.value = e.2.value) :
    Component.parse (Text.join [' '] (es.map (Store.entryText force))) =
      intercalate [gap] (es.map (components force)) := by
  have hnormal : Lexeme.Normal (Text.join [' '] (es.map (Store.entryText force))) := by
    refine Lexeme.normal_join (by decide) fun t ht => ?_
    obtain ⟨e, he, rfl⟩ := mem_map.mp ht
    exact (h e he).1.normal
  unfold Component.parse Component.parseFound
  rw [Lexeme.normalize_of_normal hnormal]
  exact Nesting.ofLexemes_flat (lexemes_join h)

/-! ## The items of what is written

  From components to declarations: the name, the colon, and everything up to the semicolon. A value with a
  block would make a rule of it.
-/

/-- The declaration that an entry is read as. -/
def again (force : Bool) (e : String × Declaration) : Given :=
  ⟨Text.ofString e.1, (takeMark (body force e)).1, (takeMark (body force e)).2⟩

/-- A body without semicolon and without block is taken to its end, and what is behind it is taken from there.
    -/
theorem takeBody_append {front : List (Found Component)}
    (h : ∀ c ∈ front, c.item.isSemicolon = false ∧ c.item.isBraceBlock = false)
    (back : List (Found Component)) :
    takeBody (front ++ back) = (front.map (·.item) ++ (takeBody back).1, (takeBody back).2) := by
  induction front with
  | nil => rfl
  | cons c front ih =>
    obtain ⟨hend, hblock⟩ := h c mem_cons_self
    rw [cons_append, takeBody, ih fun d hd => h d (mem_cons_of_mem _ hd)]
    simp [hend, hblock]

/-- The value is made of components of the body. -/
theorem content_subset (m : Mark) (cs : List Component) : content m cs ⊆ cs := by
  induction cs generalizing m with
  | nil => exact fun c hc => hc
  | cons d cs ih =>
    intro c hc
    simp only [content] at hc
    split at hc
    · exact mem_cons_of_mem _ (ih _ hc)
    · rcases mem_cons.mp hc with rfl | hc
      · exact mem_cons_self
      · exact mem_cons_of_mem _ (ih _ hc)

/-- The mark of importance holds neither a semicolon nor a block. -/
theorem isBraceBlock_markOf {important : Bool} :
    ∀ c ∈ markOf important, c.isSemicolon = false ∧ c.isBraceBlock = false := by
  cases important <;>
    simp [markOf, gap, Component.isSemicolon, Component.isDelimiter, Component.isBraceBlock]

/-- The body of an entry ends at its semicolon, or it is a block in braces. -/
theorem Lasting.body_cases (h : Lasting force e) :
    (∀ c ∈ body force e, c.isSemicolon = false ∧ c.isBraceBlock = false) ∨
      ∃ c, body force e = [gap, c] ∧ c.isBraceBlock = true := by
  by_cases hblock : ∃ c ∈ Component.parse e.2.value, c.isBraceBlock = true
  · obtain ⟨c, hc, hblock⟩ := hblock
    obtain ⟨hlen, hplain⟩ := h.isBraceBlock c hc hblock
    obtain ⟨d, hparse⟩ := length_eq_one_iff.mp hlen
    obtain rfl : c = d := by simpa [hparse] using hc
    exact Or.inr ⟨c, by simp [body, hparse, hplain, markOf], hblock⟩
  · left
    intro c hc
    rcases mem_cons.mp hc with rfl | hc
    · exact ⟨rfl, rfl⟩
    · rcases mem_append.mp hc with hc | hc
      · exact ⟨h.isSemicolon c hc, by simpa using fun hb => hblock ⟨c, hc, hb⟩⟩
      · exact isBraceBlock_markOf c hc

/-- A declaration that lasts is no rule: no block stands behind its value. -/
theorem Lasting.hasLateBlock_eq_false (h : Lasting force e) :
    hasLateBlock (body force e) = false := by
  rcases h.body_cases with hbody | ⟨c, hbody, hblock⟩
  · refine any_eq_false.mpr fun c hc => ?_
    have hmem := content_subset _ _ ((drop_sublist _ _).subset hc)
    simp [(hbody c hmem).2]
  · rw [hasLateBlock, hbody]
    cases c <;> first | rfl | contradiction

/-- What is read behind the name of an entry is its body, and the entry ends there. -/
theorem Lasting.exists_takeBody (h : Lasting force e) {fs : List (Found Component)}
    {rest : List Component}
    (hfs : fs.map (·.item) = .literal [':'] :: (body force e ++ [.literal [';']]) ++ rest) :
    ∃ back, back.map (·.item) = rest ∧ (takeBody fs).1 = .literal [':'] :: body force e ∧
      itemsOf (takeBody fs).2 = itemsOf back := by
  rw [cons_append, append_assoc, ← cons_append] at hfs
  obtain ⟨front, behind, rfl, hfront, hbehind⟩ := map_eq_append_iff.mp hfs
  obtain ⟨⟨semicolon, s⟩, back, rfl, rfl, hback⟩ := map_eq_cons_iff.mp hbehind
  refine ⟨back, hback, ?_⟩
  have hskip : itemsOf (⟨.literal [';'], s⟩ :: back) = itemsOf back := by
    rw [itemsOf]
    rfl
  rcases h.body_cases with hbody | ⟨c, hbody, hblock⟩
  -- The semicolon ends the body.
  · have hinner : ∀ c ∈ front, c.item.isSemicolon = false ∧ c.item.isBraceBlock = false := by
      intro c hc
      have hmem : c.item ∈ Component.literal [':'] :: body force e := hfront ▸ mem_map_of_mem hc
      rcases mem_cons.mp hmem with hc | hc
      · rw [hc]
        exact ⟨rfl, rfl⟩
      · exact hbody _ hc
    have hend : takeBody (⟨.literal [';'], s⟩ :: back) = ([], back) := rfl
    rw [takeBody_append hinner, hend, hfront]
    exact ⟨append_nil _, rfl⟩
  -- The block ends the body, and the semicolon behind it is skipped.
  · rw [hbody] at hfront ⊢
    obtain ⟨⟨_, s₁⟩, _, rfl, rfl, hbehindColon⟩ := map_eq_cons_iff.mp hfront
    obtain ⟨⟨_, s₂⟩, _, rfl, rfl, hbehindGap⟩ := map_eq_cons_iff.mp hbehindColon
    obtain ⟨⟨d, s₃⟩, _, rfl, rfl, hnone⟩ := map_eq_cons_iff.mp hbehindGap
    obtain rfl := map_eq_nil_iff.mp hnone
    have hend : d.isSemicolon = false := by cases d <;> first | rfl | contradiction
    have htake : takeBody (⟨d, s₃⟩ :: ⟨.literal [';'], s⟩ :: back) =
        ([d], ⟨.literal [';'], s⟩ :: back) := by
      simp [takeBody, hend, hblock]
    have hinner : ∀ c ∈ ([⟨.literal [':'], s₁⟩, ⟨gap, s₂⟩] : List (Found Component)),
        c.item.isSemicolon = false ∧ c.item.isBraceBlock = false := by
      simp [gap, Component.isSemicolon, Component.isDelimiter, Component.isBraceBlock]
    have hfirst := takeBody_append hinner (⟨d, s₃⟩ :: ⟨.literal [';'], s⟩ :: back)
    rw [htake] at hfirst
    simp only [cons_append, nil_append] at hfirst ⊢
    rw [hfirst]
    exact ⟨rfl, hskip⟩

/-- **An entry is read as one declaration**, and what follows it as before. -/
theorem Lasting.exists_itemsOf (h : Lasting force e) {fs : List (Found Component)}
    {rest : List Component} (hfs : fs.map (·.item) = components force e ++ rest) :
    ∃ suffix back, back.map (·.item) = rest ∧ itemsOf fs =
      ⟨.declaration (again force e).name (again force e).value (again force e).important, suffix⟩ ::
        itemsOf back := by
  obtain ⟨⟨name, s⟩, behind, rfl, rfl, hbehind⟩ := map_eq_cons_iff.mp hfs
  obtain ⟨back, hback, hbody, hitems⟩ := h.exists_takeBody hbehind
  have hdeclaration : declaration? (Text.ofString e.1) (takeBody behind).1 =
      some (.declaration (again force e).name (again force e).value (again force e).important) := by
    rw [hbody, declaration?]
    simp [Component.isSeparator, Component.isDelimiter, h.hasLateBlock_eq_false, again]
  have htake : takeItem ⟨.ident (Text.ofString e.1), s⟩ behind =
      (⟨.declaration (again force e).name (again force e).value (again force e).important, s⟩,
        (takeBody behind).2) := by
    simp [takeItem, Component.identName?, hdeclaration]
  refine ⟨s, back, hback, ?_⟩
  rw [itemsOf, htake, ← hitems]
  rfl

/-- **The items of what is written are the declarations of the entries.** -/
theorem map_itemsOf (h : ∀ e ∈ es, Lasting force e) {fs : List (Found Component)}
    (hfs : fs.map (·.item) = intercalate [gap] (es.map (components force))) :
    (itemsOf fs).map (·.item) = es.map fun e =>
      .declaration (again force e).name (again force e).value (again force e).important := by
  -- One declaration at a time: the reading of one ends at its semicolon, so the gap and the rest are read by
  -- themselves.
  induction es generalizing fs with
  | nil =>
    obtain rfl : fs = [] := by simpa using hfs
    rw [itemsOf]
    rfl
  | cons e es ih =>
    have he := h e mem_cons_self
    have hes := fun x hx => h x (mem_cons_of_mem _ hx)
    cases es with
    | nil =>
      have hone : fs.map (·.item) = components force e ++ [] := by simpa using hfs
      obtain ⟨suffix, back, hback, hitems⟩ := he.exists_itemsOf hone
      obtain rfl : back = [] := by simpa using hback
      rw [hitems, itemsOf]
      rfl
    | cons d es =>
      have hsplit : fs.map (·.item) = components force e ++
          gap :: intercalate [gap] ((d :: es).map (components force)) := by
        rw [hfs]
        simp [intercalate_cons_cons]
      obtain ⟨suffix, back, hback, hitems⟩ := he.exists_itemsOf hsplit
      -- The gap between two declarations is white space, which is no item.
      obtain ⟨⟨_, s⟩, behind, rfl, rfl, hbehind⟩ := map_eq_cons_iff.mp hback
      have hskip : itemsOf (⟨gap, s⟩ :: behind) = itemsOf behind := by
        rw [itemsOf]
        rfl
      rw [hitems, hskip, map_cons, ih hes hbehind]
      rfl

/-! ## What the items declare

  From a declaration to what is stored of it: the mark is taken off, and the text of the value is cleaned.
-/

/-- A mark that is written behind components is taken off, or left where it is. -/
theorem takeMark_markOf (cs : List Component) :
    takeMark (cs ++ markOf true) = (cs ++ [gap], true) ∨
      takeMark (cs ++ markOf true) = (cs ++ markOf true, false) := by
  have hmarked : cs ++ markOf true =
      cs ++ [gap] ++ [.literal ['!']] ++ [.ident Cleaning.markWord] := by
    simp [markOf]
  have hword : Text.toString (Text.lower Cleaning.markWord) = "important" := by decide
  have hmarking : marking (cs ++ markOf true) = .complete (cs ++ [gap]).length ∨
      marking (cs ++ markOf true) = .absent := by
    rw [hmarked, marking_concat, marking_concat, marking_concat]
    cases marking cs <;>
      simp [Mark.step, gap, Component.isDelimiter, Component.keyword?, Component.isSeparator, hword]
  -- A mark that is begun or complete at the end of `cs` is broken off by the one behind it.
  rw [takeMark_eq]
  rcases hmarking with hmarking | hmarking
  · left
    rw [hmarking]
    simp only
    rw [hmarked, append_assoc, take_left]
  · right
    rw [hmarking]

/-- A value that is written without a mark is read without one. -/
theorem Lasting.takeMark_body (h : Lasting force e) (hplain : (force || e.2.important) = false) :
    takeMark (body force e) = ([gap] ++ Component.parse e.2.value, false) := by
  have hbody : body force e = [gap] ++ Component.parse e.2.value := by
    simp [body, hplain, markOf]
  rw [hbody, takeMark_eq]
  -- A mark that ended the value would have been cleaned away.
  cases hmark : marking ([gap] ++ Component.parse e.2.value) with
  | complete start =>
    refine absurd h.stays (not_stays_of_complete h.whole (fun c hc => ?_) hmark)
    rw [mem_singleton.mp hc]
    exact ⟨[' '], rfl, forall_mem_singleton.mpr rfl⟩
  | absent => rfl
  | bang start => rfl

/-- The text that is read of a value behind which the components `ds` are left of a mark: the value,
    with blanks behind it, and the text of `ds`. -/
theorem Lasting.exists_text_again (h : Lasting force e) :
    ∃ blanks, (∀ x ∈ blanks, Text.isBlank x = true) ∧ ∀ ds important, takeMark (body force e) =
      ([gap] ++ Component.parse e.2.value ++ gap :: ds, important) →
        (again force e).text = Text.trim (' ' :: (e.2.value ++ (blanks ++ Component.writeList ds))) := by
  have hparse : Component.parse e.2.value ≠ [] := by
    intro hnil
    refine h.stays.ne_nil ?_
    rw [← h.whole.writeList_eq, hnil]
    rfl
  obtain ⟨blanks, hcss, hwrite⟩ := Component.exists_writeList_concat hparse [' ']
  refine ⟨blanks ++ [' '], fun x hx => ?_, fun ds important htake => ?_⟩
  · rcases mem_append.mp hx with hx | hx
    · exact Text.isBlank_of_isCssBlank (hcss x hx)
    · rw [mem_singleton.mp hx]
      rfl
  · show Component.writeTrimmed (takeMark (body force e)).1 = _
    rw [htake]
    show Text.trim (Component.writeList (.whitespace [' '] ::
      (Component.parse e.2.value ++ .whitespace [' '] :: ds))) = _
    rw [Component.writeList_whitespace, hwrite, h.whole.writeList_eq, append_assoc blanks]
    rfl

/-- What is read of a value that is written with a mark, as a text: the value itself, or, if an
    exclamation mark at its end keeps the mark from being read, the value and the mark. -/
theorem Lasting.text_again_of_important (h : Lasting force e)
    (htrim : Text.trim e.2.value = e.2.value) (himportant : (force || e.2.important) = true) :
    (again force e).text = e.2.value ∧ (again force e).important = true ∨
      ∃ blanks, (∀ x ∈ blanks, Text.isBlank x = true) ∧
        (again force e).text = e.2.value ++ (blanks ++ '!' :: Cleaning.markWord) := by
  have hne := h.stays.ne_nil
  obtain ⟨blanks, hblanks, htext⟩ := h.exists_text_again
  have hbody : body force e = ([gap] ++ Component.parse e.2.value) ++ markOf true := by
    simp [body, himportant]
  -- The mark that was written is either taken for the importance, or the value ends in a mark of its own and
  -- the written one stays in the text.
  rcases takeMark_markOf ([gap] ++ Component.parse e.2.value) with htake | htake
  · left
    rw [← hbody] at htake
    refine ⟨?_, congrArg Prod.snd htake⟩
    rw [htext [] true htake]
    exact Text.trim_padded htrim hne (a := [' ']) (forall_mem_singleton.mpr rfl)
      (by simpa [Component.writeList] using hblanks)
  · right
    rw [← hbody] at htake
    refine ⟨blanks, hblanks, ?_⟩
    have hmark : Component.writeList [.literal ['!'], .ident Cleaning.markWord] =
        '!' :: Cleaning.markWord := by
      decide
    rw [htext [.literal ['!'], .ident Cleaning.markWord] false (by rw [htake, hbody]; simp [markOf]),
      hmark]
    exact Text.trim_cons_space (Cleaning.trim_marked htrim hne blanks) (by simp)

/-- **An entry is declared again** by what is read of it. -/
theorem Lasting.declarationOfText?_again (h : Lasting force e)
    (htrim : Text.trim e.2.value = e.2.value) :
    Value.declarationOfText? (again force e).text (again force e).important =
      some ⟨e.2.value, force || e.2.important⟩ := by
  have hstays : ∀ important, Value.declarationOfText? e.2.value important =
      some ⟨e.2.value, important⟩ := fun important =>
    (Cleaning.declarationOfText?_eq_self_iff htrim).mpr h.stays
  cases hflag : force || e.2.important with
  | false =>
    have htake := h.takeMark_body hflag
    have htext : (again force e).text = e.2.value := by
      show Component.writeTrimmed (takeMark (body force e)).1 = _
      rw [htake]
      show Text.trim (Component.writeList (.whitespace [' '] :: Component.parse e.2.value)) = _
      rw [Component.writeList_whitespace, h.whole.writeList_eq]
      exact Text.trim_cons_space htrim h.stays.ne_nil
    have himportant : (again force e).important = false := congrArg Prod.snd htake
    rw [htext, himportant, hstays]
  | true =>
    rcases h.text_again_of_important htrim hflag with ⟨htext, himportant⟩ | ⟨blanks, hblanks, htext⟩
    · rw [htext, himportant, hstays]
    · rw [htext, Cleaning.declarationOfText?_marked htrim h.stays.ne_nil h.stays.no_mark hblanks]

/-! ## The store that is read

  The entries one after the other, into an empty store.
-/

/-- An entry as it is written. -/
def asWritten (force : Bool) (e : String × Declaration) : String × Declaration :=
  (e.1, ⟨e.2.value, force || e.2.important⟩)

/-- Where all items are declarations, nothing is said about them. -/
theorem snd_foldl_declare (whole : Text) {is : List (Found BlockItem)}
    (h : ∀ i ∈ is, (given? i.item).isSome) (r : Store × List Notice) :
    (is.foldl (declare whole) r).2 = r.2 := by
  induction is generalizing r with
  | nil => rfl
  | cons i is ih =>
    rw [foldl_cons, ih fun j hj => h j (mem_cons_of_mem _ hj)]
    have hi := h i mem_cons_self
    obtain ⟨item, suffix⟩ := i
    cases item <;> first | rfl | contradiction

/-- What entries are read as is stored behind what is there, if they are new. -/
theorem entries_foldl_store {s : Store}
    (h : ∀ e ∈ es, Lasting force e ∧ Text.trim e.2.value = e.2.value)
    (hnames : (s.entries.names ++ es.names).Nodup)
    (htrim : ∀ n ∈ es.names, trimName n = n) :
    ((es.map (again force)).foldl Given.store s).entries = s.entries ++ es.map (asWritten force) := by
  -- Every name is new to the store, so each declaration goes to its end.
  induction es generalizing s with
  | nil => simp
  | cons e es ih =>
    obtain ⟨he, hvalue⟩ := h e mem_cons_self
    have hname : trimName (Text.toString (again force e).name) = e.1 := by
      show trimName (Text.toString (Text.ofString e.1)) = _
      rw [Text.toString, Text.ofString, String.ofList_toList]
      exact htrim e.1 mem_cons_self
    have hnew : e.1 ∉ s.entries.names := fun hmem =>
      (nodup_append.mp hnames).2.2 _ hmem _ mem_cons_self rfl
    have hstore : ((again force e).store s).entries = s.entries ++ [asWritten force e] := by
      have hadd : (again force e).store s =
          s.put (Text.toString (again force e).name) ⟨e.2.value, force || e.2.important⟩ := by
        have hvalue : Value.declaration? (.text (again force e).text) (again force e).important =
            some ⟨e.2.value, force || e.2.important⟩ := he.declarationOfText?_again hvalue
        rw [Given.store, Store.add, hvalue]
      rw [hadd]
      show s.entries.put (trimName _) _ = _
      rw [hname, Entries.put_of_not_mem _ hnew]
      rfl
    rw [map_cons, foldl_cons, ih (fun x hx => h x (mem_cons_of_mem _ hx)), hstore]
    · simp
    · rw [hstore, Entries.names_append, append_assoc]
      exact hnames
    · exact fun n hn => htrim n (mem_cons_of_mem _ hn)

/-- **A store whose entries last is read again as it is written**, and nothing is said about it. -/
theorem parse_text {s : Store} (h : ∀ e ∈ s.entries, Lasting force e)
    (htrim : ∀ e ∈ s.entries, Text.trim e.2.value = e.2.value) :
    (parse (s.text force)).1.entries = s.entries.map (asWritten force) ∧
      (parse (s.text force)).2 = [] := by
  have hall : ∀ e ∈ s.entries, Lasting force e ∧ Text.trim e.2.value = e.2.value := fun e he =>
    ⟨h e he, htrim e he⟩
  have hitems : (items (s.text force)).map (·.item) = s.entries.map fun e =>
      .declaration (again force e).name (again force e).value (again force e).important :=
    map_itemsOf h (parse_join hall)
  have hgiven : given (s.text force) = s.entries.map (again force) :=
    calc given (s.text force) = ((items (s.text force)).map (·.item)).filterMap given? := by
          rw [filterMap_map]
          rfl
      _ = s.entries.map (again force) := by
          rw [hitems, filterMap_map]
          exact congrFun filterMap_eq_map _
  constructor
  · rw [store_parse, hgiven, entries_foldl_store hall]
    · rfl
    · exact s.nodup_names
    · exact s.trimName_of_mem
  · -- No item is thrown away, so there is nothing to give notice of.
    refine snd_foldl_declare _ (fun i hi => ?_) _
    have hmem : i.item ∈ (items (s.text force)).map (·.item) := mem_map_of_mem hi
    rw [hitems] at hmem
    obtain ⟨e, -, he⟩ := mem_map.mp hmem
    rw [← he]
    rfl

/-- Stored values are trimmed, so a store that is filled from a block holds trimmed values only. By induction
    on the declarations given. -/
theorem trim_of_get?_foldl_store {gs : List Given} {s : Store}
    (h : ∀ n d, s.get? n = some d → Text.trim d.value = d.value) :
    ∀ n d, (gs.foldl Given.store s).get? n = some d → Text.trim d.value = d.value := by
  induction gs generalizing s with
  | nil => exact h
  | cons g gs ih =>
    refine ih fun n d hd => ?_
    rw [get?_store] at hd
    split at hd
    · unfold Value.declarationOfText? at hd
      dsimp only at hd
      split at hd
      · contradiction
      · rw [← Option.some.inj hd]
        exact Text.trim_idem _
    · exact h n d hd

/-- A block stores trimmed values. -/
theorem trim_of_mem_parse {t : Text} {e : String × Declaration} (he : e ∈ (parse t).1.entries) :
    Text.trim e.2.value = e.2.value := by
  have hget := Store.get?_of_mem he
  rw [store_parse] at hget
  refine trim_of_get?_foldl_store (fun n d hd => ?_) _ _ hget
  simp [Store.get?, Store.empty, Entries.find?] at hd

/-- **A block that is read and written is read as the same store**, in the same order, with the
    importance that is written, and nothing is said about it: if its names need no escapes, and its
    values last. -/
theorem parse_text_parse {t : Text} (h : ∀ e ∈ (parse t).1.entries, Lasting force e) :
    (parse ((parse t).1.text force)).1.entries = (parse t).1.entries.map (asWritten force) ∧
      (parse ((parse t).1.text force)).2 = [] :=
  parse_text h fun _ => trim_of_mem_parse

/-- A name that is declared twice, a string with a semicolon, a block and a mark. -/
def various : Text := "color: red; quotes: 'a;b' f(x); --x: \x7bc: d\x7d; color: #FFF !Important".toList

/-- A quoted semicolon, a call, a block in a custom property and a declaration that comes twice: what was read
    is read again. -/
theorem various_parse_text_parse :
    (∀ e ∈ (parse various).1.entries, Lasting false e) ∧
      (parse ((parse various).1.text false)).1.entries =
        (parse various).1.entries.map (asWritten false) ∧
      (parse ((parse various).1.text false)).2 = [] := by
  have hchecked : ∀ e ∈ (parse various).1.entries, Text.ofString e.1 ≠ [] ∧
      Name.writeIdentifier (Text.ofString e.1) = Text.ofString e.1 ∧
      (∀ l ∈ flatList (Component.parse e.2.value), l.isFault = false) ∧
      Component.writeList (Component.parse e.2.value) = e.2.value ∧
      Value.declarationOfText? e.2.value false = some ⟨e.2.value, false⟩ ∧
      (∀ c ∈ Component.parse e.2.value, c.isSemicolon = false) ∧
      ∀ c ∈ Component.parse e.2.value, c.isBraceBlock = true →
        (Component.parse e.2.value).length = 1 ∧ (false || e.2.important) = false := by
    decide +kernel
  have hlasting : ∀ e ∈ (parse various).1.entries, Lasting false e := by
    intro e he
    obtain ⟨hne, hname, hfault, hwrite, hstays, hsemicolon, hblock⟩ := hchecked e he
    exact ⟨hne, hname, ⟨hfault, hwrite⟩,
      (Cleaning.declarationOfText?_eq_self_iff (trim_of_mem_parse he)).mp hstays, hsemicolon, hblock⟩
  exact ⟨hlasting, parse_text_parse hlasting⟩

/-- A name with a colon. -/
def escaped : Text := "a\\:b: 1".toList

/-- **A store is not always read again as it is written**: a name is written without the escapes that
    it was read with, so its colon ends it. -/
theorem not_parse_text_parse : ¬∀ (t : Text) (force : Bool),
    (parse ((parse t).1.text force)).1.entries = (parse t).1.entries.map (asWritten force) ∧
      (parse ((parse t).1.text force)).2 = [] := by
  intro h
  have hread : (parse escaped).1.entries.map (asWritten false) = [("a:b", ⟨"1".toList, false⟩)] := by
    decide +kernel
  have hagain :
      (parse ((parse escaped).1.text false)).1.entries = [("a", ⟨"b: 1".toList, false⟩)] := by
    decide +kernel
  have heq := (h escaped false).1
  rw [hread, hagain] at heq
  exact absurd heq (by decide)

end Block

end CssShorthand
