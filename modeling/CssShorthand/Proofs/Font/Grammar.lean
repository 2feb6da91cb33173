/-
  THE GRAMMAR OF A FONT VALUE.

  A font value is a list of styles, variants and weights, a size, perhaps a slash and a height of lines,
  and a family (`FontPhrase.Reads`).  The reader does not look for such a way to cut the value: it takes
  what it can, one component after the other, and never goes back.

    1.  The cursor counts: where it has passed so many significant components, it takes the next one or
        stays (`Cursor.Passed.consume`).
    2.  So the fields it takes are the longest run of styles, variants and weights
        (`Cursor.Passed.consumeFields`).  Each field keeps what it is given last
        (`FontValues.get_setAll`).
    3.  No size is a style, a variant or a weight (`FontField.of?_of_isFontSize`), so that a phrase has
        no choice either: its fields are the longest run too (`FontPhrase.Reads.split`).

  The main statement is `FontReading.ofValue_grammar`.
-/
import CssShorthand.Proofs.Component.Outermost
import CssShorthand.Proofs.Font.Reading

namespace CssShorthand

open List

/-! ## What stands behind significant components

  Counting significant components instead of positions, so that white space plays no role but in the family,
  which is written with it.
-/

/-- White space is read of blanks. -/
theorem Lexeme.Reading.isCssBlank_of_whitespace {c x : Char} {t r w : Text} {ls : List Lexeme}
    (h : Reading c t ls r) (hw : .leaf (.whitespace w) ∈ ls) (hx : x ∈ w) : Text.isCssBlank x = true := by
  cases h with
  | blanks h =>
    obtain rfl := Component.whitespace.inj (leaf.inj (mem_singleton.mp hw))
    rcases mem_cons.mp hx with rfl | hx
    · exact h
    · exact takeBlanks_subset t x hx
  | url hr => rcases mem_ofUrl hw with ⟨v, isClosed, h⟩ | ⟨f, h⟩ <;> cases h
  | string h => rcases mem_ofString hw with ⟨v, isClosed, h⟩ | ⟨f, h⟩ <;> cases h
  | symbol hb hs hn =>
    obtain ⟨text, htext, -⟩ := readDelimiter_eq c t
    rw [htext] at hw
    cases mem_singleton.mp hw
  | _ => cases mem_singleton.mp hw

/-- Blanks in front are trimmed away. -/
theorem Text.trim_append_front {b : Text} (hb : ∀ c ∈ b, isBlank c = true) (t : Text) :
    trim (b ++ t) = trim t := by
  rw [trim, trimStart, dropWhile_append_of_pos hb]
  rfl

namespace Component

variable {cs ds : List Component} {d : Component} {n : Nat}

/-- The components of a text are separated by blanks alone. -/
def Blanks (c : Component) : Prop := ∃ w, c = .whitespace w ∧ ∀ x ∈ w, Text.isBlank x = true

/-- What separates two components of a parsed text is white space, as comments are dropped before. -/
theorem blanks_of_mem_parse (t : Text) : ∀ c ∈ parse t, c.isSeparator = true → Blanks c := by
  refine forall_mem_parse (fun o cs h => by cases o <;> contradiction) (fun b h => by contradiction) ?_
  intro l hl hcomment c hc hsep
  have hmem : Lexeme.leaf c ∈ Lexeme.lexemes (Lexeme.normalize t) := by
    rw [← hc]
    exact mem_map_of_mem (mem_filter.mpr ⟨hl, by simp [hcomment]⟩)
  obtain ⟨a, u, ls, r, hreading, hmem⟩ := Lexeme.exists_reading_of_mem_lexemes _ hmem
  cases c with
  | whitespace w =>
    exact ⟨w, rfl, fun x hx => Text.isBlank_of_isCssBlank (hreading.isCssBlank_of_whitespace hmem hx)⟩
  | comment text =>
    rw [hc] at hcomment
    contradiction
  | _ => contradiction

/-- Nothing is written between white space and what follows it. -/
theorem writeList_whitespace_cons (w : Text) (cs : List Component) :
    writeList (.whitespace w :: cs) = w ++ writeList cs := by
  cases cs with
  | nil => simp [writeList, write]
  | cons d cs =>
    have hnone : between (.whitespace w) d = [] := by
      simp [between, Joint.clash, Joint.of, isDelimiter]
    rw [writeList, hnone, write, append_nil]

/-- Separators in front are trimmed away. -/
theorem writeTrimmed_dropWhile (h : ∀ c ∈ cs, c.isSeparator = true → Blanks c) :
    writeTrimmed (cs.dropWhile (·.isSeparator)) = writeTrimmed cs := by
  induction cs with
  | nil => rfl
  | cons c cs ih =>
    cases hc : c.isSeparator with
    | false => rw [dropWhile_cons_of_neg (by simp [hc])]
    | true =>
      obtain ⟨w, rfl, hw⟩ := h c mem_cons_self hc
      rw [dropWhile_cons_of_pos hc, ih fun d hd => h d (mem_cons_of_mem _ hd), writeTrimmed, writeTrimmed,
        writeList_whitespace_cons, Text.trim_append_front hw]

/-- What stands behind the first `n` significant components. -/
def dropSignificant : Nat → List Component → List Component
  | 0, cs => cs
  | _ + 1, [] => []
  | n + 1, c :: cs => if c.isSeparator then dropSignificant (n + 1) cs else dropSignificant n cs

/-- What is behind the first significant components is a suffix. -/
theorem dropSignificant_suffix (n : Nat) (cs : List Component) : dropSignificant n cs <:+ cs := by
  induction cs generalizing n with
  | nil => cases n <;> exact suffix_rfl
  | cons c cs ih =>
    cases n with
    | zero => exact suffix_rfl
    | succ n =>
      unfold dropSignificant
      split
      · exact (ih _).trans (suffix_cons c cs)
      · exact (ih _).trans (suffix_cons c cs)

/-- Dropping significant components, the separators between them included, drops them from the significant
    ones. By induction on the components. -/
theorem significant_dropSignificant (n : Nat) (cs : List Component) :
    significant (dropSignificant n cs) = (significant cs).drop n := by
  induction cs generalizing n with
  | nil => cases n <;> rfl
  | cons c cs ih =>
    cases n with
    | zero => rfl
    | succ n => cases hc : c.isSeparator <;> simp_all [dropSignificant, significant]

/-- The next significant component stands behind separators, and what follows it behind it. -/
theorem dropWhile_dropSignificant (h : (significant cs)[n]? = some d) :
    (dropSignificant n cs).dropWhile (·.isSeparator) = d :: dropSignificant (n + 1) cs := by
  induction cs generalizing n with
  | nil => simp [significant] at h
  | cons c cs ih =>
    cases hc : c.isSeparator with
    | true =>
      have hcs : (significant cs)[n]? = some d := by simpa [significant, hc] using h
      cases n with
      | zero =>
        have := ih hcs
        simpa [dropSignificant, hc] using this
      | succ n =>
        have := ih hcs
        simpa [dropSignificant, hc] using this
    | false =>
      cases n with
      | zero =>
        have hcd : c = d := by simpa [significant, hc] using h
        simp [dropSignificant, ← hcd, hc]
      | succ n =>
        have hcs : (significant cs)[n]? = some d := by simpa [significant, hc] using h
        simpa [dropSignificant, hc] using ih hcs

/-- Behind the last significant component there are separators only. -/
theorem dropWhile_dropSignificant_eq_nil (h : (significant cs)[n]? = none) :
    (dropSignificant n cs).dropWhile (·.isSeparator) = [] := by
  have hnil : significant (dropSignificant n cs) = [] := by
    rw [significant_dropSignificant, drop_eq_nil_iff]
    exact getElem?_eq_none_iff.mp h
  refine dropWhile_eq_nil_iff.mpr fun c hc => ?_
  simpa using filter_eq_nil_iff.mp hnil c hc

end Component

/-! ## Which field takes a component, and what it keeps

  A component may fit several fields, and the first one takes it; `normal` always goes to the style. A field
  that is given several values keeps the last.
-/

namespace FontField

variable {d : Component}

/-- The keyword `small-caps`. -/
def isSmallCaps (d : Component) : Bool := d.isKeywordOf ["small-caps"]

/-- A weight that is not `normal`. -/
def isOwnWeight (d : Component) : Bool := d.isFontWeight && !d.isKeywordOf ["normal"]

/-- A component is read as a style exactly when it is one, as this is asked first. -/
theorem of?_eq_style_iff : of? d = some .style ↔ d.isFontStyle = true := by
  cases hs : d.isFontStyle <;> cases hv : d.isFontVariant <;> cases hw : d.isFontWeight <;>
    simp [of?, accepts, hs, hv, hw]

/-- A variant is taken for one if it is no style, and `normal` is a style. -/
theorem of?_eq_variant_iff : of? d = some .variant ↔ isSmallCaps d = true := by
  have hkeyword : ∀ k : String, k ∈ fontVariants ∧ k ∉ fontStyles ↔ k = "small-caps" := by
    intro k
    constructor
    · rintro ⟨hv, hs⟩
      revert k
      decide
    · rintro rfl
      decide
  have hof : of? d = some .variant ↔ d.isFontVariant = true ∧ d.isFontStyle = false := by
    cases hs : d.isFontStyle <;> cases hv : d.isFontVariant <;> cases hw : d.isFontWeight <;>
      simp [of?, accepts, hs, hv, hw]
  rw [hof]
  cases d with
  | ident m =>
    simpa [Component.isFontVariant, Component.isFontStyle, isSmallCaps, Component.isKeywordOf,
      Component.keyword?] using hkeyword (Text.toString (Text.lower m))
  | _ => simp [Component.isFontVariant, isSmallCaps, Component.isKeywordOf, Component.keyword?]

/-- A weight is taken for one if it is neither a style nor a variant, and `normal` is both. -/
theorem of?_eq_weight_iff : of? d = some .weight ↔ isOwnWeight d = true := by
  have hkeyword : ∀ k ∈ fontWeights, (k ∉ fontStyles ∧ k ∉ fontVariants ↔ k ≠ "normal") := by decide
  have hof : of? d = some .weight ↔
      d.isFontWeight = true ∧ d.isFontStyle = false ∧ d.isFontVariant = false := by
    cases hs : d.isFontStyle <;> cases hv : d.isFontVariant <;> cases hw : d.isFontWeight <;>
      simp [of?, accepts, hs, hv, hw]
  rw [hof, isOwnWeight, Bool.and_eq_true]
  refine and_congr_right fun hw => ?_
  cases d with
  | ident m =>
    have hmem : Text.toString (Text.lower m) ∈ fontWeights := contains_iff_mem.mp hw
    simpa [Component.isFontVariant, Component.isFontStyle, Component.isKeywordOf, Component.keyword?] using
      hkeyword _ hmem
  | _ => simp [Component.isFontVariant, Component.isFontStyle, Component.isKeywordOf, Component.keyword?]

/-- Whether a field takes the component. -/
def isField (d : Component) : Bool := (of? d).isSome

/-- A field is a style, a variant or a weight, of which `normal` may be any. -/
theorem isField_iff :
    isField d = true ↔ d.isFontStyle = true ∨ d.isFontVariant = true ∨ d.isFontWeight = true := by
  simp [isField, of?, accepts, find?_isSome]

end FontField

namespace FontValues

/-- The text of the last component that passes the test, `normal` if none does. -/
def lastOf (p : Component → Bool) (ds : List Component) : Text :=
  (ds.filter p).getLast?.elim normal Component.write

/-- The last of several is the one behind them, if it is of the kind. -/
theorem lastOf_concat (p : Component → Bool) (ds : List Component) (d : Component) :
    lastOf p (ds ++ [d]) = if p d then d.write else lastOf p ds := by
  rw [lastOf, filter_append]
  cases hd : p d with
  | true => simp [hd]
  | false => simp [hd, lastOf]

/-- **A field keeps what it is given last.** -/
theorem get_setAll (f : FontField) (ds : List Component) :
    f.get (initial.setAll ds) = lastOf (FontField.of? · = some f) ds := by
  induction ds using reverseRecOn with
  | nil => cases f <;> rfl
  | append_singleton ds d ih =>
    have hstep : initial.setAll (ds ++ [d]) =
        (FontField.of? d).elim (initial.setAll ds) (·.set d.write (initial.setAll ds)) := by
      simp [setAll]
    rw [hstep, lastOf_concat]
    cases hof : FontField.of? d with
    | none => simpa using ih
    | some g =>
      by_cases hg : g = f
      · simp [hg]
      · simpa [hg, FontField.get_set_of_ne (Ne.symm hg)] using ih

/-- What styles, variants and weights set. -/
theorem setAll_eq (ds : List Component) (size lineHeight : Text) :
    { initial.setAll ds with size := size, lineHeight := lineHeight } =
      (⟨lastOf Component.isFontStyle ds, lastOf FontField.isSmallCaps ds, lastOf FontField.isOwnWeight ds,
        size, lineHeight⟩ : FontValues) := by
  have hstyle := get_setAll .style ds
  have hvariant := get_setAll .variant ds
  have hweight := get_setAll .weight ds
  simp only [FontField.of?_eq_style_iff, FontField.of?_eq_variant_iff, FontField.of?_eq_weight_iff,
    Bool.decide_eq_true] at hstyle hvariant hweight
  rw [← hstyle, ← hvariant, ← hweight]
  rfl

end FontValues

/-! ## What the cursor has passed

  The invariant of the reader: the number of significant components behind it.
-/

namespace Cursor

open Component (significant dropSignificant)

variable {cs : List Component} {c : Cursor} {n : Nat} {d : Component} {p : Component → Bool}

/-- The cursor has passed `n` significant components, and perhaps what separates the next one. -/
def Passed (cs : List Component) (n : Nat) (c : Cursor) : Prop :=
  c.skip.rest = (dropSignificant n cs).dropWhile (·.isSeparator)

/-- A cursor that stands behind some components has passed them. -/
theorem passed_of_rest (h : c.rest = dropSignificant n cs) : Passed cs n c := by
  rw [Passed, rest_skip, h]

namespace Passed

/-- Skipping passes nothing that counts. -/
theorem skip (h : Passed cs n c) : Passed cs n c.skip := by
  rw [Passed, skip_skip_rest, h]

/-- **The next significant component is taken if it satisfies the test.** -/
theorem consume (h : Passed cs n c) (hd : (significant cs)[n]? = some d) (hp : p d = true) :
    ∃ c', c.consume p = (some d, c') ∧ c'.rest = dropSignificant (n + 1) cs :=
  (consume_of_rest (h.trans (Component.dropWhile_dropSignificant hd))).1 hp

/-- Nothing is taken otherwise. -/
theorem consume_none (h : Passed cs n c) (hp : ∀ d, (significant cs)[n]? = some d → p d = false) :
    c.consume p = (none, c.skip) := by
  cases hd : (significant cs)[n]? with
  | none =>
    have hrest := h.trans (Component.dropWhile_dropSignificant_eq_nil hd)
    simp [Cursor.consume, hrest]
  | some d => exact (consume_of_rest (h.trans (Component.dropWhile_dropSignificant hd))).2 (hp d hd)

/-- A cursor before a field takes it. -/
theorem consumeField (h : Passed cs n c) (hd : (significant cs)[n]? = some d) {f : FontField}
    (hf : FontField.of? d = some f) :
    ∃ c', c.consumeField = (some (f, d), c') ∧ c'.rest = dropSignificant (n + 1) cs :=
  (consumeField_of_rest (h.trans (Component.dropWhile_dropSignificant hd))).1 f hf

/-- A cursor before anything else stays where it is, up to separators. -/
theorem consumeField_none (h : Passed cs n c)
    (hn : ∀ d, (significant cs)[n]? = some d → FontField.of? d = none) :
    ∃ c', c.consumeField = (none, c') ∧ Passed cs n c' := by
  cases hd : (significant cs)[n]? with
  | none =>
    refine ⟨c.skip.skip.skip, ?_, h.skip.skip.skip⟩
    rw [Cursor.consumeField, h.consume_none (by simp [hd])]
    simp only [h.skip.consume_none (p := FontField.variant.accepts) (by simp [hd]),
      h.skip.skip.consume_none (p := FontField.weight.accepts) (by simp [hd])]
  | some d =>
    have hrest := Component.dropWhile_dropSignificant hd
    obtain ⟨c', hc', hskip⟩ := (consumeField_of_rest (h.trans hrest)).2 (hn d hd)
    exact ⟨c', hc', hskip.trans hrest.symm⟩

/-- **The fields that are taken are the longest run of styles, variants and weights.** -/
theorem consumeFields {ds es : List Component} (hds : (significant cs).drop n = ds ++ es)
    (hfields : ∀ d ∈ ds, FontField.isField d = true)
    (hstop : ∀ e ∈ es.head?, FontField.isField e = false) (h : Passed cs n c) (v : FontValues) :
    ∃ c', c.consumeFields v = (v.setAll ds, c') ∧ Passed cs (n + ds.length) c' := by
  induction ds generalizing n c v with
  | nil =>
    have hnext : ∀ d, (significant cs)[n]? = some d → FontField.of? d = none := by
      intro d hd
      have hnone : FontField.isField d = false := by
        refine hstop d ?_
        rw [← nil_append es, ← hds, head?_drop, hd]
        rfl
      simpa [FontField.isField] using hnone
    obtain ⟨c', hc', hpassed⟩ := h.consumeField_none hnext
    exact ⟨c', consumeFields_of_none hc' v, hpassed⟩
  | cons d ds ih =>
    have hd : (significant cs)[n]? = some d := by
      rw [← head?_drop, hds]
      rfl
    have hdrop : (significant cs).drop (n + 1) = ds ++ es := by
      rw [← drop_drop, hds]
      rfl
    -- one field is taken, and the run goes on behind it with what it has set
    obtain ⟨f, hf⟩ := Option.isSome_iff_exists.mp (hfields d mem_cons_self)
    obtain ⟨c₁, hc₁, hrest⟩ := h.consumeField hd hf
    obtain ⟨c', hc', hpassed⟩ := ih hdrop (fun e he => hfields e (mem_cons_of_mem _ he))
      (passed_of_rest hrest) (f.set d.write v)
    refine ⟨c', ?_, by rwa [length_cons, Nat.add_comm ds.length, ← Nat.add_assoc]⟩
    rw [consumeFields_of_some hc₁, hc', FontValues.setAll_cons v hf]

end Passed

end Cursor

/-! ## Phrases

  The grammar, stated on the significant components alone, and why it is not ambiguous.
-/

/-- A way to cut a font value: styles, variants and weights, a size, perhaps a height of lines, and what
    is left. -/
structure FontPhrase where
  fields : List Component
  size : Component
  lineHeight : Option Component
  family : List Component

namespace FontPhrase

open Component (significant dropSignificant)

/-- The slash and the height of lines, if there is one. -/
def line (x : FontPhrase) : List Component :=
  match x.lineHeight with
  | some h => [.literal ['/'], h]
  | none => []

/-- What a phrase says of significant components. -/
structure Reads (x : FontPhrase) (cs : List Component) : Prop where
  eq : cs = x.fields ++ [x.size] ++ x.line ++ x.family
  fields : ∀ d ∈ x.fields, d.isFontStyle = true ∨ d.isFontVariant = true ∨ d.isFontWeight = true
  size : x.size.isFontSize = true
  lineHeight : ∀ h ∈ x.lineHeight, h.isLineHeight = true
  /-- A slash behind the size is not left to the family. -/
  family : x.lineHeight = none → ∀ e ∈ x.family.head?, e.isSlash = false

/-- What a phrase sets. -/
def values (x : FontPhrase) : FontValues where
  style := FontValues.lastOf Component.isFontStyle x.fields
  variant := FontValues.lastOf FontField.isSmallCaps x.fields
  weight := FontValues.lastOf FontField.isOwnWeight x.fields
  size := x.size.write
  lineHeight := x.lineHeight.elim normal Component.write

/-- What stands behind the size and the height of lines, as it is written. -/
def familyText? (x : FontPhrase) (cs : List Component) : Option Text :=
  let text := Component.writeTrimmed
    (dropSignificant (x.fields ++ [x.size] ++ x.line).length cs)
  if text.isEmpty then none else some text

variable {x y : FontPhrase} {cs : List Component}

/-- **The fields of a phrase are the longest run of styles, variants and weights**, for the size is none
    of these. -/
theorem Reads.split (h : x.Reads cs) :
    x.fields = cs.takeWhile FontField.isField ∧
      x.size :: (x.line ++ x.family) = cs.dropWhile FontField.isField := by
  have hfields : ∀ d ∈ x.fields, FontField.isField d = true := fun d hd =>
    FontField.isField_iff.mpr (h.fields d hd)
  have hsize : ¬FontField.isField x.size = true := by
    simp [FontField.isField, FontField.of?_of_isFontSize h.size]
  have heq : cs = x.fields ++ x.size :: (x.line ++ x.family) := by simpa using h.eq
  constructor
  · rw [heq, takeWhile_append_of_pos hfields, takeWhile_cons_of_neg hsize, append_nil]
  · rw [heq, dropWhile_append_of_pos hfields, dropWhile_cons_of_neg hsize]

/-- **There is at most one phrase.** -/
theorem Reads.unique (hx : x.Reads cs) (hy : y.Reads cs) : x = y := by
  have hfields : x.fields = y.fields := hx.split.1.trans hy.split.1.symm
  obtain ⟨hsize, hrest⟩ := cons.inj (hx.split.2.trans hy.split.2.symm)
  obtain ⟨fields, size, height, family⟩ := x
  obtain ⟨fields', size', height', family'⟩ := y
  obtain rfl : fields = fields' := hfields
  obtain rfl : size = size' := hsize
  cases height with
  | none =>
    cases height' with
    | none =>
      obtain rfl : family = family' := by simpa [line] using hrest
      rfl
    | some h' =>
      -- one phrase leaves the slash to the family, which it may not
      have hfamily : family = .literal ['/'] :: h' :: family' := by simpa [line] using hrest
      have := hx.family rfl (.literal ['/']) (by simp [hfamily])
      contradiction
  | some h =>
    cases height' with
    | none =>
      have hfamily : family' = .literal ['/'] :: h :: family := by simpa [line] using hrest.symm
      have := hy.family rfl (.literal ['/']) (by simp [hfamily])
      contradiction
    | some h' =>
      obtain ⟨rfl, rfl⟩ : h = h' ∧ family = family' := by simpa [line] using hrest
      rfl

end FontPhrase

/-! ## Reading a font value

  From the fields to the size, the line height and the family; the ways in which it fails are those in which
  there is no phrase.
-/

namespace FontReading

open Component (significant dropSignificant)

variable {cs : List Component} {x : FontPhrase} {c : Cursor} {v : FontValues}

/-- A system font is one of the keywords by itself. -/
theorem isSystem_iff : isSystem cs = true ↔
    ∃ n, significant cs = [.ident n] ∧ Text.toString (Text.lower n) ∈ systemFonts := by
  unfold isSystem
  match significant cs with
  | [] => simp [Component.soleKeyword?]
  | [d] => cases d <;> simp [Component.soleKeyword?, Component.keyword?]
  | _ :: _ :: _ => simp [Component.soleKeyword?]

/-- A phrase is read behind its fields. -/
theorem readSize_of_reads (h : x.Reads (significant cs))
    (hblanks : ∀ c ∈ cs, c.isSeparator = true → Component.Blanks c)
    (hc : Cursor.Passed cs x.fields.length c) (hv : v.lineHeight = normal) (value : Text) :
    readSize value v c = .ok (.parts { v with
      size := x.size.write, lineHeight := x.lineHeight.elim normal Component.write } (x.familyText? cs)) := by
  -- The fields are passed, so what is asked for next is the size, then the slash and the line height if there
  -- is one.
  have hindex : ∀ k, (significant cs)[x.fields.length + k]? = (x.size :: (x.line ++ x.family))[k]? := by
    intro k
    have heq : significant cs = x.fields ++ x.size :: (x.line ++ x.family) := by simpa using h.eq
    rw [heq, getElem?_append_right (by omega), Nat.add_sub_cancel_left]
  obtain ⟨c₁, hc₁, hrest₁⟩ := hc.consume (hindex 0) h.size
  have hpassed₁ := Cursor.passed_of_rest hrest₁
  unfold readSize readLineHeight FontPhrase.familyText?
  rw [hc₁]
  dsimp only
  cases hheight : x.lineHeight with
  | none =>
    have hline : x.line = [] := by simp [FontPhrase.line, hheight]
    have hnext : ∀ d, (significant cs)[x.fields.length + 1]? = some d → d.isSlash = false := by
      intro d hd
      refine h.family hheight d ?_
      rw [hindex 1, hline] at hd
      rwa [head?_eq_getElem?]
    have hfamily : Component.writeTrimmed c₁.skip.rest =
        Component.writeTrimmed (dropSignificant (x.fields.length + 1) cs) := by
      rw [Cursor.rest_skip, hrest₁, Component.writeTrimmed_dropWhile]
      exact fun d hd => hblanks d ((Component.dropSignificant_suffix _ cs).subset hd)
    simp [hpassed₁.consume_none hnext, Cursor.consumeRest, hfamily, hline, hv]
  | some height =>
    have hline : x.line = [.literal ['/'], height] := by simp [FontPhrase.line, hheight]
    rw [hline] at hindex
    obtain ⟨c₂, hc₂, hrest₂⟩ := hpassed₁.consume (p := Component.isSlash) (hindex 1) rfl
    obtain ⟨c₃, hc₃, hrest₃⟩ :=
      (Cursor.passed_of_rest hrest₂).consume (hindex 2) (h.lineHeight height hheight)
    simp [hc₂, hc₃, Cursor.consumeRest, hrest₃, hline]

/-- Without a size behind the fields a value is rejected. -/
theorem readSize_of_no_size {n : Nat} (hc : Cursor.Passed cs n c)
    (hnone : ∀ d, (significant cs)[n]? = some d → d.isFontSize = false) (v : FontValues) (value : Text) :
    readSize value v c = .error (.noFontSize value) := by
  unfold readSize
  rw [hc.consume_none hnone]

/-- So it is with a slash behind the size, but no height of lines behind the slash. -/
theorem readSize_of_no_height {n : Nat} {size : Component} (hc : Cursor.Passed cs n c)
    (hat : (significant cs)[n]? = some size) (hsize : size.isFontSize = true)
    (hslash : (significant cs)[n + 1]? = some (.literal ['/']))
    (hnone : ∀ d, (significant cs)[n + 2]? = some d → d.isLineHeight = false) (v : FontValues)
    (value : Text) : readSize value v c = .error (.noLineHeight value) := by
  obtain ⟨c₁, hc₁, hrest₁⟩ := hc.consume hat hsize
  obtain ⟨c₂, hc₂, hrest₂⟩ :=
    (Cursor.passed_of_rest hrest₁).consume (p := Component.isSlash) hslash rfl
  unfold readSize readLineHeight
  simp [hc₁, hc₂, (Cursor.passed_of_rest hrest₂).consume_none hnone]

/-- Behind the fields stands the rest of a phrase, or what is rejected. -/
theorem exists_reads_or_error {ds es : List Component} (hcs : significant cs = ds ++ es)
    (hfields : ∀ d ∈ ds, FontField.isField d = true) (hc : Cursor.Passed cs ds.length c) (v : FontValues)
    (value : Text) : (∃ x : FontPhrase, x.Reads (significant cs)) ∨
      ∃ f, readSize value v c = .error f ∧ f.isInvalidValue = true := by
  have hallowed := fun d hd => FontField.isField_iff.mp (hfields d hd)
  have hindex : ∀ k, (significant cs)[ds.length + k]? = es[k]? := by
    intro k
    rw [hcs, getElem?_append_right (by omega), Nat.add_sub_cancel_left]
  by_cases hsize : ∃ z ∈ es.head?, z.isFontSize = true
  · obtain ⟨z, hz, hsize⟩ := hsize
    obtain ⟨es, rfl⟩ : ∃ fs, es = z :: fs := head?_eq_some_iff.mp hz
    by_cases hslash : ∃ s ∈ es.head?, s.isSlash = true
    · obtain ⟨s, hs, hslash⟩ := hslash
      obtain ⟨es, rfl⟩ : ∃ fs, es = s :: fs := head?_eq_some_iff.mp hs
      obtain rfl := Component.isSlash_iff.mp hslash
      by_cases hheight : ∃ height ∈ es.head?, height.isLineHeight = true
      · -- size, slash and height of lines
        obtain ⟨height, hh, hheight⟩ := hheight
        obtain ⟨fs, rfl⟩ : ∃ fs, es = height :: fs := head?_eq_some_iff.mp hh
        refine Or.inl ⟨⟨ds, z, some height, fs⟩, by simp [hcs, FontPhrase.line], hallowed, hsize, ?_, nofun⟩
        rintro _ ⟨⟩
        exact hheight
      · -- a slash, but no height of lines behind it
        refine Or.inr ⟨_, readSize_of_no_height hc (hindex 0) hsize (hindex 1) (fun d hd => ?_) v value, rfl⟩
        rw [hindex 2] at hd
        by_contra hd'
        exact hheight ⟨d, by simpa [head?_eq_getElem?] using hd, by simpa using hd'⟩
    · -- all behind the size is the family
      refine Or.inl ⟨⟨ds, z, none, es⟩, by simp [hcs, FontPhrase.line], hallowed, hsize, nofun, ?_⟩
      intro _ e he
      by_contra he'
      exact hslash ⟨e, he, by simpa using he'⟩
  · -- no size behind the fields
    refine Or.inr ⟨_, readSize_of_no_size hc (fun d hd => ?_) v value, rfl⟩
    rw [← Nat.add_zero ds.length, hindex 0] at hd
    by_contra hd'
    exact hsize ⟨d, by rwa [head?_eq_getElem?], by simpa using hd'⟩

/-- What is read of a value that is no font of the system. -/
theorem ofValue_of_not_isSystem {value : Text} (h : isSystem (Component.parse value) = false) :
    (∀ x : FontPhrase, x.Reads (significant (Component.parse value)) →
      ofValue value = .ok (.parts x.values (x.familyText? (Component.parse value)))) ∧
    ((∃ x : FontPhrase, x.Reads (significant (Component.parse value))) ∨
      ∃ f, ofValue value = .error f ∧ f.isInvalidValue = true) := by
  have hvalue : ofValue value = readSize value ((Cursor.start (Component.parse value)).consumeFields .initial).1
      ((Cursor.start (Component.parse value)).consumeFields .initial).2 := by
    rw [ofValue]
    simp [h]
  generalize hcs : Component.parse value = cs at h hvalue ⊢
  have hblanks : ∀ c ∈ cs, c.isSeparator = true → Component.Blanks c := hcs ▸ Component.blanks_of_mem_parse value
  have hstart : Cursor.Passed cs 0 (Cursor.start cs) :=
    Cursor.passed_of_rest (by simp [Cursor.rest, Cursor.start, dropSignificant])
  -- the fields are the longest run, whether a phrase begins with them or not
  have hsplit : significant cs =
      (significant cs).takeWhile FontField.isField ++ (significant cs).dropWhile FontField.isField :=
    takeWhile_append_dropWhile.symm
  have hrun : ∀ d ∈ (significant cs).takeWhile FontField.isField, FontField.isField d = true :=
    fun d hd => mem_takeWhile_imp hd
  have hstop : ∀ e ∈ ((significant cs).dropWhile FontField.isField).head?, FontField.isField e = false := by
    intro e he
    have := head?_dropWhile_not FontField.isField (significant cs)
    rwa [Option.mem_def.mp he] at this
  obtain ⟨c, hc, hpassed⟩ := hstart.consumeFields (drop_zero.trans hsplit) hrun hstop .initial
  rw [Nat.zero_add] at hpassed
  rw [hc] at hvalue
  constructor
  · intro x hx
    rw [← hx.split.1] at hvalue hpassed
    rw [hvalue, readSize_of_reads hx hblanks hpassed (FontValues.setAll_lineHeight _ _), FontValues.setAll_eq]
    rfl
  · rw [hvalue]
    exact exists_reads_or_error hsplit hrun hpassed _ value

/-- **The reader takes exactly the values of the grammar.**  A value that is no font of the system is read
    if and only if it is a phrase; there is one phrase at most, and it says what is read.  Any other value
    is rejected. -/
theorem ofValue_grammar (value : Text) :
    (ofValue value = .ok .system ↔ ∃ n, significant (Component.parse value) = [.ident n] ∧
      Text.toString (Text.lower n) ∈ systemFonts) ∧
    (ofValue value ≠ .ok .system →
      ((∃ r, ofValue value = .ok r) ↔ ∃ x : FontPhrase, x.Reads (significant (Component.parse value))) ∧
      (∀ x y : FontPhrase, x.Reads (significant (Component.parse value)) →
        y.Reads (significant (Component.parse value)) → x = y) ∧
      (∀ x : FontPhrase, x.Reads (significant (Component.parse value)) →
        ofValue value = .ok (.parts x.values (x.familyText? (Component.parse value)))) ∧
      ((¬∃ x : FontPhrase, x.Reads (significant (Component.parse value))) →
        ∃ f, ofValue value = .error f ∧ f.isInvalidValue = true)) := by
  rw [← isSystem_iff]
  cases hsystem : isSystem (Component.parse value) with
  | true =>
    have hvalue : ofValue value = .ok .system := by simp [ofValue, hsystem]
    exact ⟨by simp [hvalue], fun h => absurd hvalue h⟩
  | false =>
    -- ofValue_of_not_isSystem hsystem := The reading follows the grammar where this applies, and fails where
    -- it does not: the two exclude each other.
    obtain ⟨hreads, hrejects⟩ := ofValue_of_not_isSystem hsystem
    have hnot : ofValue value ≠ .ok .system := by
      intro hvalue
      rcases hrejects with ⟨x, hx⟩ | ⟨f, hf, -⟩
      · rw [hreads x hx] at hvalue
        simp at hvalue
      · rw [hf] at hvalue
        contradiction
    refine ⟨by simp [hnot], fun _ => ⟨⟨?_, ?_⟩, fun x y => FontPhrase.Reads.unique, hreads, hrejects.resolve_left⟩⟩
    · rintro ⟨r, hr⟩
      rcases hrejects with hx | ⟨f, hf, -⟩
      · exact hx
      · rw [hf] at hr
        contradiction
    · rintro ⟨x, hx⟩
      exact ⟨_, hreads x hx⟩

end FontReading

end CssShorthand
