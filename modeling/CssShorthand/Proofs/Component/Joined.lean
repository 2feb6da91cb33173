/-
  VALUES JOINED WITH SPACES.

  A value is solid (`Component.Solid`) if it is a single part, written as it stands, and holds no fault.
  Solid values that are written one after the other with spaces between are cut into these values again
  (`Component.split_join`).

  This is the lemma behind all shorthands that are written as words in a row. A value by itself may be read
  in a different way than next to others, when it ends inside of something or when white space is at its
  ends; solid values are those for which this does not happen. The proof scans each value in step with what
  was written for it, up to the blank behind it, where `InStep.scanned` says that everything read so far was
  read to its end.
-/
import Mathlib.Data.List.Induction
import CssShorthand.Component.Split
import CssShorthand.Proofs.Component.Rescan

namespace CssShorthand

open List

namespace Lexeme

variable {c : Char} {t r : Text} {ls : List Lexeme} {l : Lexeme}

/-- What is read holds no other components. -/
theorem Reading.isLeaf (h : Reading c t ls r) {d : Component} (hd : .leaf d ∈ ls) :
    Component.IsLeaf d := by
  cases h with
  | url hr =>
    rcases mem_ofUrl hd with ⟨v, isClosed, hd⟩ | ⟨f, hd⟩
    all_goals
      obtain rfl := leaf.inj hd
      rfl
  | string h =>
    rcases mem_ofString hd with ⟨v, isClosed, hd⟩ | ⟨f, hd⟩
    all_goals
      obtain rfl := leaf.inj hd
      rfl
  | symbol hb hs hn =>
    obtain ⟨text, htext, -⟩ := readDelimiter_eq c t
    rw [htext] at hd
    obtain rfl := leaf.inj (mem_singleton.mp hd)
    rfl
  | call h hr => simp at hd
  | opened b h => simp at hd
  | closed b h => simp at hd
  | _ =>
    obtain rfl := leaf.inj (mem_singleton.mp hd)
    rfl

/-- **Every lexeme of a text was read** at some place of it. -/
theorem exists_reading_of_mem_lexemes (t : Text) (hl : l ∈ lexemes t) : ∃ c u ls r, Reading c u ls r ∧ l ∈ ls := by
  induction hn : t.length using Nat.strong_induction_on generalizing t with
  | _ n ih =>
    subst hn
    cases t with
    | nil => simp [lexemes_nil] at hl
    | cons c t =>
      rw [lexemes_cons] at hl
      rcases mem_append.mp hl with hl | hl
      · exact ⟨c, t, _, _, reading_read c t, (mem_filter.mp hl).1⟩
      · exact ih _ (Nat.lt_succ_of_le (read_length_le c t)) _ hl rfl

/-- The leaves of a scan are components without content. -/
theorem isLeaf_of_mem_lexemes (t : Text) {d : Component} (hd : .leaf d ∈ lexemes t) :
    Component.IsLeaf d := by
  obtain ⟨c, u, ls, r, hreading, hmem⟩ := exists_reading_of_mem_lexemes t hd
  exact hreading.isLeaf hmem

/-- White space is read where a blank stands. -/
theorem Reading.of_whitespace (h : Reading c t ls r) (hl : l ∈ ls) (hblank : l.isWhitespace = true) :
    Text.isCssBlank c = true := by
  cases h with
  | blanks h => exact h
  | url hr => rcases mem_ofUrl hl with ⟨v, isClosed, rfl⟩ | ⟨f, rfl⟩ <;> contradiction
  | string h => rcases mem_ofString hl with ⟨v, isClosed, rfl⟩ | ⟨f, rfl⟩ <;> contradiction
  | symbol hb hs hn =>
    obtain ⟨text, htext, -⟩ := readDelimiter_eq c t
    rw [htext] at hl
    obtain rfl := mem_singleton.mp hl
    contradiction
  | _ =>
    obtain rfl := mem_singleton.mp hl
    contradiction

end Lexeme

namespace Component

open Lexeme (lexemes writeAfter)

/-! ## Groups

  Groups are the stretches between separators. A list of components with a separator in the middle has the
  groups of its two sides.
-/

variable {cs g : List Component}

/-- Where no group is left there is white space only. -/
theorem groups_eq_nil (h : groups cs = []) : ∀ c ∈ cs, c.isWhitespace = true := by
  fun_induction groups cs with
  | case1 => simp
  | case2 c cs hc ih => exact forall_mem_cons.mpr ⟨hc, ih h⟩
  | case3 c hc => contradiction
  | case4 c hc d ds hd ih => contradiction
  | case5 c hc d ds hd ih =>
    revert h
    cases groups (d :: ds) <;> simp [joinFirst]

/-- A single group stands between white space. -/
theorem exists_append_of_groups (h : groups cs = [g]) :
    ∃ front back, cs = front ++ g ++ back ∧ (∀ c ∈ front, c.isWhitespace = true) ∧
      (∀ c ∈ g, c.isWhitespace = false) ∧ ∀ c ∈ back, c.isWhitespace = true := by
  fun_induction groups cs generalizing g with
  | case1 => contradiction
  | case2 c cs hc ih =>
    obtain ⟨front, back, rfl, hfront, hg, hback⟩ := ih h
    exact ⟨c :: front, back, rfl, forall_mem_cons.mpr ⟨hc, hfront⟩, hg, hback⟩
  | case3 c hc =>
    obtain rfl := (singleton_inj.mp h).symm
    exact ⟨[], [], rfl, by simp, by simpa using hc, by simp⟩
  | case4 c hc d ds hd ih =>
    obtain ⟨rfl, hnil⟩ := List.cons.inj h
    exact ⟨[], d :: ds, rfl, by simp, by simpa using hc, groups_eq_nil hnil⟩
  | case5 c hc d ds hd ih =>
    cases hgs : groups (d :: ds) with
    | nil => exact absurd (groups_eq_nil hgs d mem_cons_self) hd
    | cons g' gs =>
      rw [hgs] at h
      obtain ⟨rfl, rfl⟩ := List.cons.inj h
      obtain ⟨front, back, heq, hfront, hg, hback⟩ := ih hgs
      -- The group behind `c` begins with `d`, so nothing is in front of it.
      obtain rfl : front = [] := by
        cases front with
        | nil => rfl
        | cons e front =>
          obtain rfl : d = e := (List.cons.inj heq).1
          exact absurd (hfront d mem_cons_self) hd
      exact ⟨[], back, by rw [heq]; rfl, by simp, forall_mem_cons.mpr ⟨by simpa using hc, hg⟩, hback⟩

/-- A group ends before white space. -/
theorem groups_append (hne : g ≠ []) (hg : ∀ c ∈ g, c.isWhitespace = false)
    (hcs : ∀ c ∈ cs.head?, c.isWhitespace = true) : groups (g ++ cs) = g :: groups cs := by
  induction g with
  | nil => contradiction
  | cons c g ih =>
    have hc := hg c mem_cons_self
    cases g with
    | nil =>
      cases cs with
      | nil => simp [groups, hc]
      | cons d cs => simp [groups, hc, hcs d rfl]
    | cons d g =>
      have hd := hg d (by simp)
      have hrest := ih (by simp) fun e he => hg e (mem_cons_of_mem _ he)
      rw [cons_append] at hrest
      rw [cons_append, cons_append, groups, if_neg (by simp [hc])]
      simp [hd, hrest, joinFirst]

/-! ## Lexemes of groups

  A group has neither white space nor a separator at its outermost level; its layout may have both, inside
  of a call.
-/

/-- White space is laid out as it is. -/
theorem flatList_of_isWhitespace (h : ∀ c ∈ cs, c.isWhitespace = true) :
    flatList cs = cs.map .leaf := by
  induction cs with
  | nil => rfl
  | cons c cs ih =>
    have hc := h c mem_cons_self
    have hflat : flat c = [.leaf c] := by
      cases c <;> first | rfl | contradiction
    show flat c ++ flatList cs = _
    rw [hflat, ih fun d hd => h d (mem_cons_of_mem _ hd)]
    rfl

/-- A component that is no white space neither begins nor ends with it. -/
theorem exists_flat (c : Component) (hc : c.isWhitespace = false) :
    (∃ l ls, flat c = l :: ls ∧ l.isWhitespace = false) ∧
      ∃ l ls, flat c = ls ++ [l] ∧ l.isWhitespace = false := by
  cases c with
  | block b content => exact ⟨⟨_, _, rfl, rfl⟩, ⟨.closed b, .opened b :: flatList content, rfl, rfl⟩⟩
  | function name arguments =>
    exact ⟨⟨_, _, rfl, rfl⟩, ⟨.closed .round, .call name :: flatList arguments, rfl, rfl⟩⟩
  | _ => exact ⟨⟨_, _, rfl, hc⟩, ⟨_, [], rfl, hc⟩⟩

/-- The last lexeme of components that are no white space is none. -/
theorem getLast?_flatList (hg : ∀ c ∈ g, c.isWhitespace = false) :
    ∀ l ∈ (flatList g).getLast?, l.isWhitespace = false := by
  induction g using List.reverseRecOn with
  | nil => simp [flatList]
  | append_singleton g c _ =>
    obtain ⟨l, ls, hflat, hl⟩ := (exists_flat c (hg c (by simp))).2
    have hlast : flatList (g ++ [c]) = flatList g ++ ls ++ [l] := by
      rw [flatList_append]
      show flatList g ++ (flat c ++ []) = _
      rw [hflat, append_nil, append_assoc]
    rw [hlast, getLast?_concat]
    intro m hm
    rwa [← Option.some.inj hm]

/-! ## Solid values

  What is known of a solid value: its components, that they are written as the value, and that it is scanned
  to its end.
-/

/-- A value of one part that is written as it stands, without faults. -/
structure Solid (v : Text) : Prop where
  split_eq : split v = [v]
  faultless : Faultless (parse v)

/-- What is known of the components of a solid value. -/
structure Parts (v : Text) (g : List Component) : Prop where
  ne_nil : g ≠ []
  isWhitespace : ∀ c ∈ g, c.isWhitespace = false
  writeList_eq : writeList g = v
  normal : Lexeme.Normal v
  lexemes_eq : lexemes v = flatList g
  lexemes_stop : ∀ e, Stops e → ∀ r, lexemes (v ++ e :: r) = flatList g ++ lexemes (e :: r)
  head : ∃ c u, v = c :: u ∧ Text.isCssBlank c = false

/-- The components of a text lie as its lexemes, with the brackets after them that are missing. -/
theorem exists_flatList_parse {v : Text} (h : Faultless (parse v)) :
    ∃ closing : List Lexeme, flatList (parse v) = lexemes (Lexeme.normalize v) ++ closing ∧
      ∀ l ∈ closing, ∃ b, l = .closed b := by
  have hleaf : ∀ l ∈ (Lexeme.scan (Lexeme.normalize v)).filter fun l => !l.item.isComment,
      ∀ d, l.item = .leaf d → IsLeaf d := by
    intro l hl d hd
    exact Lexeme.isLeaf_of_mem_lexemes (Lexeme.normalize v) (hd ▸ mem_map_of_mem hl)
  obtain ⟨frames, hframes⟩ := Nesting.flatList_ofLexemes hleaf h
  refine ⟨Nesting.missing frames, hframes, fun l hl => ?_⟩
  obtain ⟨f, -, rfl⟩ := mem_map.mp hl
  exact ⟨_, rfl⟩

/-- Every lexeme of a text without faults is well formed. -/
theorem formed_of_mem_flatList_parse {v : Text} (h : Faultless (parse v)) :
    ∀ l ∈ flatList (parse v), Lexeme.Formed l := by
  obtain ⟨closing, hflat, hclosing⟩ := exists_flatList_parse h
  have hfault : ∀ l ∈ lexemes (Lexeme.normalize v), l.isFault = false := fun l hl =>
    h l (hflat ▸ mem_append_left _ hl)
  intro l hl
  rw [hflat] at hl
  rcases mem_append.mp hl with hl | hl
  · exact Lexeme.formed_of_mem_lexemes _ (Lexeme.normal_normalize v) hfault l hl
  · obtain ⟨b, rfl⟩ := hclosing l hl
    exact ⟨by simp [Lexeme.content], trivial⟩

/-- White space is not read where another lexeme is written. -/
theorem front_eq_nil {t : Text} {l : Lexeme} {front G back closing : List Lexeme}
    (hread : lexemes t ++ closing = front ++ (l :: G) ++ back)
    (ht : t = writeAfter (.opened .round) (l :: G)) (hformed : ∀ m ∈ l :: G, Lexeme.Formed m)
    (hl : l.isWhitespace = false) (hfault : ∀ m ∈ lexemes t, m.isFault = false)
    (hfront : ∀ m ∈ front, m.isWhitespace = true) (hclosing : ∀ m ∈ closing, ∃ b, m = .closed b) :
    front = [] := by
  cases front with
  | nil => rfl
  | cons x front =>
    exfalso
    have hx := hfront x mem_cons_self
    obtain ⟨c, w, hw, hc⟩ := (hformed l mem_cons_self).exists_write
    have hnone := Lexeme.between_opened .round l
    have htext : t = c :: (w ++ writeAfter l G) := by
      rw [ht, writeAfter, hnone, hw]
      rfl
    have hblank : Text.isCssBlank c = false := by
      by_contra h
      rw [Lexeme.isWhitespace_of_begins (hformed l mem_cons_self) hc (by simpa using h)] at hl
      exact Bool.noConfusion hl
    obtain ⟨k, hk⟩ := (Lexeme.reading_read c (w ++ writeAfter l G)).eq_singleton fun m hm =>
      Lexeme.isFault_of_mem_read (htext ▸ hfault) hm
    have hmem : k ∈ (Lexeme.read c (w ++ writeAfter l G)).1 := by simp [hk]
    have hreading := Lexeme.reading_read c (w ++ writeAfter l G)
    -- The first lexeme is no comment, since none was written; so it is the white space, against the first
    -- character.
    cases hcomment : k.isComment with
    | true =>
      obtain ⟨u, rfl, hu, -⟩ := hreading.of_comment hmem hcomment
      have hequals := Lexeme.equals_le hread hclosing
      rw [ht] at hequals hfault htext
      exact Lexeme.not_comment hformed hnone hfault hequals u (by rw [htext, hu])
    | false =>
      rw [htext, Lexeme.lexemes_cons, hk] at hread
      simp only [filter_cons, hcomment, Bool.not_false, if_true, filter_nil, cons_append] at hread
      rw [← (List.cons.inj hread).1] at hx
      rw [hreading.of_whitespace hmem hx] at hblank
      exact Bool.noConfusion hblank

/-- What is written first begins with no blank, if it is no white space. -/
theorem exists_cons_writeAfter {l : Lexeme} (h : Lexeme.Formed l) (hl : l.isWhitespace = false)
    (G : List Lexeme) :
    ∃ c u, writeAfter (.opened .round) (l :: G) = c :: u ∧ Text.isCssBlank c = false := by
  obtain ⟨d, w, hw, hd⟩ := h.exists_write
  refine ⟨d, w ++ writeAfter l G, ?_, ?_⟩
  · rw [writeAfter, Lexeme.between_opened, hw]
    rfl
  · by_contra hb
    have := Lexeme.isWhitespace_of_begins h hd (by simpa using hb)
    rw [hl] at this
    exact Bool.noConfusion this

/-- **A solid value is scanned as it was written**, whatever stops the reading behind it. -/
theorem Solid.exists_parts {v : Text} (h : Solid v) : ∃ g, Parts v g := by
  obtain ⟨g, hgroups, hwrite⟩ : ∃ g, groups (parse v) = [g] ∧ writeList g = v :=
    map_eq_singleton_iff.mp h.split_eq
  have hne := groups_ne_nil (parse v) g (by simp [hgroups])
  obtain ⟨front, back, hparse, hfront, hg, hback⟩ := exists_append_of_groups hgroups
  obtain ⟨closing, hflat, hclosing⟩ := exists_flatList_parse h.faultless
  have hformed := formed_of_mem_flatList_parse h.faultless
  have hall : flatList (parse v) = front.map .leaf ++ flatList g ++ back.map .leaf := by
    rw [hparse, flatList_append, flatList_append, flatList_of_isWhitespace hfront,
      flatList_of_isWhitespace hback]
  have hformedG : ∀ l ∈ flatList g, Lexeme.Formed l := fun l hl =>
    hformed l (by simp [hall, hl])
  have hfaultless : Faultless g := fun l hl => h.faultless l (by simp [hall, hl])
  -- The value is what was written for its one group, so reading it again goes through the lexemes of the
  -- group step by step.
  have htext : v = writeAfter (.opened .round) (flatList g) := by
    rw [← writeList_eq_writeAfter hfaultless, hwrite]
  have hnormal : Lexeme.Normal v := htext ▸ Lexeme.normal_writeAfter hformedG _
  rw [Lexeme.normalize_of_normal hnormal] at hflat
  have hfault : ∀ l ∈ lexemes v, l.isFault = false := fun l hl =>
    h.faultless l (hflat ▸ mem_append_left _ hl)
  have hread : lexemes v ++ closing = front.map .leaf ++ flatList g ++ back.map .leaf :=
    hflat.symm.trans hall
  have hblank : ∀ cs : List Component, (∀ c ∈ cs, c.isWhitespace = true) →
      ∀ l ∈ cs.map Lexeme.leaf, l.isWhitespace = true := fun cs hcs => forall_mem_map.mpr hcs
  obtain ⟨c, g', rfl⟩ := exists_cons_of_ne_nil hne
  obtain ⟨l, ls, hflatc, hl⟩ := (exists_flat c (hg c mem_cons_self)).1
  have hG : flatList (c :: g') = l :: (ls ++ flatList g') := by
    show flat c ++ flatList g' = _
    rw [hflatc, cons_append]
  have hnil : front.map Lexeme.leaf = [] := by
    rw [hG] at hread htext hformedG
    exact front_eq_nil hread htext hformedG hl hfault (hblank _ hfront) hclosing
  rw [hnil, nil_append] at hread
  have hstep : Lexeme.InStep v (.opened .round) (flatList (c :: g')) (back.map .leaf) closing :=
    ⟨hread, htext, hformedG, getLast?_flatList hg, hblank _ hback, hclosing⟩
  -- hstep.scanned := Nothing is left behind them: neither white space nor a bracket that would have to be
  -- closed.
  obtain ⟨rfl, hB, hstop⟩ := hstep.scanned
  have hlexemes : lexemes v = flatList (c :: g') := by simpa [hB] using hread
  refine ⟨c :: g', hne, hg, hwrite, hnormal, hlexemes, fun e he r => by rw [hstop e he, hlexemes], ?_⟩
  rw [htext, hG]
  exact exists_cons_writeAfter (hformedG l (by simp [hG])) hl _

/-- Comments are dropped before. -/
theorem Parts.significant_eq {v : Text} (h : Parts v g) : significant g = g := by
  refine filter_eq_self.mpr fun c hc => ?_
  have hblank := h.isWhitespace c hc
  cases c with
  | whitespace text => contradiction
  | comment text =>
    exfalso
    have hmem : ∀ ds : List Component, .comment text ∈ ds → .leaf (.comment text) ∈ flatList ds := by
      intro ds hds
      induction ds with
      | nil => contradiction
      | cons d ds ih =>
        rcases mem_cons.mp hds with rfl | hds
        · exact mem_cons_self
        · exact mem_append_right _ (ih hds)
    have hleaf := hmem g hc
    rw [← h.lexemes_eq, lexemes] at hleaf
    obtain ⟨l, hl, hitem⟩ := mem_map.mp hleaf
    have := (mem_filter.mp hl).2
    rw [hitem] at this
    contradiction
  | _ => rfl

/-! ## Solid values in a row

  By induction on the values: the first one is scanned up to the blank, the blank is one lexeme, and the
  others are a row again.
-/

/-- A space in front of a text is one lexeme, if no other blank follows. -/
theorem lexemes_blank {c : Char} (hc : Text.isCssBlank c = false) (u : Text) :
    lexemes (' ' :: c :: u) = .leaf (.whitespace [' ']) :: lexemes (c :: u) := by
  have hread : Lexeme.read ' ' (c :: u) = ([.leaf (.whitespace [' '])], c :: u) := by
    show ([Lexeme.leaf (.whitespace (' ' :: (Lexeme.takeBlanks (c :: u)).1))],
      (Lexeme.takeBlanks (c :: u)).2) = _
    simp [Lexeme.takeBlanks, hc]
  rw [Lexeme.lexemes_cons, hread]
  rfl

/-- The components of solid values with spaces between. -/
structure Row (vs : List Text) (cs : List Component) : Prop where
  normal : Lexeme.Normal (Text.join [' '] vs)
  lexemes_eq : lexemes (Text.join [' '] vs) = flatList cs
  split_eq : (groups cs).map writeList = vs
  length_le : vs.length ≤ (significant cs).length
  head : ∃ c u, Text.join [' '] vs = c :: u ∧ Text.isCssBlank c = false

/-- One solid value is a row of its own. -/
theorem Parts.row {v : Text} (h : Parts v g) : Row [v] g := by
  have hgroups : groups (g ++ []) = g :: groups [] := groups_append h.ne_nil h.isWhitespace (by simp)
  rw [append_nil] at hgroups
  have hjoin : Text.join [' '] [v] = v := by simp [Text.join]
  refine ⟨hjoin.symm ▸ h.normal, by rw [hjoin, h.lexemes_eq], ?_, ?_, hjoin.symm ▸ h.head⟩
  · rw [hgroups]
    simp [groups, h.writeList_eq]
  · rw [h.significant_eq]
    exact length_pos_iff.mpr h.ne_nil

/-- **A solid value in front of a row, with a space between, makes a longer row.**  The space is the one
    lexeme that is put in: nothing of the value is open before it, and what follows does not begin with a
    blank. -/
theorem Parts.row_cons {v w : Text} {vs : List Text} (hg : Parts v g) (hcs : Row (w :: vs) cs) :
    Row (v :: w :: vs) (g ++ .whitespace [' '] :: cs) := by
  obtain ⟨c, u, hcu, hc⟩ := hcs.head
  have hjoin : Text.join [' '] (v :: w :: vs) = v ++ ' ' :: Text.join [' '] (w :: vs) := by
    simp [Text.join, intercalate_cons_cons]
  constructor
  case normal =>
    rw [hjoin]
    exact Lexeme.normal_append.mpr ⟨hg.normal,
      Lexeme.normal_append.mpr ⟨(by decide : Lexeme.Normal [' ']), hcs.normal⟩⟩
  case lexemes_eq =>
    rw [hjoin, hg.lexemes_stop ' ' .space, hcu, lexemes_blank hc, ← hcu, hcs.lexemes_eq, flatList_append]
    rfl
  case split_eq =>
    have hblank : ∀ d ∈ (Component.whitespace [' '] :: cs).head?, d.isWhitespace = true := by
      intro d hd
      rw [← Option.some.inj hd]
      rfl
    have hskip : groups (.whitespace [' '] :: cs) = groups cs := by
      cases cs <;> simp [groups, Component.isWhitespace]
    rw [groups_append hg.ne_nil hg.isWhitespace hblank, map_cons, hg.writeList_eq, hskip, hcs.split_eq]
  -- Each value has a significant component, so a row has no fewer of them than values.
  case length_le =>
    have hblank : significant (.whitespace [' '] :: cs) = significant cs := rfl
    have hpos := length_pos_iff.mpr hg.ne_nil
    have hle := hcs.length_le
    rw [significant_append, hg.significant_eq, hblank, length_append, length_cons]
    omega
  case head =>
    obtain ⟨d, w', hv, hd⟩ := hg.head
    exact ⟨d, w' ++ ' ' :: Text.join [' '] (w :: vs), by rw [hjoin, hv]; rfl, hd⟩

/-- So solid values make a row, by induction on the values. -/
theorem exists_row {vs : List Text} (hne : vs ≠ []) (h : ∀ v ∈ vs, Solid v) : ∃ cs, Row vs cs := by
  induction vs with
  | nil => contradiction
  | cons v vs ih =>
    obtain ⟨g, hg⟩ := (h v mem_cons_self).exists_parts
    cases vs with
    | nil => exact ⟨g, hg.row⟩
    | cons w vs =>
      obtain ⟨cs, hcs⟩ := ih (by simp) fun x hx => h x (mem_cons_of_mem _ hx)
      exact ⟨g ++ .whitespace [' '] :: cs, hg.row_cons hcs⟩

theorem Row.parse_eq {vs : List Text} (h : Row vs cs) : parse (Text.join [' '] vs) = cs := by
  unfold parse parseFound
  rw [Lexeme.normalize_of_normal h.normal]
  exact Nesting.ofLexemes_flat h.lexemes_eq

/-- **Solid values with spaces between are cut into these values.** -/
theorem split_join {vs : List Text} (h : ∀ v ∈ vs, Solid v) : split (Text.join [' '] vs) = vs := by
  cases vs with
  | nil => decide +kernel
  | cons v vs =>
    obtain ⟨cs, hcs⟩ := exists_row (by simp) h
    rw [split, hcs.parse_eq, hcs.split_eq]

example : split (Text.join [' '] ["1px".toList, "a/**/b".toList]) = ["1px".toList, "a/**/b".toList] := by
  decide +kernel

/-- Two or more values are no keyword. -/
theorem soleKeyword?_join {vs : List Text} (h : ∀ v ∈ vs, Solid v) (hlen : 2 ≤ vs.length) :
    soleKeyword? (significant (parse (Text.join [' '] vs))) = none := by
  obtain ⟨cs, hcs⟩ := exists_row (by rintro rfl; simp at hlen) h
  have hle := hcs.length_le
  rw [hcs.parse_eq]
  match hsig : significant cs, hle with
  | [], _ => rfl
  | [c], hle =>
    rw [length_singleton] at hle
    omega
  | _ :: _ :: _, _ => rfl

end Component

end CssShorthand
