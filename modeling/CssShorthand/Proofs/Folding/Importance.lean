/-
  WHICH IMPORTANT DECLARATIONS SURVIVE FOLDING.

  No fold takes an important declaration out, but a fold looks at the longhands alone: it writes its
  shorthand also over an important declaration of that name.  So an important declaration survives if
  all that is written under its name declares just what it is (`important_survives_iff`); `Writes` says
  what is written, in terms of the store before.

  A longhand that is important is never taken out, which is a matter of frames; a shorthand that is
  important may be written over by the fold of its own name. Whether it is depends on what is folded, and,
  for the border, on what the boxes hold after their folds. `Writes` collects the ways in which a text is
  written under a name.
-/
import CssShorthand.Proofs.Edit.Outcome
import CssShorthand.Proofs.Folding.Others

namespace CssShorthand

namespace Folding

/-- The value of a box once the boxes are folded, if it is plainly declared then. -/
def boxAfter? (s : Store) (b : BoxShorthand) : Option Text :=
  match sides? b s with
  | some v =>
    match Value.declarationOfText? (joined v.minimal) false with
    | some d => if d.important then none else some d.value
    | none => none
  | none => s.plain? b.name

/-- Folding all that can be folded in `s` writes this text under this name. -/
inductive Writes (s : Store) : String → Text → Prop
  | background {v : Text} (h : backgroundText? s = some v) : Writes s "background" v
  | box {b : BoxShorthand} {v : Sides Text} (h : sides? b s = some v) :
      Writes s b.name (joined v.minimal)
  | border {width style color : Text} (hwidth : boxAfter? s .borderWidth = some width)
      (hstyle : boxAfter? s .borderStyle = some style)
      (hcolor : boxAfter? s .borderColor = some color)
      (hsingle : ∀ v ∈ [width, style, color], Component.isSingle v = true) :
      Writes s "border"
        ((sharedKeyword? [width, style, color]).getD (joined [width, style, color]))
  | font {v : Text} (h : fontText? s = some v) : Writes s "font" v
  | listStyle {v : Text} (h : partsText? 3 (s.plainEntries listStyleLonghands) = some v) :
      Writes s "list-style" v

variable {s : Store} {n : String} {d : Declaration}

/-- What a later fold reads of a box is what the box holds after its own. -/
theorem plain?_foldBoxes (s : Store) (b : BoxShorthand) :
    (foldBoxes s).1.plain? b.name = boxAfter? s b := by
  rw [Store.plain?, get?_foldBoxes_name, boxAfter?]
  cases sides? b s <;> rfl

/-- The fold of the boxes leaves important declarations of other names alone. -/
theorem get?_foldBoxes_important (hn : trimName n = n) (hne : ∀ b : BoxShorthand, n ≠ b.name)
    (hd : d.important = true) : (foldBoxes s).1.get? n = some d ↔ s.get? n = some d := by
  have heach : ∀ (bs : List BoxShorthand) (s : Store),
      (foldEach bs s).get? n = some d ↔ s.get? n = some d := by
    intro bs
    induction bs with
    | nil => exact fun _ => Iff.rfl
    | cons b bs ih =>
      exact fun s => (ih _).trans ((frame_foldBox b).get?_important s n d hn (hne b) hd)
  rw [foldBoxes_eq]
  exact heach _ s

/-- The sides of a box are not touched by the fold of the background. -/
theorem sides?_foldBackground (b : BoxShorthand) : sides? b (foldBackground s).1 = sides? b s := by
  have h : ∀ b ∈ BoxShorthand.all, ∀ n ∈ b.longhands.toList,
      n ≠ "background" ∧ n ∉ backgroundLonghands := by
    decide
  exact sides?_congr fun n hn => frame_foldBackground.get?_of_not_mem s n (b.trimName_longhand n hn)
    (h b b.mem_all n hn).1 (h b b.mem_all n hn).2

/-- The background has no part in what a box holds. -/
theorem boxAfter?_foldBackground (b : BoxShorthand) :
    boxAfter? (foldBackground s).1 b = boxAfter? s b := by
  have h : ∀ b ∈ BoxShorthand.all, b.name ≠ "background" ∧ b.name ∉ backgroundLonghands := by decide
  rw [boxAfter?, boxAfter?, sides?_foldBackground b,
    plain?_congr (frame_foldBackground.get?_of_not_mem s b.name b.trimName_name (h b b.mem_all).1
      (h b b.mem_all).2)]

/-! ## The whole run

  The folds come one after the other: for each target the folds before it have not touched its sources, and
  those behind it do not touch the target.
-/

/-- The store after all folds, one after the other. -/
def foldedAll (s : Store) : Store :=
  (foldListStyle (foldFont (foldBorder (foldBoxes (foldBackground s).1).1).1).1).1

/-- Folding everything never fails. -/
theorem after_foldAll (s : Store) : Edit.foldAll.after s = .ok (foldedAll s) := by
  have hfold : ∀ f : Store → Result, Edit.Does (Edit.fold f) fun s => .ok (f s).1 :=
    fun f => Edit.does_attempt fun s => .ok (f s)
  exact ((hfold _).seq ((hfold _).seq ((hfold _).seq ((hfold _).seq (hfold _))))).after_eq s

/-- What is written under the name of a box. -/
theorem writes_box_iff {b : BoxShorthand} {v : Text} :
    Writes s b.name v ↔ ∃ w, sides? b s = some w ∧ joined w.minimal = v := by
  have hbox : ∀ c ∈ BoxShorthand.all, c.name ≠ "background" ∧ c.name ≠ "border" ∧
      c.name ≠ "font" ∧ c.name ≠ "list-style" := by
    decide
  obtain ⟨hback, hborder, hfont, hlist⟩ := hbox b b.mem_all
  constructor
  · intro h
    generalize hn : b.name = n at h
    cases h with
    | @box c w hw =>
      have hbc : b = c := BoxShorthand.eq_of_mem_scope (n := b.name) List.mem_cons_self
        (hn ▸ List.mem_cons_self)
      exact ⟨w, hbc ▸ hw, rfl⟩
    | background _ => exact absurd hn hback
    | border _ _ _ _ => exact absurd hn hborder
    | font _ => exact absurd hn hfont
    | listStyle _ => exact absurd hn hlist
  · rintro ⟨w, hw, rfl⟩
    exact .box hw

/-- What is written under the other targets. -/
theorem writes_iff_of_not_box {v : Text} (hn : ∀ b : BoxShorthand, n ≠ b.name) :
    Writes s n v ↔ (n = "background" ∧ backgroundText? s = some v) ∨
      (n = "border" ∧ borderText? (foldBoxes (foldBackground s).1).1 = some v) ∨
      (n = "font" ∧ fontText? s = some v) ∨
      (n = "list-style" ∧ partsText? 3 (s.plainEntries listStyleLonghands) = some v) := by
  have hafter : ∀ b : BoxShorthand,
      (foldBoxes (foldBackground s).1).1.plain? b.name = boxAfter? s b := fun b => by
    rw [plain?_foldBoxes, boxAfter?_foldBackground]
  -- The text of the border is read off its three boxes, each as its own fold has left it.
  have hborder : borderText? (foldBoxes (foldBackground s).1).1 = some v ↔
      ∃ width style color, boxAfter? s .borderWidth = some width ∧
        boxAfter? s .borderStyle = some style ∧ boxAfter? s .borderColor = some color ∧
        (∀ v ∈ [width, style, color], Component.isSingle v = true) ∧
        (sharedKeyword? [width, style, color]).getD (joined [width, style, color]) = v := by
    have hw := hafter .borderWidth
    have hs := hafter .borderStyle
    have hc := hafter .borderColor
    simp only [BoxShorthand.name] at hw hs hc
    rw [borderText?, hw, hs, hc]
    cases boxAfter? s .borderWidth with
    | none => simp
    | some width =>
      cases boxAfter? s .borderStyle with
      | none => simp
      | some style =>
        cases boxAfter? s .borderColor with
        | none => simp
        | some color => simp [and_assoc]
  rw [hborder]
  constructor
  · intro h
    cases h with
    | @box b _ _ => exact absurd rfl (hn b)
    | background h => exact Or.inl ⟨rfl, h⟩
    | border hwidth hstyle hcolor hsingle =>
      exact Or.inr (Or.inl ⟨rfl, _, _, _, hwidth, hstyle, hcolor, hsingle, rfl⟩)
    | font h => exact Or.inr (Or.inr (Or.inl ⟨rfl, h⟩))
    | listStyle h => exact Or.inr (Or.inr (Or.inr ⟨rfl, h⟩))
  · rintro (⟨rfl, h⟩ | ⟨rfl, _, _, _, hw, hs, hc, hsingle, rfl⟩ | ⟨rfl, h⟩ | ⟨rfl, h⟩)
    · exact .background h
    · exact .border hw hs hc hsingle
    · exact .font h
    · exact .listStyle h

/-- The names that are read or written by the last two folds. -/
def lateNames : List String := "font" :: fontLonghands ++ "list-style" :: listStyleLonghands

/-- These names are not touched by the folds before. -/
theorem get?_of_mem_lateNames {m : String} (hm : m ∈ lateNames) :
    (foldBorder (foldBoxes (foldBackground s).1).1).1.get? m = s.get? m := by
  have h : ∀ m ∈ lateNames, m ∉ "background" :: backgroundLonghands ∧
      (∀ b ∈ BoxShorthand.all, m ∉ b.scope) ∧ m ∉ "border" :: borderBoxes := by
    decide
  have htrim : trimName m = m := by
    rcases List.mem_append.mp hm with hm | hm
    · rcases List.mem_cons.mp hm with rfl | hm
      · exact Shorthand.font.trimName_name
      · exact Shorthand.font.trimName_longhand m hm
    · rcases List.mem_cons.mp hm with rfl | hm
      · exact Shorthand.listStyle.trimName_name
      · exact Shorthand.listStyle.trimName_longhand m hm
  obtain ⟨hback, hbox, hborder⟩ := h m hm
  simp only [List.mem_cons, not_or] at hback hborder
  rw [frame_foldBorder.get?_of_not_mem _ m htrim hborder.1 hborder.2,
    get?_foldBoxes_of_not_mem _ htrim fun b => hbox b b.mem_all,
    frame_foldBackground.get?_of_not_mem s m htrim hback.1 hback.2]

/-- The text of a font is the same before and after the folds that come first: they touch none of its
    longhands. -/
theorem fontText?_later :
    fontText? (foldBorder (foldBoxes (foldBackground s).1).1).1 = fontText? s := by
  have hmapM : ∀ names : List String, (∀ m ∈ names, m ∈ lateNames) →
      names.mapM (foldBorder (foldBoxes (foldBackground s).1).1).1.plain? =
        names.mapM s.plain? := by
    intro names
    induction names with
    | nil => exact fun _ => rfl
    | cons m names ih =>
      intro h
      rw [List.mapM_cons, List.mapM_cons, ih fun k hk => h k (List.mem_cons_of_mem _ hk),
        plain?_congr (get?_of_mem_lateNames (h m (by simp)))]
  rw [fontText?, fontText?, hmapM fontLonghands (by decide)]

/-- The longhands of a list style are the same before and after the folds that come first. -/
theorem plainEntries_listStyle_later :
    (foldFont (foldBorder (foldBoxes (foldBackground s).1).1).1).1.plainEntries listStyleLonghands =
      s.plainEntries listStyleLonghands := by
  have h : ∀ m ∈ listStyleLonghands, m ∉ "font" :: fontLonghands ∧ m ∈ lateNames := by decide
  refine List.filterMap_congr fun m hm => ?_
  obtain ⟨hfont, hlate⟩ := h m hm
  simp only [List.mem_cons, not_or] at hfont
  rw [plain?_congr (((frame_foldFont.get?_of_not_mem _ m (Shorthand.listStyle.trimName_longhand m hm)
    hfont.1 hfont.2).trans (get?_of_mem_lateNames hlate)))]

/-- What a fold makes of an important declaration of its target. -/
theorem get?_eq_iff_of_target {o : Option Text} {t : Store} (hs : s.get? n = some d)
    (ht : t.get? n = match o with
      | some v => Value.declarationOfText? v false
      | none => s.get? n)
    (ho : ∀ v, Writes s n v ↔ o = some v) :
    t.get? n = some d ↔ ∀ v, Writes s n v → Value.declarationOfText? v false = some d := by
  rw [ht]
  cases o with
  | none => simp [ho, hs]
  | some v => simp [ho]

/-- The last three folds leave important declarations of other names alone. -/
theorem get?_foldedAll_important (hn : trimName n = n) (hd : d.important = true)
    (hborder : n ≠ "border") (hfont : n ≠ "font") (hlist : n ≠ "list-style") :
    (foldedAll s).get? n = some d ↔ (foldBoxes (foldBackground s).1).1.get? n = some d :=
  (frame_foldListStyle.get?_important _ n d hn hlist hd).trans
    ((frame_foldFont.get?_important _ n d hn hfont hd).trans
      (frame_foldBorder.get?_important _ n d hn hborder hd))

/-- The fold of the background does not read or write these names. -/
theorem get?_foldBackground_of_mem (hn : trimName n = n)
    (hmem : n ∈ "border" :: BoxShorthand.all.map BoxShorthand.name) :
    (foldBackground s).1.get? n = s.get? n := by
  have h : ∀ m ∈ "border" :: BoxShorthand.all.map BoxShorthand.name,
      m ≠ "background" ∧ m ∉ backgroundLonghands := by
    decide
  exact frame_foldBackground.get?_of_not_mem s n hn (h n hmem).1 (h n hmem).2

/-- An important box survives exactly when what its fold writes is the same declaration. -/
theorem box_survives_iff {b : BoxShorthand} (hs : s.get? b.name = some d) (hd : d.important = true) :
    (foldedAll s).get? b.name = some d ↔
      ∀ v, Writes s b.name v → Value.declarationOfText? v false = some d := by
  have h : ∀ b ∈ BoxShorthand.all,
      b.name ≠ "border" ∧ b.name ≠ "font" ∧ b.name ≠ "list-style" := by
    decide
  obtain ⟨hborder, hfont, hlist⟩ := h b b.mem_all
  refine (get?_foldedAll_important b.trimName_name hd hborder hfont hlist).trans
    (get?_eq_iff_of_target (o := (sides? b s).map fun v => joined v.minimal) hs ?_ fun v => ?_)
  · rw [get?_foldBoxes_name, sides?_foldBackground, get?_foldBackground_of_mem b.trimName_name
      (List.mem_cons_of_mem _ (List.mem_map_of_mem b.mem_all))]
    cases sides? b s <;> rfl
  · rw [writes_box_iff, Option.map_eq_some_iff]

/-- An important background survives exactly when what its fold writes is the same declaration. -/
theorem background_survives_iff (hs : s.get? "background" = some d) (hd : d.important = true) :
    (foldedAll s).get? "background" = some d ↔
      ∀ v, Writes s "background" v → Value.declarationOfText? v false = some d := by
  have hbox : ∀ b : BoxShorthand, "background" ≠ b.name := fun b => by cases b <;> decide
  refine (get?_foldedAll_important trimName_background hd (by decide) (by decide)
    (by decide)).trans ((get?_foldBoxes_important trimName_background hbox hd).trans
      (get?_eq_iff_of_target hs (get?_foldBackground s) fun v => ?_))
  simp [writes_iff_of_not_box hbox]

/-- An important border survives exactly when what its fold writes is the same declaration. The text is read
    off the boxes as the folds before have left them. -/
theorem border_survives_iff (hs : s.get? "border" = some d) (hd : d.important = true) :
    (foldedAll s).get? "border" = some d ↔
      ∀ v, Writes s "border" v → Value.declarationOfText? v false = some d := by
  have hn : trimName "border" = "border" := Shorthand.border.trimName_name
  have hbox : ∀ b : BoxShorthand, "border" ≠ b.name := fun b => by cases b <;> decide
  have hscope : ∀ b : BoxShorthand, "border" ∉ b.scope := fun b => by cases b <;> decide
  have hget := get?_foldBorder (foldBoxes (foldBackground s).1).1
  rw [get?_foldBoxes_of_not_mem _ hn hscope, get?_foldBackground_of_mem hn List.mem_cons_self] at hget
  have hfold := get?_eq_iff_of_target hs hget fun v => by simp [writes_iff_of_not_box hbox]
  exact (frame_foldListStyle.get?_important _ _ d hn (by decide) hd).trans
    ((frame_foldFont.get?_important _ _ d hn (by decide) hd).trans hfold)

/-- An important font survives exactly when what its fold writes is the same declaration. -/
theorem font_survives_iff (hs : s.get? "font" = some d) (hd : d.important = true) :
    (foldedAll s).get? "font" = some d ↔
      ∀ v, Writes s "font" v → Value.declarationOfText? v false = some d := by
  have hn : trimName "font" = "font" := Shorthand.font.trimName_name
  have hbox : ∀ b : BoxShorthand, "font" ≠ b.name := fun b => by cases b <;> decide
  have hget := get?_foldFont (foldBorder (foldBoxes (foldBackground s).1).1).1
  rw [fontText?_later, get?_of_mem_lateNames (by decide)] at hget
  have hfold := get?_eq_iff_of_target hs hget fun v => by simp [writes_iff_of_not_box hbox]
  exact (frame_foldListStyle.get?_important _ _ d hn (by decide) hd).trans hfold

/-- An important list style survives exactly when what its fold writes is the same declaration. -/
theorem listStyle_survives_iff (hs : s.get? "list-style" = some d) :
    (foldedAll s).get? "list-style" = some d ↔
      ∀ v, Writes s "list-style" v → Value.declarationOfText? v false = some d := by
  have hn : trimName "list-style" = "list-style" := Shorthand.listStyle.trimName_name
  have hbox : ∀ b : BoxShorthand, "list-style" ≠ b.name := fun b => by cases b <;> decide
  have hget := get?_foldListStyle (foldFont (foldBorder (foldBoxes (foldBackground s).1).1).1).1
  rw [plainEntries_listStyle_later, frame_foldFont.get?_of_not_mem _ _ hn (by decide) (by decide),
    get?_of_mem_lateNames (by decide)] at hget
  exact get?_eq_iff_of_target hs hget fun v => by simp [writes_iff_of_not_box hbox]

/-- **When an important declaration survives folding.**  Folding never fails, and it leaves an important
    declaration as it was, in value and importance, if and only if all that it writes under that name
    declares the very same. -/
theorem important_survives_iff (h : (n, d) ∈ s.entries) (hd : d.important = true) :
    ∃ t, Edit.foldAll.after s = .ok t ∧
      (t.get? n = some d ↔ ∀ v, Writes s n v → Value.declarationOfText? v false = some d) := by
  refine ⟨_, after_foldAll s, ?_⟩
  have hs := Store.get?_of_mem h
  have hn : trimName n = n := s.trimName_of_mem n (Entries.mem_names_of_mem h)
  by_cases hbox : ∃ b : BoxShorthand, n = b.name
  · obtain ⟨b, rfl⟩ := hbox
    exact box_survives_iff hs hd
  have hbox : ∀ b : BoxShorthand, n ≠ b.name := fun b hb => hbox ⟨b, hb⟩
  by_cases hback : n = "background"
  · subst hback
    exact background_survives_iff hs hd
  by_cases hborder : n = "border"
  · subst hborder
    exact border_survives_iff hs hd
  by_cases hfont : n = "font"
  · subst hfont
    exact font_survives_iff hs hd
  by_cases hlist : n = "list-style"
  · subst hlist
    exact listStyle_survives_iff hs
  -- Nothing is written under any other name.
  have hkept : (foldedAll s).get? n = some d :=
    (get?_foldedAll_important hn hd hborder hfont hlist).mpr ((get?_foldBoxes_important hn hbox hd).mpr
      ((frame_foldBackground.get?_important s n d hn hback hd).mpr hs))
  refine ⟨fun _ v hv => ?_, fun _ => hkept⟩
  simp [writes_iff_of_not_box hbox, hback, hborder, hfont, hlist] at hv

/-- Four margins that can be folded, between an important padding of the top and an important margin. -/
def marked : Store :=
  .ofList [("padding-top", .text "1px!important".toList), ("margin-top", .text "1px".toList),
    ("margin-right", .text "1px".toList), ("margin-bottom", .text "1px".toList),
    ("margin-left", .text "1px".toList), ("margin", .text "2px!important".toList)]

/-- Two declarations of one store: the longhand survives, as nothing writes it, and the shorthand is
    overwritten by the fold of its plain longhands. -/
theorem marked_important_survives_iff :
    (("padding-top", ⟨"1px".toList, true⟩) ∈ marked.entries ∧
      ∃ t, Edit.foldAll.after marked = .ok t ∧
        (t.get? "padding-top" = some ⟨"1px".toList, true⟩ ↔
          ∀ v, Writes marked "padding-top" v →
            Value.declarationOfText? v false = some ⟨"1px".toList, true⟩)) ∧
    ("margin", ⟨"2px".toList, true⟩) ∈ marked.entries ∧
      ∃ t, Edit.foldAll.after marked = .ok t ∧
        (t.get? "margin" = some ⟨"2px".toList, true⟩ ↔
          ∀ v, Writes marked "margin" v →
            Value.declarationOfText? v false = some ⟨"2px".toList, true⟩) := by
  have hpadding : ("padding-top", ⟨"1px".toList, true⟩) ∈ marked.entries := by decide +kernel
  have hmargin : ("margin", ⟨"2px".toList, true⟩) ∈ marked.entries := by decide +kernel
  exact ⟨⟨hpadding, important_survives_iff hpadding rfl⟩,
    hmargin, important_survives_iff hmargin rfl⟩

/-- **An important declaration need not survive.**  The margins are folded over the important margin. -/
theorem not_important_survives :
    ¬∀ (s : Store) (n : String) (d : Declaration), (n, d) ∈ s.entries → d.important = true →
      ∃ t, Edit.foldAll.after s = .ok t ∧ t.get? n = some d := by
  intro h
  obtain ⟨t, ht, hget⟩ := h marked "margin" ⟨"2px".toList, true⟩ (by decide +kernel) rfl
  have hlost : (foldedAll marked).get? "margin" ≠ some ⟨"2px".toList, true⟩ := by decide +kernel
  rw [after_foldAll, Except.ok.injEq] at ht
  exact hlost (ht ▸ hget)

end Folding

end CssShorthand
