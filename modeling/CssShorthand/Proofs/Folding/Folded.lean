/-
  WHAT FOLDING ALL LEAVES.

  In a store of longhands that are not important (`Unfolded`) a shorthand is written or not by what is
  declared of its longhands (`foldText?`).  What is written is declared in the end
  (`get?_foldedAll_name`), but for the boxes of a border that is written itself, and a longhand is left
  exactly if its shorthand is not written (`get?_foldedAll_longhand`).

  This is the description of the folded store by lookups: for each name either what was there, or nothing,
  or what was written. There is one text to each shorthand (`foldText?`), read off the store before all
  folds, so what the folds do to each other is dealt with here once and for all.
-/
import CssShorthand.Proofs.Cascade.Separate
import CssShorthand.Proofs.Folding.Importance

namespace CssShorthand

open List

namespace Folding

/-- A store of longhands, of which none is important and none has a mark in its value. -/
structure Unfolded (s : Store) : Prop where
  new : ∀ sh : Shorthand, sh.name ∉ s.names
  plain : ∀ x ∈ s.entries, x.2.important = false
  mark : ∀ x ∈ s.entries, '!' ∉ x.2.value

/-- The text that folding all writes for a shorthand, if it does. -/
def foldText? (s : Store) : Shorthand → Option Text
  | .background => backgroundText? s
  | .box b => (sides? b s).map fun v => joined v.minimal
  | .border => borderText? (foldBoxes (foldBackground s).1).1
  | .borderSide _ => none
  | .font => fontText? s
  | .listStyle => partsText? 3 (s.plainEntries listStyleLonghands)

variable {s t : Store} {n : String}

namespace Unfolded

/-- That a store is such a store can be decided. -/
theorem of_decide (s : Store) (h : (Shorthand.all.all fun sh => !s.names.contains sh.name) &&
    (s.entries.all fun x => !x.2.important && !x.2.value.contains '!') = true) : Unfolded s := by
  simp only [Bool.and_eq_true, all_eq_true, Bool.not_eq_true', decide_eq_true_eq] at h
  obtain ⟨hnew, hentries⟩ := h
  refine ⟨fun sh hm => ?_, fun x hx => (hentries x hx).1, fun x hx hm => ?_⟩
  · have := hnew sh sh.mem_all
    simp [hm] at this
  · have := (hentries x hx).2
    simp [hm] at this

/-- A store of longhands only has no shorthand. -/
theorem get?_name (h : Unfolded s) (sh : Shorthand) : s.get? sh.name = none :=
  Store.get?_of_not_mem sh.trimName_name (h.new sh)

/-- A store of longhands only has no important declaration. -/
theorem important_eq (h : Unfolded s) (htrim : trimName n = n) {d : Declaration} (hd : s.get? n = some d) :
    d.important = false :=
  h.plain _ ((Store.get?_eq_some_iff htrim).mp hd)

/-- All that is declared is plainly declared. -/
theorem plain?_eq (h : Unfolded s) (htrim : trimName n = n) : s.plain? n = (s.get? n).map (·.value) := by
  unfold Store.plain?
  cases hd : s.get? n with
  | none => rfl
  | some d => simp [h.important_eq htrim hd]

/-- Nothing is important, so a name without a plain value is not declared. -/
theorem plain?_eq_none_iff (h : Unfolded s) (htrim : trimName n = n) :
    s.plain? n = none ↔ s.get? n = none := by
  rw [h.plain?_eq htrim, Option.map_eq_none_iff]

end Unfolded

/-! ## The longhands of one fold

  Each fold by itself, from the frame that it has.
-/

/-- A fold takes its longhands out if it writes. -/
theorem get?_of_write {longhands : List String} {target : String} {o : Option Text}
    (hlong : ∀ m ∈ longhands, trimName m = m) (htarget : trimName target = target)
    (hfold : t = match o with
      | some v => write longhands target v s
      | none => s) (hn : n ∈ longhands) (hne : n ≠ target) :
    t.get? n = if o.isSome then none else s.get? n := by
  subst hfold
  cases o with
  | none => rfl
  | some v => simp [get?_write s hlong htarget (hlong n hn), Ne.symm hne, hn]

/-- So does a fold of what is there. -/
theorem get?_foldAvailable_of_plain {names : List String} (hnodup : names.Nodup)
    (hnames : ∀ m ∈ names, trimName m = m) {target : String} (htarget : trimName target = target)
    (hplain : s.plain? n = none → s.get? n = none) (hn : n ∈ names) (hne : n ≠ target) :
    (foldAvailable names target s).1.get? n =
      if (partsText? names.length (s.plainEntries names)).isSome then none else s.get? n := by
  rw [get?_foldAvailable_of_mem hnodup hnames htarget s hn hne]
  cases hv : s.plain? n with
  | none => simp [hplain hv]
  | some v => simp

/-- The longhands of a font are gone after the fold, if it took place. -/
theorem get?_foldFont_of_mem (hn : n ∈ fontLonghands) :
    (foldFont s).1.get? n = if (fontText? s).isSome then none else s.get? n :=
  get?_of_write Shorthand.font.trimName_longhand Shorthand.font.trimName_name (foldFont_eq s) hn
    fun h => absurd (h ▸ hn) (by decide)

/-- The boxes of a border are gone after the fold, if it took place. -/
theorem get?_foldBorder_of_mem (hn : n ∈ borderBoxes) :
    (foldBorder s).1.get? n = if (borderText? s).isSome then none else s.get? n :=
  get?_of_write trimName_borderBoxes Shorthand.border.trimName_name (foldBorder_eq s) hn
    fun h => absurd (h ▸ hn) (by decide)

namespace Unfolded

/-- No position is important. -/
theorem positionKept_eq (h : Unfolded s) : positionKept s = false := by
  unfold positionKept
  cases hd : s.get? "background-position" with
  | none => rfl
  | some d => simp [h.important_eq (by decide) hd]

/-- All longhands of a background take part. -/
theorem backgroundNames_eq (h : Unfolded s) : backgroundNames s = backgroundLonghands := by
  simp [backgroundNames, h.positionKept_eq]

/-- The longhands of a background are gone after the fold, if it took place. A position that was added for the
    sake of the size goes with them. -/
theorem get?_foldBackground_of_mem (h : Unfolded s) (hn : n ∈ backgroundLonghands) :
    (foldBackground s).1.get? n = if (backgroundText? s).isSome then none else s.get? n := by
  cases htext : backgroundText? s with
  | none =>
    rw [foldBackground_eq_self htext]
    rfl
  | some v =>
    obtain ⟨t, ht, hfold⟩ := foldBackground_eq s
    have htrim := trimName_backgroundLonghands n hn
    -- Nothing important is declared before, nor in the store that is prepared.
    have hplain : t.plain? n = none → t.get? n = none := by
      intro hnone
      cases hd : t.get? n with
      | none => rfl
      | some d =>
        cases hd' : d.important with
        | true =>
          have := h.important_eq htrim ((ht.get?_important n d htrim hd').mp hd)
          rw [hd'] at this
          contradiction
        | false => simp [Store.plain?, hd, hd'] at hnone
    rw [backgroundText?, ← ht.plainEntries_eq] at htext
    rw [hfold, get?_foldAvailable_of_plain (nodup_backgroundNames s)
      (fun m hm => trimName_backgroundLonghands m (backgroundNames_subset s hm)) trimName_background hplain
      (h.backgroundNames_eq ▸ hn) fun h => absurd (h ▸ hn) (by decide), htext]
    rfl

end Unfolded

/-! ## All folds

  A name is looked up backwards through the folds; those that have nothing to do with it are passed by their
  frames.
-/

/-- The names that a fold reads or writes. -/
def folded : List String :=
  "background" :: backgroundLonghands ++ (BoxShorthand.all.flatMap BoxShorthand.scope ++
    ("border" :: borderBoxes ++ lateNames))

/-- All other names are left alone. -/
theorem get?_foldedAll_of_not_mem (htrim : trimName n = n) (hn : n ∉ folded) :
    (foldedAll s).get? n = s.get? n := by
  simp only [folded, lateNames, mem_append, mem_cons, mem_flatMap, not_or, not_exists, not_and] at hn
  obtain ⟨⟨hback, hbacks⟩, hbox, ⟨hborder, hborders⟩, ⟨hfont, hfonts⟩, hlist, hlists⟩ := hn
  rw [foldedAll, frame_foldListStyle.get?_of_not_mem _ n htrim hlist hlists,
    frame_foldFont.get?_of_not_mem _ n htrim hfont hfonts,
    frame_foldBorder.get?_of_not_mem _ n htrim hborder hborders,
    get?_foldBoxes_of_not_mem _ htrim fun b => hbox b b.mem_all,
    frame_foldBackground.get?_of_not_mem _ n htrim hback hbacks]

/-- The folds after the boxes leave names of other properties alone. -/
theorem get?_foldedAll_eq_border (htrim : trimName n = n) (hn : n ∉ lateNames) :
    (foldedAll s).get? n = (foldBorder (foldBoxes (foldBackground s).1).1).1.get? n := by
  simp only [lateNames, mem_append, mem_cons, not_or] at hn
  obtain ⟨⟨hfont, hfonts⟩, hlist, hlists⟩ := hn
  rw [foldedAll, frame_foldListStyle.get?_of_not_mem _ n htrim hlist hlists,
    frame_foldFont.get?_of_not_mem _ n htrim hfont hfonts]

/-- The last three folds leave alone what is not theirs. -/
theorem get?_foldedAll_eq_boxes (htrim : trimName n = n) (hn : n ∉ "border" :: borderBoxes ++ lateNames) :
    (foldedAll s).get? n = (foldBoxes (foldBackground s).1).1.get? n := by
  rw [mem_append, not_or] at hn
  obtain ⟨hborder, hlate⟩ := hn
  rw [mem_cons, not_or] at hborder
  rw [get?_foldedAll_eq_border htrim hlate, frame_foldBorder.get?_of_not_mem _ n htrim hborder.1 hborder.2]

/-- The folds behind the first one leave alone what is not theirs. -/
theorem get?_foldedAll_eq_background (htrim : trimName n = n)
    (hn : n ∉ BoxShorthand.all.flatMap BoxShorthand.scope ++ ("border" :: borderBoxes ++ lateNames)) :
    (foldedAll s).get? n = (foldBackground s).1.get? n := by
  rw [mem_append, not_or] at hn
  rw [get?_foldedAll_eq_boxes htrim hn.2,
    get?_foldBoxes_of_not_mem _ htrim fun b hb => hn.1 (mem_flatMap.mpr ⟨b, b.mem_all, hb⟩)]

namespace Unfolded

/-- **What is left of a longhand**: all or nothing, as its shorthand is not written or is. -/
theorem get?_foldedAll_longhand (h : Unfolded s) {sh : Shorthand} (hn : n ∈ sh.longhands)
    (hsh : ∀ side, sh ≠ .borderSide side) (hborder : sh ≠ .border) :
    (foldedAll s).get? n = if (foldText? s sh).isSome then none else s.get? n := by
  have htrim := sh.trimName_longhand n hn
  -- For each shorthand the folds before and behind its own leave its longhands alone.
  cases sh with
  | background =>
    have hlater : ∀ m ∈ backgroundLonghands,
        m ∉ BoxShorthand.all.flatMap BoxShorthand.scope ++ ("border" :: borderBoxes ++ lateNames) := by
      decide
    rw [get?_foldedAll_eq_background htrim (hlater n hn)]
    exact h.get?_foldBackground_of_mem hn
  | box b =>
    have hlater : ∀ b ∈ BoxShorthand.all, ∀ m ∈ b.longhands.toList, m ∉ "border" :: borderBoxes ++ lateNames ∧
        m ≠ "background" ∧ m ∉ backgroundLonghands := by
      decide
    obtain ⟨hlate, hback⟩ := hlater b b.mem_all n hn
    rw [get?_foldedAll_eq_boxes htrim hlate, get?_foldBoxes_longhand b _ hn, sides?_foldBackground,
      frame_foldBackground.get?_of_not_mem _ n htrim hback.1 hback.2, foldText?, Option.isSome_map]
  | font =>
    have hlist : ∀ m ∈ fontLonghands, m ≠ "list-style" ∧ m ∉ listStyleLonghands ∧ m ∈ lateNames := by
      decide
    obtain ⟨hname, hlong, hlate⟩ := hlist n hn
    rw [foldedAll, frame_foldListStyle.get?_of_not_mem _ n htrim hname hlong, get?_foldFont_of_mem hn,
      fontText?_later, get?_of_mem_lateNames hlate]
    rfl
  | listStyle =>
    have hfont : ∀ m ∈ listStyleLonghands, m ≠ "font" ∧ m ∉ fontLonghands ∧ m ∈ lateNames := by
      decide
    obtain ⟨hname, hlong, hlate⟩ := hfont n hn
    have hget : (foldFont (foldBorder (foldBoxes (foldBackground s).1).1).1).1.get? n = s.get? n := by
      rw [frame_foldFont.get?_of_not_mem _ n htrim hname hlong, get?_of_mem_lateNames hlate]
    have hplain := plainEntries_listStyle_later (s := s)
    have hlist := get?_foldAvailable_of_plain Shorthand.listStyle.nodup_longhands
      Shorthand.listStyle.trimName_longhand Shorthand.listStyle.trimName_name (fun hnone => by
        rw [plain?_congr hget, h.plain?_eq_none_iff htrim] at hnone
        rw [hget, hnone]) hn fun h => absurd (h ▸ hn) (by decide)
    rw [hget] at hlist
    exact hlist.trans (by rw [foldText?, ← hplain]; rfl)
  | border => contradiction
  | borderSide side => exact absurd rfl (hsh side)

/-- What is declared of a box before the border is folded: what is written for it. -/
theorem get?_foldBoxes (h : Unfolded s) (b : BoxShorthand) : (foldBoxes (foldBackground s).1).1.get? b.name =
    (foldText? s (.box b)).bind fun v => Value.declarationOfText? v false := by
  have hapart : ∀ b ∈ BoxShorthand.all, b.name ≠ "background" ∧ b.name ∉ backgroundLonghands := by
    decide
  obtain ⟨hname, hback⟩ := hapart b b.mem_all
  have hnone : s.get? b.name = none := h.get?_name (.box b)
  rw [get?_foldBoxes_name, sides?_foldBackground, frame_foldBackground.get?_of_not_mem _ _ b.trimName_name
    hname hback, hnone, foldText?]
  cases sides? b s <;> rfl

/-- **What is declared of a shorthand**: what is written for it, but for the boxes of a border that is
    written. -/
theorem get?_foldedAll_name (h : Unfolded s) (sh : Shorthand) : (foldedAll s).get? sh.name =
    if sh.name ∈ borderBoxes ∧ (foldText? s .border).isSome then none
    else (foldText? s sh).bind fun v => Value.declarationOfText? v false := by
  have htrim := sh.trimName_name
  have hnone := h.get?_name sh
  have hmatch : ∀ o : Option Text, (match o with
      | some v => Value.declarationOfText? v false
      | none => s.get? sh.name) = o.bind fun v => Value.declarationOfText? v false := by
    rintro (_ | v)
    · exact hnone
    · rfl
  -- For each shorthand the lookup goes back through the later folds to its own.
  cases sh with
  | background =>
    rw [get?_foldedAll_eq_background htrim (by decide), if_neg fun hm => absurd hm.1 (by decide), ← hmatch]
    exact get?_foldBackground s
  | box b =>
    have hlater : ∀ b ∈ BoxShorthand.all, b.name ∉ lateNames ∧ b.name ≠ "border" := by
      decide
    obtain ⟨hlate, hborder⟩ := hlater b b.mem_all
    rw [get?_foldedAll_eq_border htrim hlate, ← h.get?_foldBoxes]
    by_cases hmem : b.name ∈ borderBoxes
    · refine (get?_foldBorder_of_mem hmem).trans ?_
      simp only [Shorthand.name, hmem, true_and]
      rfl
    · rw [if_neg fun hm => hmem hm.1]
      exact frame_foldBorder.get?_of_not_mem _ _ htrim hborder hmem
  | border =>
    rw [get?_foldedAll_eq_border htrim (by decide), if_neg fun hm => absurd hm.1 (by decide), ← hmatch]
    have hbefore : (foldBoxes (foldBackground s).1).1.get? Shorthand.border.name =
        s.get? Shorthand.border.name := by
      rw [get?_foldBoxes_of_not_mem _ htrim fun b => by cases b <;> decide,
        frame_foldBackground.get?_of_not_mem _ _ htrim (by decide) (by decide)]
    rw [← hbefore]
    exact get?_foldBorder _
  | borderSide side =>
    have hother : (Shorthand.borderSide side).name ∉ folded := by cases side <;> decide
    rw [get?_foldedAll_of_not_mem htrim hother, hnone]
    exact (ite_self none).symm
  | font =>
    have hbefore : (foldBorder (foldBoxes (foldBackground s).1).1).1.get? Shorthand.font.name =
        s.get? Shorthand.font.name := get?_of_mem_lateNames (by decide)
    rw [if_neg fun hm => absurd hm.1 (by decide), ← hmatch, foldedAll,
      frame_foldListStyle.get?_of_not_mem _ _ htrim (by decide) (by decide), ← hbefore, foldText?,
      ← fontText?_later]
    exact get?_foldFont _
  | listStyle =>
    have hbefore : (foldFont (foldBorder (foldBoxes (foldBackground s).1).1).1).1.get?
        Shorthand.listStyle.name = s.get? Shorthand.listStyle.name := by
      rw [frame_foldFont.get?_of_not_mem _ _ htrim (by decide) (by decide), get?_of_mem_lateNames (by decide)]
    rw [if_neg fun hm => absurd hm.1 (by decide), ← hmatch, foldedAll, ← hbefore, foldText?,
      ← plainEntries_listStyle_later]
    exact get?_foldListStyle _

end Unfolded

end Folding

end CssShorthand
