/-
  WHAT STANDS FOR A GROUP OF LONGHANDS ONCE ALL IS FOLDED.

  In a store of longhands that are not important (`Unfolded`) each group of longhands has one shorthand
  that says what its longhands become when all is expanded again.  `Stands` gives the value of it in terms
  of the store before, without a run of the folds.

    1.  It is what the fold of the group writes, or, where the boxes of the border are folded again, what
        `border` sets of the box (`Unfolded.stands_iff`).
    2.  A longhand has after folding and expanding what it had before, if its group was not folded, and
        else what the value that stands for its group sets (`Unfolded.get?_after_iff`).
    3.  Expanding fails exactly if a box that was written has not one to four parts, or a font that was
        written is rejected (`Garbles`, `Unfolded.exists_error_iff_garbles`).  A box that `border` takes up
        can always be read.
-/
import CssShorthand.Proofs.Cascade.Failure
import CssShorthand.Proofs.Folding.Remains

namespace CssShorthand

open List

/-! ## What a shorthand sets -/

/-- The value that a text declares. -/
def declared? (text : Text) : Option Text := (Value.declarationOfText? text false).map (·.value)

/-- **What a shorthand sets of another name** is declared by a text that its value expands to. -/
theorem mem_spread_iff {sh : Shorthand} {c : Declaration} {m : String} {v : Text} (hne : m ≠ sh.name) :
    (m, ⟨v, c.important⟩) ∈ spread (sh.name, c) ↔ ∃ es ignored,
      sh.expand c.value = .ok (.longhands es ignored) ∧ ∃ w, (m, w) ∈ es ∧ declared? w = some v := by
  have hself : (m, (⟨v, c.important⟩ : Declaration)) ∉ [(sh.name, c)] := fun hm =>
    hne (congrArg Prod.fst (mem_singleton.mp hm))
  have hexpand : expandValue sh.name c.value = sh.expand c.value := by
    rw [expandValue, Shorthand.ofName?_name]
  rw [spread, hexpand]
  -- If the value cannot be read, or is kept whole, nothing but the shorthand itself is set.
  cases h : sh.expand c.value with
  | error f => simp [hself]
  | ok e =>
    cases e with
    | whole => simp [Expansion.entries, hself]
    | longhands es ignored =>
      simp only [Expansion.entries, declarationsOf, mem_filterMap, Option.map_eq_some_iff]
      constructor
      · rintro ⟨⟨n, w⟩, hw, d, hd, heq⟩
        obtain ⟨rfl, hdv⟩ := Prod.mk.inj heq
        refine ⟨es, ignored, rfl, w, hw, ?_⟩
        rw [declared?, hd]
        exact congrArg some (congrArg Declaration.value hdv)
      · rintro ⟨_, _, heq, w, hw, hv⟩
        obtain ⟨rfl, -⟩ := Expansion.longhands.inj (Except.ok.inj heq)
        obtain ⟨d, hd, rfl⟩ := Option.map_eq_some_iff.mp hv
        exact ⟨(m, w), hw, d, hd, rfl⟩

namespace Folding

variable {s t : Store} {m n : String} {v w : Text} {c d : Declaration} {a sh : Shorthand}

/-- What stands for a shorthand when all is folded, in terms of the store before. -/
inductive Stands (s : Store) : Shorthand → Text → Prop
  /-- What is written for it, unless `border` takes it up. -/
  | written {sh : Shorthand} {v w : Text} (hv : foldText? s sh = some v) (hw : declared? v = some w)
      (hkept : sh.name ∈ borderBoxes → foldText? s .border = none) : Stands s sh w
  /-- What `border` sets of a box, if it is written. -/
  | border {b : BoxShorthand} {v w x u : Text} {es : List (String × Text)} {ignored : Text}
      (hv : foldText? s .border = some v) (hw : declared? v = some w)
      (hes : Shorthand.border.expand w = .ok (.longhands es ignored)) (hx : (b.name, x) ∈ es)
      (hu : declared? x = some u) : Stands s (.box b) u

/-- A text that folding writes cannot be read. -/
inductive Garbles (s : Store) : Prop
  /-- Four sides that have not one to four parts together. -/
  | box {b : BoxShorthand} {v : Sides Text} {w : Text} (hv : sides? b s = some v)
      (hw : declared? (joined v.minimal) = some w) (hparts : Component.Misfits w)
  /-- The longhands of a font that are rejected together. -/
  | font {v w : Text} (hv : fontText? s = some v) (hw : declared? v = some w)
      (hkeyword : cssWideKeyword? w = none) (hrejected : ∃ f, FontReading.ofValue w = .error f)

/-- No shorthand of longhands has the name of the border. -/
theorem name_ne_border (ha : a ∈ ofLonghands) : a.name ≠ Shorthand.border.name := fun h =>
  (ne_of_mem_ofLonghands ha).1 (Shorthand.name_injective h)

/-- On the first level a shorthand of longhands stays as it is. -/
theorem first_of_mem_ofLonghands (ha : a ∈ ofLonghands) (d : Declaration) :
    Cascade.first (a.name, d) = [(a.name, d)] :=
  (Cascade.first_cases (a.name, d)).elim (·.2) fun h => absurd h.1 (name_ne_border ha)

/-- A longhand belongs to one group. -/
theorem eq_of_mem_reach {b : Shorthand} (ha : a ∈ ofLonghands) (hb : b ∈ ofLonghands) (hm : m ∈ a.longhands)
    (hreach : m ∈ Shorthand.reach b.name) : b = a := by
  have hall : ∀ a ∈ ofLonghands, ∀ b ∈ ofLonghands, ∀ m ∈ a.longhands, m ∈ Shorthand.reach b.name → b = a := by
    decide +kernel
  exact hall a ha b hb m hm hreach

/-- A longhand of a group is no shorthand itself. -/
theorem ofName?_of_mem_longhands (hsh : sh ∈ ofLonghands) (hn : n ∈ sh.longhands) :
    Shorthand.ofName? n = none := by
  have hall : ∀ sh ∈ ofLonghands, ∀ n ∈ sh.longhands, Shorthand.ofName? n = none := by decide +kernel
  exact hall sh hsh n hn

namespace Unfolded

/-- What is written declares nothing important. -/
theorem declarationOfText?_eq_some_iff (h : Unfolded s) (hv : foldText? s sh = some v) :
    Value.declarationOfText? v false = some d ↔ ∃ w, declared? v = some w ∧ d = ⟨w, false⟩ := by
  have hplain : ∀ {d}, Value.declarationOfText? v false = some d → d = ⟨d.value, false⟩ := fun hd => by
    rw [← (Cleaning.declarationOfText?_of_not_mem (h.not_mem_foldText? hv) hd).1]
  constructor
  · exact fun hd => ⟨d.value, by rw [declared?, hd]; rfl, hplain hd⟩
  · rintro ⟨w, hw, rfl⟩
    obtain ⟨e, he, rfl⟩ := Option.map_eq_some_iff.mp hw
    rw [he, hplain he]

/-- **A shorthand of the folded store was written**, and `border` did not take it up. -/
theorem mem_foldedAll_iff (h : Unfolded s) (sh : Shorthand) :
    (sh.name, d) ∈ (foldedAll s).entries ↔ ∃ v w, foldText? s sh = some v ∧ declared? v = some w ∧
      d = ⟨w, false⟩ ∧ (sh.name ∈ borderBoxes → foldText? s .border = none) := by
  rw [← Store.get?_eq_some_iff sh.trimName_name, h.get?_foldedAll_name]
  split
  · rename_i htaken
    simp only [reduceCtorEq, false_iff]
    rintro ⟨v, w, -, -, -, hkept⟩
    rw [hkept htaken.1] at htaken
    exact absurd htaken.2 (by decide)
  · rename_i hkept
    have hnone : sh.name ∈ borderBoxes → foldText? s .border = none := fun hmem =>
      Option.not_isSome_iff_eq_none.mp fun hsome => hkept ⟨hmem, hsome⟩
    rw [Option.bind_eq_some_iff]
    constructor
    · rintro ⟨v, hv, hd⟩
      obtain ⟨w, hw, hdw⟩ := (h.declarationOfText?_eq_some_iff hv).mp hd
      exact ⟨v, w, hv, hw, hdw, hnone⟩
    · rintro ⟨v, w, hv, hw, hdw, -⟩
      exact ⟨v, hv, (h.declarationOfText?_eq_some_iff hv).mpr ⟨w, hw, hdw⟩⟩

/-- **What stands for a shorthand** is what it is on the second level of the folded store, from which all
    longhands are set. -/
theorem stands_iff (h : Unfolded s) (ha : a ∈ ofLonghands) :
    Stands s a w ↔ ∃ x ∈ (foldedAll s).entries, (a.name, ⟨w, false⟩) ∈ Cascade.first x := by
  constructor
  · intro hstands
    cases hstands with
    | @written _ v _ hv hw hkept =>
      refine ⟨(a.name, ⟨w, false⟩), (h.mem_foldedAll_iff a).mpr ⟨v, w, hv, hw, rfl, hkept⟩, ?_⟩
      rw [first_of_mem_ofLonghands ha]
      exact mem_singleton_self _
    | @border b v u x w es ignored hv hu hes hx hw =>
      refine ⟨(Shorthand.border.name, ⟨u, false⟩),
        (h.mem_foldedAll_iff .border).mpr ⟨v, u, hv, hu, rfl, fun hmem => absurd hmem (by decide)⟩, ?_⟩
      have hset := mem_spread_iff (c := ⟨u, false⟩) (v := w) (name_ne_border ha)
      rw [Cascade.first, if_pos rfl]
      exact hset.mpr ⟨es, ignored, hes, x, hx, hw⟩
  · rintro ⟨⟨n, d⟩, hx, hfirst⟩
    rcases h.declared_or_written hx with ⟨hname, -⟩ | ⟨sh, _, rfl, -⟩
    · -- A longhand that was left sets itself only.
      have hborder : n ≠ Shorthand.border.name := by
        rintro rfl
        rw [Shorthand.ofName?_name] at hname
        cases hname
      rw [Cascade.first, if_neg hborder, mem_singleton] at hfirst
      obtain ⟨rfl, -⟩ := Prod.mk.inj hfirst
      rw [Shorthand.ofName?_name] at hname
      cases hname
    · obtain ⟨v, u, hv, hu, rfl, hkept⟩ := (h.mem_foldedAll_iff sh).mp hx
      rcases cases_of_foldText? (s := s) (by rw [hv]; rfl) with hsh | rfl
      · rw [first_of_mem_ofLonghands hsh, mem_singleton] at hfirst
        obtain ⟨hname, hd⟩ := Prod.mk.inj hfirst
        obtain rfl := Shorthand.name_injective hname
        obtain ⟨rfl, -⟩ := Declaration.mk.inj hd
        exact .written hv hu hkept
      · rw [Cascade.first, if_pos rfl] at hfirst
        obtain ⟨es, ignored, hes, x, hx, hw⟩ := (mem_spread_iff (name_ne_border ha)).mp hfirst
        have hboxes : ∀ a ∈ ofLonghands, a.name ∈ Shorthand.border.longhands →
            ∃ b ∈ BoxShorthand.all, a = .box b := by
          decide +kernel
        have hmem : a.name ∈ Shorthand.border.longhands :=
          (Shorthand.names_expand_sublist hes).subset (mem_map.mpr ⟨_, hx, rfl⟩)
        obtain ⟨b, -, rfl⟩ := hboxes a ha hmem
        exact .border hv hu hes hx hw

/-- Where a longhand is left, its group was not folded. -/
theorem get?_foldedAll_eq_some_iff (h : Unfolded s) (hsh : sh ∈ ofLonghands) (hn : n ∈ sh.longhands) :
    (foldedAll s).get? n = some d ↔ foldText? s sh = none ∧ s.get? n = some d := by
  obtain ⟨hborder, hside⟩ := ne_of_mem_ofLonghands hsh
  rw [h.get?_foldedAll_longhand hn hside hborder]
  cases foldText? s sh <;> simp

/-- A group for which something stands was folded. -/
theorem foldText?_ne_none (h : Unfolded s) (hstands : Stands s a w) : foldText? s a ≠ none := by
  cases hstands with
  | written hv =>
    rw [hv]
    exact Option.some_ne_none _
  | @border b v u x _ es ignored hv _ hes hx _ =>
    have hboxes : ∀ b ∈ BoxShorthand.all, b.name ∈ Shorthand.border.longhands → b.name ∈ borderBoxes := by
      decide
    have hmem : b.name ∈ Shorthand.border.longhands :=
      (Shorthand.names_expand_sublist hes).subset (mem_map.mpr ⟨_, hx, rfl⟩)
    have hsome := h.isSome_foldText?_box (by rw [hv]; rfl) (hboxes b b.mem_all hmem)
    exact Option.isSome_iff_ne_none.mp hsome

/-- **What a longhand is after folding and expanding**: what it was, if its group was not folded, and else
    what is set by the value that stands for the group. -/
theorem get?_after_iff (h : Unfolded s) (ha : a ∈ ofLonghands) (hm : m ∈ a.longhands)
    (ht : Edit.expandAll.after (foldedAll s) = .ok t) :
    t.get? m = some d ↔ foldText? s a = none ∧ s.get? m = some d ∨
      ∃ w, Stands s a w ∧ (m, d) ∈ spread (a.name, ⟨w, false⟩) := by
  have htrim := a.trimName_longhand m hm
  rw [Store.get?_eq_some_iff htrim, h.separate.mem_after_iff ht]
  constructor
  · rintro ⟨x, hx, hfull⟩
    obtain ⟨⟨k, c⟩, hy, hset⟩ := mem_flatMap.mp hfull
    rcases h.declared_or_written hx with ⟨hname, -⟩ | ⟨sh, v, hxsh, hv, -, -⟩
    · rw [Cascade.full_of_not_shorthand hname, mem_singleton] at hfull
      subst hfull
      exact Or.inl ((h.get?_foldedAll_eq_some_iff ha hm).mp (Store.get?_of_mem hx))
    · -- The declaration of the second level that sets the longhand is one of its own group.
      obtain ⟨b, hb, rfl⟩ : ∃ b ∈ ofLonghands, b.name = k := by
        have hboxes : ∀ k ∈ Shorthand.border.longhands, ∃ b ∈ ofLonghands, b.name = k := by decide +kernel
        rcases Cascade.first_cases x with ⟨hne, hfirst⟩ | ⟨-, hlong⟩
        · rw [hfirst, mem_singleton] at hy
          refine ⟨sh, (cases_of_foldText? (s := s) (by rw [hv]; rfl)).resolve_right ?_, ?_⟩
          · rintro rfl
            exact hne hxsh
          · rw [← hxsh, ← hy]
        · exact hboxes k (hlong _ hy)
      have hreach : m ∈ Shorthand.reach b.name :=
        mem_reach_of_mem_spread (Entries.mem_names_of_mem hset)
      obtain rfl := eq_of_mem_reach ha hb hm hreach
      have himportant : c = ⟨c.value, false⟩ := by
        rw [← (h.unmarked hx).1, ← Cascade.important_of_mem_first hy]
      rw [himportant] at hy hset
      exact Or.inr ⟨c.value, (h.stands_iff ha).mpr ⟨x, hx, hy⟩, hset⟩
  · rintro (hleft | ⟨w, hstands, hset⟩)
    · have hget := (h.get?_foldedAll_eq_some_iff ha hm).mpr hleft
      refine ⟨(m, d), (Store.get?_eq_some_iff htrim).mp hget, ?_⟩
      rw [Cascade.full_of_not_shorthand (ofName?_of_mem_longhands ha hm)]
      exact mem_singleton_self _
    · obtain ⟨x, hx, hfirst⟩ := (h.stands_iff ha).mp hstands
      exact ⟨x, hx, mem_flatMap.mpr ⟨_, hfirst, hset⟩⟩

/-- **A group that is not folded is not changed**, not even by expansion. -/
theorem get?_after_of_not_folded (h : Unfolded s) (ha : a ∈ ofLonghands) (hm : m ∈ a.longhands)
    (hnone : foldText? s a = none) (ht : Edit.expandAll.after (foldedAll s) = .ok t) : t.get? m = s.get? m := by
  refine Option.ext fun d => ?_
  rw [h.get?_after_iff ha hm ht]
  constructor
  · rintro (⟨-, hget⟩ | ⟨w, hstands, -⟩)
    · exact hget
    · exact absurd hnone (h.foldText?_ne_none hstands)
  · exact fun hget => Or.inl ⟨hnone, hget⟩

/-! ## When expanding fails -/

/-- A box that `border` takes up has one part. -/
theorem not_misfits_of_border (h : Unfolded s) {b : BoxShorthand} (hborder : (foldText? s .border).isSome)
    (hb : b.name ∈ borderBoxes) (hv : foldText? s (.box b) = some v) (hw : declared? v = some w) :
    ¬Component.Misfits w := by
  have hplain : (foldBoxes (foldBackground s).1).1.plain? b.name = some w := by
    refine Store.plain?_eq_some_iff.mpr ?_
    rw [h.get?_foldBoxes, hv]
    exact (h.declarationOfText?_eq_some_iff hv).mpr ⟨w, hw, rfl⟩
  have hsingle : Component.isSingle w = true := by
    simp only [foldText?, borderText?] at hborder
    split at hborder
    · rename_i width style color hwidth hstyle hcolor
      split at hborder
      · rename_i hall
        refine all_eq_true.mp hall w ?_
        simp only [borderBoxes, mem_cons, not_mem_nil, or_false] at hb ⊢
        rcases hb with hb | hb | hb
        · exact Or.inl (Option.some.inj ((hb ▸ hplain).symm.trans hwidth))
        · exact Or.inr (Or.inl (Option.some.inj ((hb ▸ hplain).symm.trans hstyle)))
        · exact Or.inr (Or.inr (Option.some.inj ((hb ▸ hplain).symm.trans hcolor)))
      · contradiction
    · contradiction
  have hlength : (Component.split w).length = 1 := by simpa [Component.isSingle] using hsingle
  unfold Component.Misfits
  omega

/-- **Expanding what was folded fails** exactly if a box or a font was written that cannot be read. -/
theorem exists_error_iff_garbles (h : Unfolded s) :
    (∃ f, Edit.expandAll.after (foldedAll s) = .error f) ↔ Garbles s := by
  have hbox : ∀ {b : BoxShorthand} {d : Declaration}, (b.name, d) ∈ (foldedAll s).entries →
      Component.Misfits d.value → Garbles s := by
    intro b d hd hparts
    obtain ⟨v, w, hv, hw, rfl, -⟩ := (h.mem_foldedAll_iff (.box b)).mp hd
    obtain ⟨sides, hsides, rfl⟩ := Option.map_eq_some_iff.mp hv
    exact .box hsides hw hparts
  rw [Cascade.exists_error_iff]
  constructor
  · intro hunread
    cases hunread with
    | space _ hd hparts => exact hbox hd hparts
    | border _ hd hparts _ => exact hbox hd hparts
    | font hd hkeyword _ hrejected =>
      obtain ⟨v, w, hv, hw, rfl, -⟩ := (h.mem_foldedAll_iff .font).mp hd
      exact .font hv hw hkeyword hrejected
  · intro hgarbles
    cases hgarbles with
    | @box b v w hv hw hparts =>
      have hv : foldText? s (.box b) = some (joined v.minimal) := by
        rw [foldText?, hv]
        rfl
      -- A box that misfits was not taken up by the border, which asks for single components.
      have hkept : b.name ∈ borderBoxes → foldText? s .border = none := fun hb =>
        Option.not_isSome_iff_eq_none.mp fun hborder => h.not_misfits_of_border hborder hb hv hw hparts
      have hd := (h.mem_foldedAll_iff (.box b)).mpr ⟨_, w, hv, hw, rfl, hkept⟩
      by_cases hspace : b = .margin ∨ b = .padding
      · exact .space hspace hd hparts
      · have hb : b = .borderColor ∨ b = .borderStyle ∨ b = .borderWidth := by
          cases b <;> simp at hspace ⊢
        refine .border hb hd hparts ?_
        rintro ⟨e, he, -⟩
        obtain ⟨u, x, hu, -⟩ := (h.mem_foldedAll_iff .border).mp he
        have hmem : b.name ∈ borderBoxes := by rcases hb with rfl | rfl | rfl <;> decide
        rw [hkept hmem] at hu
        cases hu
    | @font v w hv hw hkeyword hrejected =>
      have hd := (h.mem_foldedAll_iff .font).mpr ⟨v, w, hv, hw, rfl, fun hmem => absurd hmem (by decide)⟩
      refine .font hd hkeyword ?_ hrejected
      obtain ⟨f, hf⟩ := hrejected
      cases hsystem : FontReading.isSystem (Component.parse w) with
      | false => rfl
      | true => simp [FontReading.ofValue, hsystem] at hf

end Unfolded

end Folding

end CssShorthand
