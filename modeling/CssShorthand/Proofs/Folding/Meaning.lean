/-
  WHETHER THE FOLD OF THE BOXES CHANGES WHAT THE STORE MEANS.

  The value that is written for a box is read back as the four values that it was made of
  (`restores_of_kept`), if these are solid and cleaning leaves them as they are.  What the fold can
  change is the place: the longhands stood where they stood, and the box stands where a box stood
  before, or at the end.  `refolded_same_iff` says when that makes a difference.
-/
import CssShorthand.Proofs.Box
import CssShorthand.Proofs.Folding.AsIs
import CssShorthand.Proofs.Folding.Refolding

namespace CssShorthand

namespace Folding

open Cascade

/-- A value that is kept as it is: it is solid, cleaning leaves it, and as a keyword for every property
    it is written in lower case. -/
structure Kept (w : Text) : Prop where
  solid : Component.Solid w
  mark : '!' ∉ w
  semicolon : ';' ∉ w
  trim : Text.trim w = w
  keyword : ∀ k, cssWideKeyword? w = some k → k.toList = w

namespace Kept

variable {w : Text}

/-- A value that is kept is one component at least. -/
theorem ne_nil (h : Kept w) : w ≠ [] := by
  rintro rfl
  have hsplit := h.solid.split_eq
  revert hsplit
  decide +kernel

/-- A value that is kept is declared as it is. -/
theorem asIs (h : Kept w) : AsIs w := by
  obtain ⟨hfirst, t, d, rfl, hd⟩ := Text.exists_ends_of_trim h.trim h.ne_nil
  exact ⟨h.mark, hfirst, t, d, rfl, hd, fun he => h.semicolon (by simp [he])⟩

end Kept

/-! ## Reading back what is written

  Four sides are written in the shortest form and read back from it, also if they are a keyword that all
  properties take: this is then written once and goes to all four.
-/

variable {b : BoxShorthand} {v : Sides Text}

/-- Even four equal sides are written as one. -/
theorem minimal_ne_nil (v : Sides Text) : v.minimal ≠ [] := by
  intro hnil
  have := Sides.ofList?_minimal v
  rw [hnil] at this
  contradiction

/-- One value is written for four sides that are the same. -/
theorem eq_of_minimal_eq {w : Text} (h : v.minimal = [w]) : v = ⟨w, w, w, w⟩ := by
  have := Sides.ofList?_minimal v
  rw [h] at this
  exact (Option.some.inj this).symm

/-- What is written for a box is expanded to the sides that it was made of. -/
theorem expandValue_joined (h : ∀ w ∈ v.toList, Kept w) :
    expandValue b.name (joined v.minimal) = .ok (.longhands (b.longhands.zip v) []) := by
  have hminimal : ∀ w ∈ v.minimal, Kept w := fun w hw => h w (Sides.minimal_subset v hw)
  have hne := minimal_ne_nil v
  have hsolid : ∀ w ∈ v.minimal, Component.Solid w := fun w hw => (hminimal w hw).solid
  have hname : Shorthand.ofName? b.name = some (.box b) := Shorthand.ofName?_name (.box b)
  have hown : cssWideKeyword? (joined v.minimal) = none →
      expandValue b.name (joined v.minimal) = .ok (.longhands (b.longhands.zip v) []) := by
    intro hnone
    have hsides : Sides.ofValue (joined v.minimal) = .ok v :=
      (Sides.ofValue_join hsolid).mpr (Sides.ofList?_minimal v)
    have hexpand : (Shorthand.box b).expand (joined v.minimal) =
        .ok (.longhands (b.longhands.zip v) []) := by
      simp [Shorthand.expand, hnone, Shorthand.expandOwn, hsides]
    rw [expandValue, hname]
    exact hexpand
  -- Two words or more are no keyword; of one word the four sides are equal, and a keyword goes to all of them
  -- as well.
  by_cases hlen : 2 ≤ v.minimal.length
  · refine hown ?_
    simp [cssWideKeyword?, joined, Component.soleKeyword?_join hsolid hlen]
  · obtain ⟨w, hw⟩ : ∃ w, v.minimal = [w] := by
      have hpos := List.length_pos_iff.mpr hne
      exact List.length_eq_one_iff.mp (by omega)
    have hsame := eq_of_minimal_eq hw
    have hjoin : joined v.minimal = w := by simp [hw, joined, Text.join]
    cases hk : cssWideKeyword? w with
    | none => exact hown (hjoin ▸ hk)
    | some k =>
      have hkw : k.toList = w := (hminimal w (by simp [hw])).keyword k hk
      have hexpand : (Shorthand.box b).expand w = .ok (.longhands (b.longhands.zip v) []) := by
        have hlonghands : (Shorthand.box b).longhands.map (fun n => (n, w)) = b.longhands.zip v := by
          rw [hsame]
          rfl
        simp [Shorthand.expand, hk, hkw, hlonghands]
      rw [hjoin, expandValue, hname]
      exact hexpand

/-- Four sides that are kept are read back from the shortest form, each to its own longhand. -/
theorem spread_joined (h : ∀ w ∈ v.toList, Kept w) :
    spread (b.name, ⟨joined v.minimal, false⟩) =
      (b.longhands.zip v).map fun e => (e.1, ⟨e.2, false⟩) := by
  refine (spread_of_ok (x := (b.name, ⟨joined v.minimal, false⟩)) (expandValue_joined h)).trans ?_
  exact declarationsOf_of_asIs fun e he => (h e.2 (List.of_mem_zip he).2).asIs

/-- **The value that is written for a box is read back as the sides it was made of.** -/
theorem restores_of_kept (h : ∀ w ∈ v.toList, Kept w) : Restores b v :=
  ⟨_, (AsIs.joined (minimal_ne_nil v) fun w hw => (h w (Sides.minimal_subset v hw)).asIs).declarationOfText? false,
    rfl, spread_joined h⟩

/-! ## What the fold changes

  The statement in terms of expanded stores, and two stores that show both sides of it.
-/

/-- **When the fold changes nothing.**  If the values that are folded are kept as they are, expansion
    succeeds after the fold where it does before.  It gives every name the same declaration as without
    the fold if and only if each side of each box that folds is given, without the fold, what is
    highest above the place of the box, or else the side's own value. -/
theorem refolded_same_iff (s t : Store)
    (hkept : ∀ b v, sides? b s = some v → ∀ w ∈ v.toList, Kept w)
    (hborder : ∀ d, (Shorthand.border.name, d) ∈ s.entries → '!' ∉ d.value ∧ ';' ∉ d.value)
    (ht : Edit.expandAll.after s = .ok t) :
    ∃ u, Edit.expandAll.after (foldBoxes s).1 = .ok u ∧
      ((∀ n, u.get? n = t.get? n) ↔
        ∀ b v, sides? b s = some v → ∀ e ∈ b.longhands.zip v, ∀ d,
          Yields s b e.1 e.2 d → t.get? e.1 = some d) :=
  refolded_iff (fun b v hv => restores_of_kept (hkept b v hv)) hborder ht

/-- Four margins that overrule a shorthand. -/
def overruling : Store :=
  .ofList [("margin", .text "2px".toList), ("margin-top", .text "1px".toList),
    ("margin-right", .text "3px".toList), ("margin-bottom", .text "1px".toList),
    ("margin-left", .text "3px".toList)]

/-- A shorthand before its longhands: the folded store says the same, as what is written takes the place of
    the overruled one. -/
theorem overruling_refolded_same_iff :
    (∀ b v, sides? b overruling = some v → ∀ w ∈ v.toList, Kept w) ∧
    (∀ d, (Shorthand.border.name, d) ∈ overruling.entries → '!' ∉ d.value ∧ ';' ∉ d.value) ∧
    ∃ t, Edit.expandAll.after overruling = .ok t ∧
      ∃ u, Edit.expandAll.after (foldBoxes overruling).1 = .ok u ∧
        ((∀ n, u.get? n = t.get? n) ↔
          ∀ b v, sides? b overruling = some v → ∀ e ∈ b.longhands.zip v, ∀ d,
            Yields overruling b e.1 e.2 d → t.get? e.1 = some d) := by
  -- Only two values occur among the sides.
  have hlength : ∀ w ∈ ["1px".toList, "3px".toList], Kept w := by
    have hsplit : ∀ w ∈ ["1px".toList, "3px".toList], Component.split w = [w] := by decide +kernel
    have hfault : ∀ w ∈ ["1px".toList, "3px".toList],
        ∀ l ∈ Component.flatList (Component.parse w), l.isFault = false := by
      decide +kernel
    have hclean : ∀ w ∈ ["1px".toList, "3px".toList], '!' ∉ w ∧ ';' ∉ w ∧ Text.trim w = w ∧
        cssWideKeyword? w = none := by
      decide +kernel
    intro w hw
    obtain ⟨hmark, hend, htrim, hnone⟩ := hclean w hw
    exact ⟨⟨hsplit w hw, hfault w hw⟩, hmark, hend, htrim, fun k hk => by simp [hnone] at hk⟩
  have hkept : ∀ b v, sides? b overruling = some v → ∀ w ∈ v.toList, Kept w := by
    have h : ∀ b ∈ BoxShorthand.all, ∀ v ∈ (sides? b overruling).toList, ∀ w ∈ v.toList,
        w ∈ ["1px".toList, "3px".toList] := by
      decide +kernel
    exact fun b v hv w hw => hlength w (h b b.mem_all v (by simp [hv]) w hw)
  have hborder : ∀ d, (Shorthand.border.name, d) ∈ overruling.entries →
      '!' ∉ d.value ∧ ';' ∉ d.value := by
    have h : ∀ x ∈ overruling.entries, '!' ∉ x.2.value ∧ ';' ∉ x.2.value := by decide +kernel
    exact fun d hd => h _ hd
  have hok : (Edit.expandAll.after overruling).isOk = true := by decide +kernel
  obtain ⟨t, ht⟩ := Edit.exists_of_isOk hok
  exact ⟨hkept, hborder, t, ht, refolded_same_iff overruling t hkept hborder ht⟩

/-- Four margins that a shorthand overrules. -/
def overruled : Store :=
  .ofList [("margin-top", .text "1px".toList), ("margin-right", .text "1px".toList),
    ("margin-bottom", .text "1px".toList), ("margin-left", .text "1px".toList),
    ("margin", .text "2px".toList)]

/-- **The fold can change what a store means.**  The margins are written over the shorthand that they
    lost to. -/
theorem not_refolded_same :
    ¬∀ s t : Store,
      (∀ b : BoxShorthand, ∀ n ∈ b.longhands.toList, ∀ d, s.get? n = some d →
        Component.Solid d.value) →
      Edit.expandAll.after s = .ok t →
      ∃ u, Edit.expandAll.after (foldBoxes s).1 = .ok u ∧
        ∀ b : BoxShorthand, ∀ n ∈ b.longhands.toList, u.get? n = t.get? n := by
  intro h
  have hok : (Edit.expandAll.after overruled).isOk = true := by decide +kernel
  obtain ⟨t, ht⟩ := Edit.exists_of_isOk hok
  have hsolid : ∀ b : BoxShorthand, ∀ n ∈ b.longhands.toList, ∀ d, overruled.get? n = some d →
      Component.Solid d.value := by
    have hsplit : ∀ b ∈ BoxShorthand.all, ∀ n ∈ b.longhands.toList,
        ∀ d ∈ (overruled.get? n).toList, Component.split d.value = [d.value] ∧
          ∀ l ∈ Component.flatList (Component.parse d.value), l.isFault = false := by
      decide +kernel
    intro b n hn d hd
    obtain ⟨hsplit, hfault⟩ := hsplit b b.mem_all n hn d (by simp [hd])
    exact ⟨hsplit, hfault⟩
  obtain ⟨u, hu, hsame⟩ := h overruled t hsolid ht
  -- Before the fold the shorthand wins by its importance; after it the longhand was written to the end.
  have hbefore : (Edit.expandAll.after overruled).toOption.map (·.get? "margin-top") =
      some (some ⟨"2px".toList, false⟩) := by
    decide +kernel
  have hafter : (Edit.expandAll.after (foldBoxes overruled).1).toOption.map (·.get? "margin-top") =
      some (some ⟨"1px".toList, false⟩) := by
    decide +kernel
  rw [ht] at hbefore
  rw [hu] at hafter
  have hmargin := hsame .margin "margin-top" (by decide)
  have ht2 : t.get? "margin-top" = some ⟨"2px".toList, false⟩ := Option.some.inj hbefore
  have hu1 : u.get? "margin-top" = some ⟨"1px".toList, false⟩ := Option.some.inj hafter
  rw [ht2, hu1] at hmargin
  exact absurd hmargin (by decide)

end Folding

end CssShorthand
