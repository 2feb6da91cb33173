/-
  READING A FONT WITH A CURSOR.

  A cursor takes the next significant component, or passes what is before it and takes nothing
  (`Cursor.consume_of_rest`).  So of components with white space between, the styles, variants and
  weights in front are taken, each sets the first field that accepts it, and the cursor stops before
  the first component that no field accepts (`Cursor.consumeFields_of_rest`).

  The reader skips separators before it asks, and also when the asking fails; so two cursors that differ in
  what is skipped answer alike. The lemmas are therefore about what is left behind the separators
  (`c.skip.rest`), and not about positions.
-/
import Mathlib.Data.List.DropRight
import CssShorthand.Font.Value

namespace CssShorthand

open List

variable {p : Component → Bool} {c : Cursor} {d e : Component} {cs ds es : List Component}

namespace FontField

/-- The field that takes a component: the first that accepts it. -/
def of? (d : Component) : Option FontField := [style, variant, weight].find? (·.accepts d)

end FontField

namespace FontValues

/-- The values with those set that these components are taken for, one after the other. -/
def setAll (v : FontValues) (ds : List Component) : FontValues :=
  ds.foldl (fun v d => (FontField.of? d).elim v (·.set d.write v)) v

/-- The line height is none of these. -/
theorem setAll_lineHeight (v : FontValues) (ds : List Component) :
    (v.setAll ds).lineHeight = v.lineHeight := by
  induction ds generalizing v with
  | nil => rfl
  | cons d ds ih =>
    rw [setAll, foldl_cons]
    refine (ih _).trans ?_
    rcases FontField.of? d with _ | _ | _ | _ <;> rfl

/-- The first component sets its field, and the others are set on top of it. -/
theorem setAll_cons (v : FontValues) {f : FontField} (h : FontField.of? d = some f) (ds : List Component) :
    v.setAll (d :: ds) = (f.set d.write v).setAll ds := by
  rw [setAll, foldl_cons, h]
  rfl

end FontValues

namespace Cursor

/-- Skipping twice leads no further than skipping once. -/
theorem skip_skip_rest (c : Cursor) : c.skip.skip.rest = c.skip.rest := by
  rw [rest_skip, rest_skip, dropWhile_idempotent]

/-- The next component is found behind separators. -/
theorem skip_rest (h : c.rest = cs ++ d :: ds) (hcs : ∀ x ∈ cs, x.isSeparator = true)
    (hd : d.isSeparator = false) : c.skip.rest = d :: ds := by
  rw [rest_skip, h, dropWhile_append_of_pos hcs, dropWhile_cons_of_neg (by simp [hd])]

/-- **The next component is taken if it satisfies the test**, and otherwise stays. -/
theorem consume_of_rest (h : c.skip.rest = d :: ds) :
    (p d = true → ∃ c', c.consume p = (some d, c') ∧ c'.rest = ds) ∧
      (p d = false → c.consume p = (none, c.skip)) := by
  constructor
  · intro hp
    refine ⟨c.skip.advance 1, by simp [consume, h, hp], ?_⟩
    rw [rest_advance, h]
    rfl
  · intro hp
    simp [consume, h, hp]

/-- **The next component is taken for the first field that accepts it**, and stays if none does. -/
theorem consumeField_of_rest (h : c.skip.rest = d :: ds) :
    (∀ f, FontField.of? d = some f → ∃ c', c.consumeField = (some (f, d), c') ∧ c'.rest = ds) ∧
      (FontField.of? d = none → ∃ c', c.consumeField = (none, c') ∧ c'.skip.rest = d :: ds) := by
  -- The three kinds are asked for in turn, each time from where the skipping led.
  have hagain : ∀ {c : Cursor}, c.skip.rest = d :: ds → c.skip.skip.rest = d :: ds := fun h => by
    rw [skip_skip_rest, h]
  have hstyle := consume_of_rest (p := FontField.style.accepts) h
  have hvariant := consume_of_rest (p := FontField.variant.accepts) (hagain h)
  have hweight := consume_of_rest (p := FontField.weight.accepts) (hagain (hagain h))
  unfold consumeField
  cases hs : FontField.style.accepts d with
  | true =>
    obtain ⟨c', hc', hrest⟩ := hstyle.1 hs
    have hof : FontField.of? d = some .style := by simp [FontField.of?, hs]
    rw [hof, hc']
    exact ⟨fun f hf => ⟨c', by rw [Option.some.inj hf], hrest⟩, nofun⟩
  | false =>
    rw [hstyle.2 hs]
    cases hv : FontField.variant.accepts d with
    | true =>
      obtain ⟨c', hc', hrest⟩ := hvariant.1 hv
      have hof : FontField.of? d = some .variant := by simp [FontField.of?, hs, hv]
      simp only [hof, hc']
      exact ⟨fun f hf => ⟨c', by rw [Option.some.inj hf], hrest⟩, nofun⟩
    | false =>
      simp only [hvariant.2 hv]
      cases hw : FontField.weight.accepts d with
      | true =>
        obtain ⟨c', hc', hrest⟩ := hweight.1 hw
        have hof : FontField.of? d = some .weight := by simp [FontField.of?, hs, hv, hw]
        simp only [hof, hc']
        exact ⟨fun f hf => ⟨c', by rw [Option.some.inj hf], hrest⟩, nofun⟩
      | false =>
        have hof : FontField.of? d = none := by simp [FontField.of?, hs, hv, hw]
        simp only [hof, hweight.2 hw]
        exact ⟨nofun, fun _ => ⟨_, rfl, hagain (hagain (hagain h))⟩⟩

/-- The loop stops at what is no field. -/
theorem consumeFields_of_none {c' : Cursor} (h : c.consumeField = (none, c')) (v : FontValues) :
    c.consumeFields v = (v, c') := by
  unfold consumeFields
  split
  · rename_i hsome
    simp [h] at hsome
  · rename_i hnone
    rw [h] at hnone
    rw [(Prod.mk.inj hnone).2]

/-- The loop goes on behind a field. -/
theorem consumeFields_of_some {f : FontField} {c' : Cursor} (h : c.consumeField = (some (f, d), c'))
    (v : FontValues) : c.consumeFields v = c'.consumeFields (f.set d.write v) := by
  rw [consumeFields]
  split
  · rename_i field d' c₂ hsome
    rw [h] at hsome
    obtain ⟨⟨rfl, rfl⟩, rfl⟩ : (f = field ∧ d = d') ∧ c' = c₂ := by simpa using hsome
    rfl
  · rename_i hnone
    simp [h] at hnone

/-- Components with a space behind each. -/
def spaced (ds : List Component) : List Component := ds.flatMap fun d => [d, .whitespace [' ']]

/-- Skipping goes to the first component that separates nothing. -/
theorem skip_rest_spaced (h : c.rest = cs ++ (spaced ds ++ e :: es)) (hcs : ∀ x ∈ cs, x.isSeparator = true)
    (hsep : ∀ d ∈ e :: ds, d.isSeparator = false) : c.skip.rest = spaced ds ++ e :: es := by
  cases ds with
  | nil => exact skip_rest h hcs (hsep e mem_cons_self)
  | cons d ds => exact skip_rest h hcs (hsep d (by simp))

/-- **Styles, variants and weights are taken** up to the first component that is none of them. -/
theorem consumeFields_of_rest (hds : ∀ d ∈ ds, ∃ f, FontField.of? d = some f)
    (he : FontField.of? e = none) (hsep : ∀ d ∈ e :: ds, d.isSeparator = false) (v : FontValues) (c : Cursor)
    (h : c.skip.rest = spaced ds ++ e :: es) :
    ∃ c', c.consumeFields v = (v.setAll ds, c') ∧ c'.skip.rest = e :: es := by
  induction ds generalizing v c with
  | nil =>
    obtain ⟨c', hc', hrest⟩ := (consumeField_of_rest h).2 he
    exact ⟨c', consumeFields_of_none hc' v, hrest⟩
  | cons d ds ih =>
    obtain ⟨f, hf⟩ := hds d mem_cons_self
    obtain ⟨c₁, hc₁, hrest⟩ := (consumeField_of_rest h).1 f hf
    have hseps : ∀ x ∈ e :: ds, x.isSeparator = false := fun x hx =>
      hsep x (by rcases mem_cons.mp hx with rfl | hx <;> simp [*])
    have hnext : c₁.skip.rest = spaced ds ++ e :: es :=
      skip_rest_spaced (show c₁.rest = [.whitespace [' ']] ++ (spaced ds ++ e :: es) from hrest)
        (forall_mem_singleton.mpr rfl) hseps
    obtain ⟨c', hc', hlast⟩ := ih (fun x hx => hds x (mem_cons_of_mem _ hx)) hseps (f.set d.write v) c₁ hnext
    exact ⟨c', by rw [consumeFields_of_some hc₁, hc', FontValues.setAll_cons v hf], hlast⟩

end Cursor

end CssShorthand
