/-
  THE ORDER OF SPECIFICITIES AND THAT OF THEIR WEIGHTS.

  An id weighs as much as ten classes, and a class as much as ten elements.

    1.  Ten elements can be carried into a class, and ten classes into an id, without a change of the
        weight (`Specificity.weight_carried`).  Where nothing is left to carry, the order of specificities
        is that of their weights (`Specificity.lt_iff_weight_lt`).  So weights order all specificities as
        they are after carrying (`Specificity.carried_lt_iff`).
    2.  The greatest specificity of a list of selectors is one of theirs, and none of theirs is greater
        (`Selector.greatest_mem`, `Selector.not_greatest_lt`).  It is found before carrying, and weighed
        then.

  The headline is `Selector.weightOf_ordered`.  Ten classes are less specific than an id and do not weigh
  less, and eleven weigh more (`Selector.weightOf_tenClasses`).
-/
import Mathlib.Data.List.Forall2
import CssShorthand.Selector.Weight

namespace CssShorthand

open List

/-! ## Carrying

  Weights are numbers in which the places have weight ten, and a specificity is not bound to digits;
  carrying makes it so.
-/

namespace Specificity

variable {a b c : Specificity}

/-- Ten elements are carried into a class, and ten classes into an id. -/
def carried (a : Specificity) : Specificity :=
  let classes := a.classes + a.elements / 10
  ⟨a.ids + classes / 10, classes % 10, a.elements % 10⟩

/-- There is nothing to carry. -/
def IsCarried (a : Specificity) : Prop := a.classes < 10 ∧ a.elements < 10

theorem isCarried_carried (a : Specificity) : a.carried.IsCarried :=
  ⟨Nat.mod_lt _ (by decide), Nat.mod_lt _ (by decide)⟩

/-- What is carried already is not carried any further. -/
theorem IsCarried.carried_eq (h : a.IsCarried) : a.carried = a := by
  obtain ⟨hclasses, helements⟩ := h
  simp [carried, Nat.div_eq_of_lt, Nat.mod_eq_of_lt, hclasses, helements]

/-- Carrying keeps the weight. -/
theorem weight_carried (a : Specificity) : a.carried.weight = a.weight := by
  simp only [weight, carried]
  omega

/-- Where there is nothing to carry, weights are ordered as specificities are. -/
theorem lt_iff_weight_lt (ha : a.IsCarried) (hb : b.IsCarried) : a.lt b ↔ a.weight < b.weight := by
  obtain ⟨hac, hae⟩ := ha
  obtain ⟨hbc, hbe⟩ := hb
  simp only [lt, weight]
  omega

/-- **Weights are ordered as specificities are after carrying.** -/
theorem carried_lt_iff (a b : Specificity) : a.carried.lt b.carried ↔ a.weight < b.weight := by
  rw [lt_iff_weight_lt (isCarried_carried a) (isCarried_carried b), weight_carried, weight_carried]

/-! ## The greater of two

  The comparison of the program is on triples, from the left.
-/

theorem not_lt_zero (a : Specificity) : ¬a.lt zero := by
  simp [lt, zero]

/-- The greater of two is one of them. -/
theorem max_eq_or (a b : Specificity) : a.max b = a ∨ a.max b = b := by
  unfold max
  split
  · exact Or.inr rfl
  · exact Or.inl rfl

theorem max_zero (a : Specificity) : a.max zero = a := if_neg (not_lt_zero a)

/-- The greater of two is below neither; here the first. -/
theorem not_max_lt_left (a b : Specificity) : ¬(a.max b).lt a := by
  unfold max
  split
  · simp only [lt] at *
    omega
  · simp [lt]

/-- What is not greater than the second of two is not greater than the greater of them. -/
theorem not_max_lt_of_right (a : Specificity) (h : ¬b.lt c) : ¬(a.max b).lt c := by
  unfold max
  split
  · exact h
  · simp only [lt] at *
    omega

end Specificity

/-! ## The greatest of several

  By induction on the list, as the program goes through it.
-/

namespace Selector

open SelectorTokens (readList)

variable {s : Selector} {ss : List Selector} {t u : Text} {a b : Specificity} {as : List Specificity}
  {us : List Text}

/-- The greatest specificity is that of a selector of the list. By induction on the list. -/
theorem greatest_mem (h : ss ≠ []) : greatest ss ∈ ss.map (·.specificity) := by
  induction ss with
  | nil => contradiction
  | cons s ss ih =>
    cases ss with
    | nil =>
      rw [greatest, greatest, Specificity.max_zero]
      exact mem_singleton_self _
    | cons r ss =>
      rw [greatest, map_cons]
      rcases Specificity.max_eq_or s.specificity (greatest (r :: ss)) with hmax | hmax <;> rw [hmax]
      · exact mem_cons_self
      · exact mem_cons_of_mem _ (ih (cons_ne_nil r ss))

/-- No selector of the list is above the greatest. -/
theorem not_greatest_lt (hs : s ∈ ss) : ¬(greatest ss).lt s.specificity := by
  induction ss with
  | nil => contradiction
  | cons r ss ih =>
    rcases mem_cons.mp hs with rfl | hs
    · exact Specificity.not_max_lt_left _ _
    · exact Specificity.not_max_lt_of_right _ (ih hs)

/-! ## What a text is compiled to

  From texts to specificities, for texts of one selector and for lists.
-/

/-- The specificities of the selectors of a text, if it is a list of selectors and everything is known of
    them. -/
def specificities? (t : Text) : Option (List Specificity) := (parseList? t).map (·.map (·.specificity))

/-- A list that is read has a selector. -/
theorem readList_ne_nil (ts : SelectorTokens) : readList ts ≠ some [] := by
  rw [SelectorTokens.readList]
  split <;> simp

/-- **A list of selectors weighs what its greatest specificity weighs.** -/
theorem exists_greatest (h : specificities? t = some as) :
    ∃ g ∈ as, (∀ a ∈ as, ¬g.lt a) ∧ (weightOf t).1 = g.weight := by
  obtain ⟨ss, hss, rfl⟩ := Option.map_eq_some_iff.mp h
  have hne : ss ≠ [] := by
    rintro rfl
    unfold parseList? at hss
    split at hss
    · rename_i ss hread
      split at hss
      · exact readList_ne_nil _ (hread.trans hss)
      · contradiction
    · contradiction
  refine ⟨greatest ss, greatest_mem hne, forall_mem_map.mpr fun s hs => not_greatest_lt hs, ?_⟩
  rw [weightOf, hss]

/-- A single selector weighs what its specificity weighs. -/
theorem weightOf_of_single (h : specificities? t = some [a]) : (weightOf t).1 = a.weight := by
  obtain ⟨g, hg, -, hweight⟩ := exists_greatest h
  rwa [mem_singleton.mp hg] at hweight

/-- The weights of texts that are single selectors, one by one. -/
theorem map_weightOf (h : Forall₂ (fun u a => specificities? u = some [a]) us as) :
    us.map (fun u => (weightOf u).1) = as.map (·.weight) := by
  induction h with
  | nil => rfl
  | cons hu _ ih => rw [map_cons, map_cons, weightOf_of_single hu, ih]

/-- **Weights order selectors as their specificities do after carrying.**  So they do by the
    specificities themselves where there is nothing to carry.  A list weighs what the greatest of its
    specificities weighs; this is the greatest of the weights if and only if that specificity is the
    greatest after carrying as well, and it is where there is nothing to carry. -/
theorem weightOf_ordered :
    (∀ t u a b, specificities? t = some [a] → specificities? u = some [b] →
      (a.carried.lt b.carried ↔ (weightOf t).1 < (weightOf u).1) ∧
      (a.IsCarried → b.IsCarried → (a.lt b ↔ (weightOf t).1 < (weightOf u).1))) ∧
    ∀ t as us, specificities? t = some as → Forall₂ (fun u a => specificities? u = some [a]) us as →
      ∃ g ∈ as, (∀ a ∈ as, ¬g.lt a) ∧ (weightOf t).1 = g.weight ∧
        ((us.map fun u => (weightOf u).1).max? = some (weightOf t).1 ↔
          ∀ a ∈ as, ¬g.carried.lt a.carried) ∧
        ((∀ a ∈ as, a.IsCarried) → (us.map fun u => (weightOf u).1).max? = some (weightOf t).1) := by
  constructor
  · intro t u a b ht hu
    rw [weightOf_of_single ht, weightOf_of_single hu]
    exact ⟨Specificity.carried_lt_iff a b, Specificity.lt_iff_weight_lt⟩
  · intro t as us ht hus
    obtain ⟨g, hg, hgreatest, hweight⟩ := exists_greatest ht
    have hmax : (us.map fun u => (weightOf u).1).max? = some (weightOf t).1 ↔
        ∀ a ∈ as, ¬g.carried.lt a.carried := by
      rw [map_weightOf hus, hweight, max?_eq_some_iff, forall_mem_map]
      simp only [Specificity.carried_lt_iff, Nat.not_lt]
      exact and_iff_right (mem_map_of_mem hg)
    refine ⟨g, hg, hgreatest, hweight, hmax, fun hcarried => hmax.mpr fun a ha => ?_⟩
    rw [(hcarried g hg).carried_eq, (hcarried a ha).carried_eq]
    exact hgreatest a ha

/-- A selector of an id and one of an element, which is less specific. -/
theorem weightOf_idAndElement :
    ((weightOf ['p']).1 < (weightOf ['#', 'a']).1) ∧
      ([['#', 'a'], ['p']].map fun u => (weightOf u).1).max? = some (weightOf "#a, p".toList).1 := by
  obtain ⟨hpair, hlist⟩ := weightOf_ordered
  have hid : specificities? ['#', 'a'] = some [⟨1, 0, 0⟩] := by decide +kernel
  have helement : specificities? ['p'] = some [⟨0, 0, 1⟩] := by decide +kernel
  have hcarried : (⟨1, 0, 0⟩ : Specificity).IsCarried ∧ (⟨0, 0, 1⟩ : Specificity).IsCarried := by
    simp [Specificity.IsCarried]
  refine ⟨((hpair _ _ _ _ helement hid).2 hcarried.2 hcarried.1).mp (by decide), ?_⟩
  obtain ⟨-, -, -, -, -, hmax⟩ := hlist "#a, p".toList _ _ (by decide +kernel) (.cons hid (.cons helement .nil))
  exact hmax (forall_mem_cons.mpr ⟨hcarried.1, forall_mem_singleton.mpr hcarried.2⟩)

/-- A selector of ten classes. -/
def tenClasses : Text := ".b.b.b.b.b.b.b.b.b.b".toList

/-- A list of an id and of eleven classes. -/
def idAndClasses : Text := "#a,.b.b.b.b.b.b.b.b.b.b.b".toList

/-- **Ten classes weigh as much as an id**, which is more specific, and eleven weigh more. -/
theorem weightOf_tenClasses :
    (∃ a b, specificities? tenClasses = some [a] ∧ specificities? ['#', 'a'] = some [b] ∧
      a.lt b ∧ ¬(weightOf tenClasses).1 < (weightOf ['#', 'a']).1) ∧
    ∃ as, specificities? idAndClasses = some as ∧
      Forall₂ (fun u a => specificities? u = some [a]) [['#', 'a'], '.' :: 'b' :: tenClasses] as ∧
      ([['#', 'a'], '.' :: 'b' :: tenClasses].map fun u => (weightOf u).1).max? ≠
        some (weightOf idAndClasses).1 := by
  have hid : specificities? ['#', 'a'] = some [⟨1, 0, 0⟩] := by decide +kernel
  have hclasses : specificities? ('.' :: 'b' :: tenClasses) = some [⟨0, 11, 0⟩] := by decide +kernel
  exact ⟨⟨⟨0, 10, 0⟩, ⟨1, 0, 0⟩, by decide +kernel, hid, by decide, by decide +kernel⟩,
    [⟨1, 0, 0⟩, ⟨0, 11, 0⟩], by decide +kernel, .cons hid (.cons hclasses .nil), by decide +kernel⟩

end Selector

end CssShorthand
