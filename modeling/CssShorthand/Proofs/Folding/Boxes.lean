/-
  FOLDING THE BOXES.

  A box folds if its four sides are plainly declared (`sides?`).  The boxes share no names, so that
  folding all of them does to the names of each box what the fold of that box alone does
  (`get?_foldBoxes_name`, `get?_foldBoxes_longhand`), and leaves all other names alone.

  The five boxes are folded by one function with the box as a parameter, so there is one lemma about a fold
  and one induction over the list of boxes. The lookups after all folds are stated in terms of the store
  before the first of them; later modules never look at a store in between.
-/
import CssShorthand.Proofs.Folding.Write

namespace CssShorthand

namespace BoxShorthand

/-- The list of the boxes is complete. -/
theorem mem_all (b : BoxShorthand) : b ∈ all := by
  cases b <;> decide

/-- The names of the boxes need no trimming. -/
theorem trimName_name (b : BoxShorthand) : trimName b.name = b.name :=
  Shorthand.trimName_name (.box b)

/-- The names of the longhands need no trimming. -/
theorem trimName_longhand (b : BoxShorthand) : ∀ n ∈ b.longhands.toList, trimName n = n :=
  Shorthand.trimName_longhand (.box b)

/-- The name of a box and its longhands. -/
def scope (b : BoxShorthand) : List String := b.name :: b.longhands.toList

/-- The boxes share no names. -/
theorem eq_of_mem_scope {b c : BoxShorthand} {n : String} (hb : n ∈ b.scope) (hc : n ∈ c.scope) :
    b = c := by
  have h : ∀ b ∈ all, ∀ c ∈ all, ∀ n ∈ b.scope, n ∈ c.scope → b = c := by decide
  exact h b b.mem_all c c.mem_all n hb hc

/-- No box is the longhand of another. -/
theorem name_not_mem_longhands (b c : BoxShorthand) : b.name ∉ c.longhands.toList := by
  have h : ∀ b ∈ all, ∀ c ∈ all, b.name ∉ c.longhands.toList := by decide
  exact h b b.mem_all c c.mem_all

end BoxShorthand

namespace Folding

open BoxShorthand (scope)

/-- The values of the four sides if all are plainly declared. -/
def sides? (b : BoxShorthand) (s : Store) : Option (Sides Text) :=
  match s.plain? b.longhands.top, s.plain? b.longhands.right, s.plain? b.longhands.bottom,
    s.plain? b.longhands.left with
  | some top, some right, some bottom, some left => some ⟨top, right, bottom, left⟩
  | _, _, _, _ => none

/-- The fold of one box. -/
theorem foldBox_eq (b : BoxShorthand) (s : Store) :
    (foldBox b s).1 =
      match sides? b s with
      | some v => write b.longhands.toList b.name (joined v.minimal) s
      | none => s := by
  have hall := allOf_fst s b.longhands.toList b.name
  unfold foldBox sides?
  generalize allOf s b.longhands.toList b.name = r at hall ⊢
  simp only [Sides.toList, List.mapM_cons, List.mapM_nil] at hall
  obtain ⟨o, notices⟩ := r
  dsimp only at hall
  cases ht : s.plain? b.longhands.top with
  | none => simp [hall, ht]
  | some top =>
    cases hr : s.plain? b.longhands.right with
    | none => simp [hall, ht, hr]
    | some right =>
      cases hb : s.plain? b.longhands.bottom with
      | none => simp [hall, ht, hr, hb]
      | some bottom =>
        cases hl : s.plain? b.longhands.left with
        | none => simp [hall, ht, hr, hb, hl]
        | some left => simp [hall, ht, hr, hb, hl]

/-- The four values are found when all four longhands are plain. -/
theorem sides?_eq_some_iff {b : BoxShorthand} {s : Store} {v : Sides Text} :
    sides? b s = some v ↔
      s.plain? b.longhands.top = some v.top ∧ s.plain? b.longhands.right = some v.right ∧
        s.plain? b.longhands.bottom = some v.bottom ∧ s.plain? b.longhands.left = some v.left := by
  unfold sides?
  split
  · rename_i top right bottom left ht hr hb hl
    obtain ⟨t, r, bo, l⟩ := v
    simp [ht, hr, hb, hl]
  · rename_i hno
    refine ⟨nofun, fun ⟨ht, hr, hb, hl⟩ => (hno _ _ _ _ ht hr hb hl).elim⟩

/-- The sides depend on the longhands only. -/
theorem sides?_congr {b : BoxShorthand} {s t : Store}
    (h : ∀ n ∈ b.longhands.toList, s.get? n = t.get? n) : sides? b s = sides? b t := by
  have hplain : ∀ n ∈ b.longhands.toList, s.plain? n = t.plain? n := fun n hn => by
    rw [Store.plain?, Store.plain?, h n hn]
  simp only [Sides.toList, List.mem_cons, List.not_mem_nil, or_false, forall_eq_or_imp,
    forall_eq] at hplain
  obtain ⟨ht, hr, hb, hl⟩ := hplain
  rw [sides?, sides?, ht, hr, hb, hl]

/-- Folding a box touches the box and its longhands, and no important longhand. -/
theorem frame_foldBox (b : BoxShorthand) : Frame (foldBox b) b.name b.longhands.toList := by
  refine frame_of_mapM b.trimName_longhand b.trimName_name fun s => ?_
  rw [foldBox_eq]
  cases hv : sides? b s with
  | none => exact Or.inl rfl
  | some v =>
    obtain ⟨ht, hr, hb, hl⟩ := sides?_eq_some_iff.mp hv
    exact Or.inr ⟨_, v.toList, by simp [Sides.toList, ht, hr, hb, hl], rfl⟩

/-- What the store says of a box after its fold: what was written, if its four longhands are plain, and what
    it said before otherwise. -/
theorem get?_foldBox_name (b : BoxShorthand) (s : Store) :
    (foldBox b s).1.get? b.name =
      match sides? b s with
      | some v => Value.declarationOfText? (joined v.minimal) false
      | none => s.get? b.name := by
  rw [foldBox_eq]
  cases sides? b s with
  | none => rfl
  | some v =>
    refine (get?_write s b.trimName_longhand b.trimName_name b.trimName_name).trans ?_
    exact if_pos rfl

/-- The longhands of a box are gone after the fold, if it took place. -/
theorem get?_foldBox_longhand (b : BoxShorthand) (s : Store) {n : String}
    (hn : n ∈ b.longhands.toList) :
    (foldBox b s).1.get? n = if (sides? b s).isSome then none else s.get? n := by
  rw [foldBox_eq]
  cases sides? b s with
  | none => rfl
  | some v =>
    have hne : b.name ≠ n := fun h => BoxShorthand.name_not_mem_longhands b b (h ▸ hn)
    refine (get?_write s b.trimName_longhand b.trimName_name (b.trimName_longhand n hn)).trans ?_
    simp [hne, hn]

/-- A name outside of the box is looked up as before. -/
theorem get?_foldBox_of_not_mem {b : BoxShorthand} (s : Store) {n : String} (htrim : trimName n = n)
    (hn : n ∉ b.scope) : (foldBox b s).1.get? n = s.get? n := by
  simp only [scope, List.mem_cons, not_or] at hn
  exact (frame_foldBox b).get?_of_not_mem s n htrim hn.1 hn.2

section

variable {b c : BoxShorthand} (hne : c ≠ b) (s : Store)
include hne

/-- Folding a box leaves what another box is made of. -/
theorem get?_foldBox_of_ne {n : String} (hn : n ∈ c.scope) (htrim : trimName n = n) :
    (foldBox b s).1.get? n = s.get? n :=
  get?_foldBox_of_not_mem s htrim fun hnb => hne (BoxShorthand.eq_of_mem_scope hn hnb)

/-- The fold of one box leaves the sides of another as they are, as their longhands are apart. -/
theorem sides?_foldBox_of_ne : sides? c (foldBox b s).1 = sides? c s :=
  sides?_congr fun n hn =>
    get?_foldBox_of_ne hne s (List.mem_cons_of_mem _ hn) (c.trimName_longhand n hn)

end

/-! ## All boxes

  By induction on the boxes: what a fold reads has not been touched by those before.
-/

/-- The store after some boxes are folded. -/
def foldEach (bs : List BoxShorthand) (s : Store) : Store :=
  bs.foldl (fun s b => (foldBox b s).1) s

/-- A name outside of all the boxes is looked up as before. By induction on the boxes. -/
theorem get?_foldEach_of_not_mem {bs : List BoxShorthand} (s : Store) {n : String}
    (htrim : trimName n = n) (hn : ∀ b ∈ bs, n ∉ b.scope) :
    (foldEach bs s).get? n = s.get? n := by
  induction bs generalizing s with
  | nil => rfl
  | cons b bs ih =>
    exact (ih (foldBox b s).1 fun c hc => hn c (List.mem_cons_of_mem _ hc)).trans
      (get?_foldBox_of_not_mem s htrim (hn b (by simp)))

/-- Folding several boxes does to the names of each what its own fold does. -/
theorem get?_foldEach {bs : List BoxShorthand} (hbs : bs.Nodup) (s : Store) {b : BoxShorthand}
    (hb : b ∈ bs) {n : String} (hn : n ∈ b.scope) :
    (foldEach bs s).get? n = (foldBox b s).1.get? n := by
  have htrim : trimName n = n := by
    rcases List.mem_cons.mp hn with rfl | hn
    · exact b.trimName_name
    · exact b.trimName_longhand n hn
  induction bs generalizing s with
  | nil => simp at hb
  | cons c bs ih =>
    rw [List.nodup_cons] at hbs
    show (foldEach bs (foldBox c s).1).get? n = _
    rcases List.mem_cons.mp hb with rfl | hb
    · refine get?_foldEach_of_not_mem _ htrim fun d hd hnd => hbs.1 ?_
      rwa [BoxShorthand.eq_of_mem_scope hn hnd]
    · have hbc : b ≠ c := fun hbc => hbs.1 (hbc ▸ hb)
      rw [ih hbs.2 _ hb]
      rcases List.mem_cons.mp hn with rfl | hn'
      · rw [get?_foldBox_name, get?_foldBox_name, sides?_foldBox_of_ne hbc,
          get?_foldBox_of_ne hbc s hn htrim]
      · rw [get?_foldBox_longhand b _ hn', get?_foldBox_longhand b _ hn', sides?_foldBox_of_ne hbc,
          get?_foldBox_of_ne hbc s hn htrim]

/-- A store of fewer than four declarations has no four sides to fold. -/
theorem sides?_of_size_lt {s : Store} (h : s.size < 4) (b : BoxShorthand) : sides? b s = none := by
  cases hv : sides? b s with
  | none => rfl
  | some v =>
    obtain ⟨ht, hr, hb, hl⟩ := sides?_eq_some_iff.mp hv
    have hmem : ∀ n ∈ b.longhands.toList, n ∈ s.names := by
      intro n hn
      have hget : ∃ w, s.get? n = some ⟨w, false⟩ := by
        simp only [Sides.toList, List.mem_cons, List.not_mem_nil, or_false] at hn
        rcases hn with rfl | rfl | rfl | rfl
        · exact ⟨_, Store.plain?_eq_some_iff.mp ht⟩
        · exact ⟨_, Store.plain?_eq_some_iff.mp hr⟩
        · exact ⟨_, Store.plain?_eq_some_iff.mp hb⟩
        · exact ⟨_, Store.plain?_eq_some_iff.mp hl⟩
      obtain ⟨w, hw⟩ := hget
      by_contra hno
      rw [Store.get?, b.trimName_longhand n hn] at hw
      rw [Entries.find?_eq_none_iff.mpr hno] at hw
      simp at hw
    have hle := (List.Nodup.subperm (Shorthand.nodup_longhands (.box b)) hmem).length_le
    have hfour : (Shorthand.box b).longhands.length = 4 := rfl
    rw [hfour] at hle
    have hsize : s.names.length = s.size := by simp [Store.names, Entries.names, Store.size]
    omega

/-- Folding all boxes, also if the store is small. -/
theorem foldBoxes_eq (s : Store) : (foldBoxes s).1 = foldEach BoxShorthand.all s := by
  unfold foldBoxes
  split
  · rename_i h
    have hnone : ∀ b, (foldBox b s).1 = s := fun b => by rw [foldBox_eq, sides?_of_size_lt h]
    have hall : ∀ bs : List BoxShorthand, foldEach bs s = s := by
      intro bs
      induction bs with
      | nil => rfl
      | cons b bs ih => simpa [foldEach, hnone b] using ih
    exact (hall _).symm
  · have hfst : ∀ (bs : List BoxShorthand) (r : Result),
        (bs.foldl (fun r b => ((foldBox b r.1).1, r.2 ++ (foldBox b r.1).2)) r).1 =
          foldEach bs r.1 := by
      intro bs
      induction bs with
      | nil => exact fun _ => rfl
      | cons b bs ih => exact fun r => ih _
    exact hfst BoxShorthand.all (s, [])

/-- What the store says of a box after all folds depends on its own longhands only. -/
theorem get?_foldBoxes_name (b : BoxShorthand) (s : Store) :
    (foldBoxes s).1.get? b.name =
      match sides? b s with
      | some v => Value.declarationOfText? (joined v.minimal) false
      | none => s.get? b.name := by
  rw [foldBoxes_eq, get?_foldEach (by decide) s b.mem_all List.mem_cons_self, get?_foldBox_name]

/-- What the store says of a longhand after all folds depends on its own box only. -/
theorem get?_foldBoxes_longhand (b : BoxShorthand) (s : Store) {n : String}
    (hn : n ∈ b.longhands.toList) :
    (foldBoxes s).1.get? n = if (sides? b s).isSome then none else s.get? n := by
  rw [foldBoxes_eq, get?_foldEach (by decide) s b.mem_all (List.mem_cons_of_mem _ hn),
    get?_foldBox_longhand b s hn]

/-- A name that belongs to no box is looked up as before. -/
theorem get?_foldBoxes_of_not_mem (s : Store) {n : String} (htrim : trimName n = n)
    (hn : ∀ b : BoxShorthand, n ∉ b.scope) : (foldBoxes s).1.get? n = s.get? n := by
  rw [foldBoxes_eq]
  exact get?_foldEach_of_not_mem s htrim fun b _ => hn b

/-- Folding boxes of which no side is important says nothing. -/
theorem foldBoxes_snd_eq_nil {s : Store}
    (h : ∀ b : BoxShorthand, ∀ n ∈ b.longhands.toList, ∀ d, s.get? n = some d → d.important = false) :
    (foldBoxes s).2 = [] := by
  have hsnd : ∀ (b : BoxShorthand) (t : Store),
      (foldBox b t).2 = (allOf t b.longhands.toList b.name).2 := by
    intro b t
    unfold foldBox
    split <;> simp_all
  have hall : ∀ (bs : List BoxShorthand) (t : Store),
      (∀ b : BoxShorthand, ∀ n ∈ b.longhands.toList, ∀ d, t.get? n = some d → d.important = false) →
        (bs.foldl (fun r b => ((foldBox b r.1).1, r.2 ++ (foldBox b r.1).2)) (t, [])).2 = [] := by
    intro bs
    induction bs with
    | nil => exact fun _ _ => rfl
    | cons c bs ih =>
      intro t ht
      rw [List.foldl_cons, hsnd, allOf_snd_eq_nil c.name (ht c)]
      refine ih _ fun b n hn d hd => ?_
      -- The fold of a box leaves the sides of the others, and none of its own.
      by_cases hbc : b = c
      · subst hbc
        rw [get?_foldBox_longhand b t hn] at hd
        split at hd
        · contradiction
        · exact ht b n hn d hd
      · rw [get?_foldBox_of_ne hbc t (List.mem_cons_of_mem _ hn) (b.trimName_longhand n hn)] at hd
        exact ht b n hn d hd
  unfold foldBoxes
  split
  · rfl
  · exact hall _ s h

end Folding

end CssShorthand
