/-
  WHERE THE DECLARATIONS STAND ONCE THE BOXES ARE FOLDED.

  A fold takes the longhands of a box out and writes the box in its place if it is declared, at the
  end of the store if it is not (`names_foldBoxes`).  So the declarations that a fold leaves alone keep
  their order, and what is written for a box is ordered among them as the name of the box was: a name
  that is not declared counts as standing behind all others (`idxOf_foldBoxes_lt_iff`).

  A store is a list of entries, and a lookup does not see their order; the cascade does. So there is a
  description of the folded store by its list of names next to the one by lookups.
-/
import CssShorthand.Proofs.Cascade.Step
import CssShorthand.Proofs.Folding.Boxes

namespace CssShorthand

/-- Leaving elements out keeps the order of those that stay. -/
theorem idxOf_filter_lt_iff {α : Type} [BEq α] [LawfulBEq α] {l : List α} {p : α → Bool} {a b : α}
    (ha : p a = true) (hb : p b = true) :
    (l.filter p).idxOf a < (l.filter p).idxOf b ↔ l.idxOf a < l.idxOf b := by
  induction l with
  | nil => simp
  | cons c l ih =>
    rcases eq_or_ne c a with rfl | hca
    · simp only [List.filter_cons, ha, if_true, List.idxOf_cons_self]
      rcases eq_or_ne c b with rfl | hcb
      · simp
      · simp [List.idxOf_cons_ne _ hcb]
    · rcases eq_or_ne c b with rfl | hcb
      · simp [hb]
      · cases hc : p c <;> simp [hc, List.idxOf_cons_ne _ hca,
          List.idxOf_cons_ne _ hcb, ih]

namespace Folding

/-- What is written for a box makes a declaration. -/
def Writable (b : BoxShorthand) (s : Store) : Prop :=
  ∀ v, sides? b s = some v → ∃ d, Value.declarationOfText? (joined v.minimal) false = some d

/-- Whether the sides of a box are folded. -/
def folds (s : Store) (b : BoxShorthand) : Bool := (sides? b s).isSome

/-- The names after the fold of a box, in their order: its longhands are taken out, and the box is put at the
    end unless it had a place. -/
theorem names_foldBox {b : BoxShorthand} {s : Store} (h : Writable b s) :
    (foldBox b s).1.names =
      if folds s b then
        s.names.filter (· ∉ b.longhands.toList) ++ if b.name ∈ s.names then [] else [b.name]
      else s.names := by
  rw [foldBox_eq, folds]
  cases hv : sides? b s with
  | none => rfl
  | some v =>
    obtain ⟨d, hd⟩ := h v hv
    rw [Option.isSome_some, if_pos rfl]
    exact names_write b.trimName_longhand b.trimName_name (BoxShorthand.name_not_mem_longhands b b) hd s

/-- Folding a box leaves the names of the others. -/
theorem name_mem_names_foldBox_of_ne {b c : BoxShorthand} (hne : c ≠ b) (s : Store) :
    c.name ∈ (foldBox b s).1.names ↔ c.name ∈ s.names := by
  have hget := get?_foldBox_of_ne hne s List.mem_cons_self c.trimName_name
  rw [Store.get?, Store.get?, c.trimName_name] at hget
  rw [← not_iff_not, Store.names, ← Entries.find?_eq_none_iff, hget, Entries.find?_eq_none_iff]
  rfl

/-- The names once some boxes are folded. -/
theorem names_foldEach {bs : List BoxShorthand} (hbs : bs.Nodup) {s : Store}
    (h : ∀ b ∈ bs, Writable b s) :
    (foldEach bs s).names =
      s.names.filter (fun n => bs.all fun b => !(folds s b && b.longhands.toList.contains n)) ++
        (bs.filter fun b => folds s b && !s.names.contains b.name).map BoxShorthand.name := by
  induction bs generalizing s with
  | nil =>
    show s.names = _
    simp
  | cons b bs ih =>
    rw [List.nodup_cons] at hbs
    have hne : ∀ c ∈ bs, c ≠ b := fun c hc hcb => hbs.1 (hcb ▸ hc)
    have hfolds : ∀ c ∈ bs, folds (foldBox b s).1 c = folds s c := fun c hc =>
      congrArg Option.isSome (sides?_foldBox_of_ne (hne c hc) s)
    have hnew : (bs.filter fun c =>
        folds (foldBox b s).1 c && !(foldBox b s).1.names.contains c.name) =
        bs.filter fun c => folds s c && !s.names.contains c.name :=
      List.filter_congr fun c hc => by simp [hfolds c hc, name_mem_names_foldBox_of_ne (hne c hc)]
    have hold : ∀ n : String,
        (bs.all fun c => !(folds (foldBox b s).1 c && c.longhands.toList.contains n)) =
          bs.all fun c => !(folds s c && c.longhands.toList.contains n) := by
      intro n
      rw [Bool.eq_iff_iff, List.all_eq_true, List.all_eq_true]
      exact forall₂_congr fun c hc => by rw [hfolds c hc]
    show (foldEach bs (foldBox b s).1).names = _
    -- The other boxes fold as they did before this one was folded.
    rw [ih hbs.2 fun c hc v hv =>
        h c (List.mem_cons_of_mem _ hc) v (sides?_foldBox_of_ne (hne c hc) s ▸ hv),
      hnew, List.filter_congr fun n _ => hold n, names_foldBox (h b (by simp))]
    cases hb : folds s b with
    | false => simp [hb]
    | true =>
      simp only [hb, if_true, List.filter_append, List.filter_filter, List.all_cons, Bool.true_and,
        List.filter_cons]
      by_cases hmem : b.name ∈ s.names
      · simp [hmem, Bool.and_comm]
      · simp [hmem, Bool.and_comm, BoxShorthand.name_not_mem_longhands b]

/-- Whether a fold of a box takes this name out. -/
def gone (s : Store) (n : String) : Bool :=
  BoxShorthand.all.any fun b => folds s b && b.longhands.toList.contains n

/-- The names once the boxes are folded. -/
theorem names_foldBoxes {s : Store} (h : ∀ b, Writable b s) :
    (foldBoxes s).1.names =
      s.names.filter (fun n => !gone s n) ++
        (BoxShorthand.all.filter fun b => folds s b && !s.names.contains b.name).map
          BoxShorthand.name := by
  rw [foldBoxes_eq, names_foldEach (by decide) fun b _ => h b]
  congr 1
  refine List.filter_congr fun n _ => ?_
  rw [gone, List.not_any_eq_all_not]

/-- Of two names that are declared once the boxes are folded, at least one of them before, the same
    stands first. -/
theorem idxOf_foldBoxes_lt_iff {s : Store} (h : ∀ b, Writable b s) {m n : String}
    (hm : m ∈ (foldBoxes s).1.names) (hn : n ∈ (foldBoxes s).1.names)
    (hold : m ∈ s.names ∨ n ∈ s.names) :
    (foldBoxes s).1.names.idxOf m < (foldBoxes s).1.names.idxOf n ↔
      s.names.idxOf m < s.names.idxOf n := by
  rw [names_foldBoxes h] at hm hn ⊢
  have hnew : ∀ k ∈ (BoxShorthand.all.filter fun b =>
      folds s b && !s.names.contains b.name).map BoxShorthand.name, k ∉ s.names := by
    intro k hk
    obtain ⟨b, hb, rfl⟩ := List.mem_map.mp hk
    have hboth := (List.mem_filter.mp hb).2
    simp only [Bool.and_eq_true, Bool.not_eq_true', List.contains_eq_mem, decide_eq_false_iff_not]
      at hboth
    exact hboth.2
  generalize (BoxShorthand.all.filter fun b => folds s b && !s.names.contains b.name).map
    BoxShorthand.name = new at hm hn hnew ⊢
  have hkept : ∀ {k}, k ∈ s.names.filter (fun n => !gone s n) ++ new → k ∈ s.names →
      k ∈ s.names.filter fun n => !gone s n := fun hk hks =>
    (List.mem_append.mp hk).resolve_right fun hk => hnew _ hk hks
  have hlast : ∀ {k}, k ∈ s.names.filter (fun n => !gone s n) ++ new → k ∉ s.names →
      k ∉ s.names.filter fun n => !gone s n := fun _ hks hk => hks (List.mem_filter.mp hk).1
  have hbefore : ∀ {k l}, k ∈ s.names.filter (fun n => !gone s n) →
      l ∉ s.names.filter (fun n => !gone s n) →
      (s.names.filter (fun n => !gone s n) ++ new).idxOf k <
        (s.names.filter (fun n => !gone s n) ++ new).idxOf l := fun hk hl => by
    rw [List.idxOf_append_of_mem hk, List.idxOf_append_of_notMem hl]
    have := List.idxOf_lt_length_of_mem hk
    omega
  have hend : ∀ {k l}, k ∈ s.names → l ∉ s.names → s.names.idxOf k < s.names.idxOf l :=
    fun hk hl => by
      rw [List.idxOf_eq_length hl]
      exact List.idxOf_lt_length_of_mem hk
  -- Names that were there keep their order, and stand before those that are new.
  by_cases hms : m ∈ s.names
  · by_cases hns : n ∈ s.names
    · rw [List.idxOf_append_of_mem (hkept hm hms), List.idxOf_append_of_mem (hkept hn hns)]
      exact idxOf_filter_lt_iff (List.mem_filter.mp (hkept hm hms)).2
        (List.mem_filter.mp (hkept hn hns)).2
    · exact iff_of_true (hbefore (hkept hm hms) (hlast hn hns)) (hend hms hns)
  · have hns := hold.resolve_left hms
    exact iff_of_false (hbefore (hkept hn hns) (hlast hm hms)).not_gt (hend hns hms).not_gt

end Folding

end CssShorthand
