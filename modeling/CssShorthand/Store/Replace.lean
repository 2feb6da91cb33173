/-
  REPLACING A DECLARATION BY OTHERS.

  The new declarations stand where the replaced one stood, which is gone even if nothing stands for it.
  A name that is declared already keeps its declaration if that wins over the new one by the order of
  the cascade: important over not important, and of the same importance later over earlier.  If the new
  one wins, the old one is gone from its place.
-/
import CssShorthand.Failure
import CssShorthand.Store.Basic

namespace CssShorthand

namespace Entries

variable {α : Type}

/-- Leaving out names makes none come twice. -/
theorem nodup_names_without {β : Type} {es : Entries α} (h : (names es).Nodup) (others : Entries β) :
    (names (without es others)).Nodup := by
  rw [names_without]
  exact h.filter _

/-- Leaves out the entries that do not satisfy `p`. -/
theorem names_filter_sublist (es : Entries α) (p : String × α → Bool) :
    (names (es.filter p)).Sublist (names es) :=
  (List.filter_sublist).map _

end Entries

namespace Store

/-- Whether a new declaration at the place after `before` wins over the one that the store holds. -/
def yields (s : Store) (before : Entries Declaration) (name : String) (d : Declaration) : Bool :=
  match s.entries.find? name with
  | none => true
  | some e =>
    (d.important && !e.important) ||
      (d.important == e.important && (Entries.names before).contains name)

/-- The new declarations that win, with the importance `forced` if it is given. -/
def winners (s : Store) (before : Entries Declaration) (forced : Option Bool) (new : Store) :
    Entries Declaration :=
  let forcedEntries := new.entries.map fun e =>
    (e.1, { e.2 with important := forced.getD e.2.important })
  forcedEntries.filter fun e => s.yields before e.1 e.2

/-- The declarations that values make, those that are nothing left out. -/
def ofReplacements (replacements : List (String × Value)) : Store :=
  ofList (replacements.filter fun e => !e.2.isNothing)

/-- The winners keep the order of the replacements. -/
theorem names_winners_sublist (s : Store) (before : Entries Declaration) (forced : Option Bool)
    (new : Store) : (Entries.names (s.winners before forced new)).Sublist new.names := by
  refine (Entries.names_filter_sublist _ _).trans ?_
  simp [Entries.names, names, Function.comp_def]

/-- The entries after a replacement. -/
def spliced (before inserted after : Entries Declaration) : Entries Declaration :=
  before.without inserted ++ inserted ++ after.without inserted

/-- The names of the new store: what was before, what is inserted, and what was behind. A name that is
    inserted is taken out of the rest. -/
theorem names_spliced (before inserted after : Entries Declaration) :
    (spliced before inserted after).names =
      (before.without inserted).names ++ inserted.names ++ (after.without inserted).names := by
  simp [spliced, Entries.names]

/-- No other names come in. -/
theorem mem_names_spliced {before inserted after : Entries Declaration} {n : String}
    (h : n ∈ (spliced before inserted after).names) :
    n ∈ (Entries.names (before ++ after)) ∨ n ∈ inserted.names := by
  rw [names_spliced, Entries.names_without, Entries.names_without] at h
  simp only [List.mem_append, List.mem_filter] at h
  simp only [Entries.names, List.map_append, List.mem_append] at h ⊢
  rcases h with (⟨h, _⟩ | h) | ⟨h, _⟩
  · exact Or.inl (Or.inl h)
  · exact Or.inr h
  · exact Or.inl (Or.inr h)

/-- What is inserted is left out on both sides of it, so no name is there twice. -/
theorem nodup_names_spliced {before inserted after : Entries Declaration}
    (hi : inserted.names.Nodup) (hd : (Entries.names (before ++ after)).Nodup) :
    (spliced before inserted after).names.Nodup := by
  rw [names_spliced]
  simp only [Entries.names, List.map_append, List.nodup_append] at hd
  obtain ⟨hb, ha, hba⟩ := hd
  have mem_without {es : Entries Declaration} {n : String}
      (h : n ∈ (es.without inserted).names) : n ∈ es.names ∧ n ∉ inserted.names := by
    rw [Entries.names_without, List.mem_filter] at h
    simpa using h
  refine List.nodup_append.mpr ⟨List.nodup_append.mpr ⟨?_, hi, ?_⟩, ?_, ?_⟩
  · exact Entries.nodup_names_without hb inserted
  · intro a ha' b hb' hab
    exact (mem_without ha').2 (hab ▸ hb')
  · exact Entries.nodup_names_without ha inserted
  · intro a ha' b hb' hab
    rcases List.mem_append.mp ha' with ha' | ha'
    · exact hba a (mem_without ha').1 b (mem_without hb').1 hab
    · exact (mem_without hb').2 (hab ▸ ha')

/-- What is around an entry was in the list. -/
theorem mem_names_around {es before after : Entries Declaration} {n m : String} {d : Declaration}
    (hm : m ∈ (Entries.names (before ++ after))) (h : es.splitAt? n = some (before, d, after)) :
    m ∈ es.names := by
  rw [Entries.splitAt?_eq_some h]
  simp only [Entries.names, List.map_append, List.mem_append, List.map_cons, List.mem_cons] at hm ⊢
  exact hm.imp_right Or.inr

/-- Nothing around an entry comes twice. -/
theorem nodup_around {es before after : Entries Declaration} {n : String} {d : Declaration}
    (hd : es.names.Nodup) (h : es.splitAt? n = some (before, d, after)) :
    (Entries.names (before ++ after)).Nodup := by
  rw [Entries.splitAt?_eq_some h] at hd
  refine List.Sublist.nodup ?_ hd
  simp only [Entries.names, List.map_append, List.map_cons]
  exact (List.Sublist.refl _).append (List.sublist_cons_self _ _)

/-- Replaces the declaration of a name by those that `replacements` make.  With `keepImportance` they
    get the importance of the declaration that they replace. -/
def replace (s : Store) (name : String) (replacements : List (String × Value))
    (keepImportance : Bool) : Except Failure Store :=
  match h : s.entries.splitAt? (trimName name) with
  | none => .error (.undeclared (trimName name))
  | some (before, replaced, after) =>
    let forced := if keepImportance then some replaced.important else none
    let new := ofReplacements replacements
    let inserted := s.winners before forced new
    .ok {
      entries := spliced before inserted after
      nodup_names :=
        nodup_names_spliced ((s.names_winners_sublist _ _ _).nodup new.nodup_names)
          (nodup_around s.nodup_names h)
      trimName_of_mem := fun n hn =>
        (mem_names_spliced hn).elim
          (fun hn => s.trimName_of_mem n (mem_names_around hn h))
          fun hn => new.trimName_of_mem n ((s.names_winners_sublist _ _ _).subset hn) }

/-! ## Running a replacement -/

example : (replace (ofList [("a", .text ['1']), ("b", .text ['2']), ("c", .text ['3'])]) "b"
      [("c", .text ['4']), ("a", .text ['5'])] false).toOption.map (·.text false) =
    some "a: 5; c: 3;".toList := by
  decide +kernel   -- the later `c` wins

end Store

end CssShorthand
