/-
  WHAT A REPLACEMENT LEAVES.

  A declaration that is replaced gives its place to the new ones that overrule what the store declares
  of their names (`Store.Overrules`): by importance, then by place, where the new ones have the place of
  the declaration that they replace.  The program asks for this order with two tests
  (`Store.yields`); `yields_iff` says that they ask for it.

  The main statement is `exec_replace`, on the names in order and on what each of them is given.
-/
import Mathlib.Data.Prod.Lex
import CssShorthand.Proofs.Edit.Outcome
import CssShorthand.Proofs.Entries

namespace CssShorthand

namespace Entries

variable {α β : Type} {es fs : Entries α} {m n : String}

/-- A name is found in the first list, or else in the second. -/
theorem find?_append (es fs : Entries α) (m : String) :
    (es ++ fs : Entries α).find? m = (es.find? m).or (fs.find? m) := by
  induction es with
  | nil => rfl
  | cons e es ih =>
    obtain ⟨k, w⟩ := e
    by_cases hk : k = m
    · simp [find?, hk]
    · simpa [find?, hk] using ih

/-- What is left of a list without the names of another. By induction on the list. -/
theorem find?_without (es : Entries α) (others : Entries β) (m : String) :
    (es.without others).find? m = if m ∈ others.names then none else es.find? m := by
  induction es with
  | nil => simp [without, find?]
  | cons e es ih =>
    obtain ⟨k, w⟩ := e
    by_cases hk : k ∈ others.names
    · -- the entry is left out, and a name that is kept is another
      have hskip : without ((k, w) :: es) others = without es others := by simp [without, hk]
      rw [hskip, ih]
      split
      · rfl
      · rename_i hm
        have hkm : k ≠ m := fun h => hm (h ▸ hk)
        simp [find?, hkm]
    · have hkeep : without ((k, w) :: es) others = (k, w) :: without es others := by simp [without, hk]
      rw [hkeep]
      by_cases hkm : k = m
      · subst hkm
        simp [find?, hk]
      · simpa [find?, hkm] using ih

/-- What a selection of entries gives a name of its own, all of them give it. -/
theorem find?_filter (h : es.names.Nodup) {p : String × α → Bool} (hm : m ∈ names (es.filter p)) :
    find? (es.filter p) m = es.find? m := by
  obtain ⟨⟨k, v⟩, hmem, rfl⟩ := mem_names_iff.mp hm
  have hnodup : (names (es.filter p)).Nodup := (names_filter_sublist es p).nodup h
  rw [(find?_eq_some_iff hnodup).mpr hmem, (find?_eq_some_iff h).mpr (List.mem_filter.mp hmem).1]

/-- The entries around a name give the others what they had. -/
theorem find?_around {before after : Entries α} {v : α}
    (h : (names (before ++ (n, v) :: after)).Nodup) (m : String) :
    (before ++ after : Entries α).find? m =
      if m = n then none else (before ++ (n, v) :: after : Entries α).find? m := by
  rw [names_append, List.nodup_append] at h
  obtain ⟨-, hafter, hdisjoint⟩ := h
  rw [find?_append, find?_append]
  by_cases hm : m = n
  · subst hm
    have hb : m ∉ before.names := fun hb => hdisjoint m hb m List.mem_cons_self rfl
    have ha : m ∉ after.names := (List.nodup_cons.mp hafter).1
    simp [find?_eq_none_iff.mpr hb, find?_eq_none_iff.mpr ha]
  · simp [hm, find?, Ne.symm hm]

end Entries

namespace Store

variable {s : Store} {n m : String} {d : Declaration} {before after : Entries Declaration}

/-- The declarations with the importance `forced`, if one is given. -/
def forceImportance (s : Store) (forced : Option Bool) : Store where
  entries := s.entries.map fun e => (e.1, { e.2 with important := forced.getD e.2.important })
  nodup_names := by
    rw [Entries.names, List.map_map]
    exact s.nodup_names
  trimName_of_mem := by
    rw [Entries.names, List.map_map]
    exact s.trimName_of_mem

/-- A declaration at the place of `n` ranks above the one that the store has of its name, if it has one:
    important over not important, then later over earlier. -/
def Overrules (s : Store) (n : String) (e : String × Declaration) : Prop :=
  ∀ d ∈ s.get? e.1, toLex (d.important, s.names.idxOf e.1) < toLex (e.2.important, s.names.idxOf n)

instance (s : Store) (n : String) : DecidablePred (s.Overrules n) := fun e =>
  inferInstanceAs (Decidable (∀ d ∈ s.get? e.1,
    toLex (d.important, s.names.idxOf e.1) < toLex (e.2.important, s.names.idxOf n)))

/-- The names before, at and behind one entry. -/
theorem names_of_entries (hs : s.entries = before ++ (n, d) :: after) :
    s.names = before.names ++ n :: after.names := by
  rw [names, hs, Entries.names_append]
  rfl

/-- Before a name stand those with a smaller index. -/
theorem mem_names_before_iff (hs : s.entries = before ++ (n, d) :: after) :
    m ∈ before.names ↔ s.names.idxOf m < s.names.idxOf n := by
  have hnodup : s.names.Nodup := s.nodup_names
  rw [names_of_entries hs] at hnodup ⊢
  have hn : n ∉ before.names := fun h =>
    (List.nodup_append.mp hnodup).2.2 n h n List.mem_cons_self rfl
  have hindex : (before.names ++ n :: after.names).idxOf n = before.names.length := by
    simp [List.idxOf_append_of_notMem hn]
  rw [hindex]
  by_cases hm : m ∈ before.names
  · simpa [hm, List.idxOf_append_of_mem hm] using List.idxOf_lt_length_of_mem hm
  · rw [List.idxOf_append_of_notMem hm]
    simp [hm]

/-- **The two tests ask for the order of importance and place.** -/
theorem yields_iff (hs : s.entries = before ++ (n, d) :: after) {e : String × Declaration}
    (he : trimName e.1 = e.1) : s.yields before e.1 e.2 = true ↔ s.Overrules n e := by
  have hget : s.get? e.1 = s.entries.find? e.1 := by rw [get?, he]
  rw [yields, Overrules, hget]
  cases hfind : s.entries.find? e.1 with
  | none => simp
  | some f =>
    simp only [Option.mem_some_iff, forall_eq', Prod.Lex.toLex_lt_toLex,
      ← mem_names_before_iff (m := e.1) hs]
    cases e.2.important <;> cases f.important <;> simp

/-- The declarations that stand for the one of `n` after it is replaced by those of `new`. -/
def inserted (s : Store) (n : String) (new : Store) : Entries Declaration :=
  new.entries.filter (s.Overrules n)

/-- The replacements that win are those no other entry overrules, read off the split of the program. -/
theorem winners_eq (hs : s.entries = before ++ (n, d) :: after) (forced : Option Bool) (new : Store) :
    s.winners before forced new = s.inserted n (new.forceImportance forced) := by
  refine List.filter_congr fun e he => ?_
  have htrim := (new.forceImportance forced).trimName_of_mem e.1 (Entries.mem_names_of_mem he)
  rw [Bool.eq_iff_iff, yields_iff hs htrim, decide_eq_true_iff]

/-- The store `t` is `s` with those declarations of `new` that overrule in the place of `n`.  Names that
    they are given a declaration of are gone from their places, and the others stay in order with the
    declarations that they have. -/
structure Replaces (s : Store) (n : String) (new t : Store) : Prop where
  names_eq : ∃ before after, s.names = before ++ n :: after ∧
    t.names = before.filter (· ∉ (s.inserted n new).names) ++ (s.inserted n new).names ++
      after.filter (· ∉ (s.inserted n new).names)
  get?_eq : ∀ m, t.get? m =
    if trimName m ∈ (s.inserted n new).names then new.get? m
    else if trimName m = n then none
    else s.get? m

/-- What is spliced into a store replaces the declaration there. -/
theorem replaces_of_entries {new t : Store} (hs : s.entries = before ++ (n, d) :: after)
    (ht : t.entries = spliced before (s.inserted n new) after) : Replaces s n new t := by
  constructor
  · refine ⟨before.names, after.names, names_of_entries hs, ?_⟩
    rw [names, ht, names_spliced, Entries.names_without, Entries.names_without]
    simp
  · intro m
    have hall := s.nodup_names
    rw [hs] at hall
    have haround := Entries.find?_around hall (trimName m)
    rw [← hs, Entries.find?_append] at haround
    rw [get?, ht, spliced, Entries.find?_append, Entries.find?_append, Entries.find?_without,
      Entries.find?_without]
    split
    · -- the name is left out on both sides of what is inserted
      rename_i hm
      rw [get?, ← Entries.find?_filter new.nodup_names hm]
      simp [inserted]
    · -- it is on one of the sides as before, or it is the name that was replaced
      rename_i hm
      have hnone := Entries.find?_eq_none_iff.mpr hm
      rw [hnone, Option.or_none, haround]
      rfl

/-! ## Running a replacement

  The name is not declared, and the run fails; or it is, and the new store is described by the relation
  above.
-/

variable {name : String}

/-- Replacing succeeds when the name is declared: the store is split there, and the winners take its place. -/
theorem replace_of_splitAt? (hsplit : s.entries.splitAt? (trimName name) = some (before, d, after))
    (replacements : List (String × Value)) (keepImportance : Bool) :
    ∃ t, s.replace name replacements keepImportance = .ok t ∧
      Replaces s (trimName name) ((ofReplacements replacements).forceImportance
        (if keepImportance then some d.important else none)) t := by
  have hs := Entries.splitAt?_eq_some hsplit
  unfold replace
  split
  · rename_i hnone
    rw [hsplit] at hnone
    contradiction
  · rename_i hsome
    rw [hsplit] at hsome
    obtain ⟨rfl, rfl, rfl⟩ : before = _ ∧ d = _ ∧ after = _ := by simpa using hsome
    refine ⟨_, rfl, replaces_of_entries hs ?_⟩
    dsimp only
    rw [winners_eq hs]

/-- Replacing fails when the name is not declared. -/
theorem replace_of_not_mem (hn : trimName name ∉ s.names) (replacements : List (String × Value))
    (keepImportance : Bool) :
    s.replace name replacements keepImportance = .error (.undeclared (trimName name)) := by
  have hsplit := Entries.splitAt?_eq_none_iff.mpr hn
  unfold replace
  split
  · rfl
  · rename_i hsome
    rw [hsplit] at hsome
    contradiction

end Store

namespace Edit

open Store

/-- **A replacement stands in the place of what it replaces and respects the cascade.**  Where nothing is
    declared, it fails and changes nothing. -/
theorem exec_replace (name : String) (replacements : List (String × Value)) (keepImportance : Bool)
    (j : Journal) :
    match j.store.get? name with
    | none => (replace name replacements keepImportance).exec j = (.error (.undeclared (trimName name)), j)
    | some replaced =>
      ∃ t, (replace name replacements keepImportance).exec j = (.ok (), { j with store := t }) ∧
        Replaces j.store (trimName name) ((ofReplacements replacements).forceImportance
          (if keepImportance then some replaced.important else none)) t := by
  cases hget : j.store.get? name with
  | none =>
    have hn : trimName name ∉ j.store.names := Entries.find?_eq_none_iff.mp hget
    refine exec_attempt_error ?_
    rw [replace_of_not_mem hn]
  | some replaced =>
    dsimp only
    have hn : trimName name ∈ j.store.names := by
      by_contra hn
      rw [Store.get?, Entries.find?_eq_none_iff.mpr hn] at hget
      contradiction
    -- The name is declared, so the store is split at it, and the declaration found there is the one that is
    -- looked up.
    obtain ⟨⟨before, d, after⟩, hsplit⟩ : ∃ parts, j.store.entries.splitAt? (trimName name) = some parts :=
      Option.ne_none_iff_exists'.mp fun hnone => Entries.splitAt?_eq_none_iff.mp hnone hn
    obtain rfl : d = replaced := by
      have hmem : (trimName name, d) ∈ j.store.entries := by simp [Entries.splitAt?_eq_some hsplit]
      exact Option.some.inj (((Entries.find?_eq_some_iff j.store.nodup_names).mpr hmem).symm.trans hget)
    obtain ⟨t, ht, hreplaces⟩ := replace_of_splitAt? hsplit replacements keepImportance
    refine ⟨t, ?_, hreplaces⟩
    have hdone : (replace name replacements keepImportance).exec j = (.ok (), ⟨t, j.notices ++ []⟩) := by
      refine exec_attempt_ok ?_
      rw [ht]
    rw [hdone, List.append_nil]

end Edit

end CssShorthand
