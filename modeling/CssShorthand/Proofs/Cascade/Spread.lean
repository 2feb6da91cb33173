/-
  WHAT A DECLARATION SPREADS INTO.

  `spread` is what stands in the place of a declaration when nothing else is declared: the longhands
  that its value sets, with its importance, or the declaration itself if its value cannot be split.
  It looks at the declaration alone, and that is what makes the cascade of a store a matter of ranks:
  which of the spread entries are kept is decided by position and importance (`map_expand_of_ok`).

  The names that a shorthand spreads into are among its longhands, each at most once
  (`spread_eq_or_names_sublist`).
-/
import CssShorthand.Expansion
import CssShorthand.Proofs.Cascade.Merge
import CssShorthand.Proofs.Declaration.Cleaning

namespace CssShorthand

/-! ## The longhands of an expansion

  Each kind of expansion sets longhands of its own, in the order of the table, and none of them twice.
-/

/-- A name without white space needs no trimming. -/
theorem trimName_of_forall {n : String} (h : (Text.ofString n).all fun c => !Text.isBlank c) :
    trimName n = n := by
  rw [trimName, Text.trim_of_forall (by simpa using h)]
  simp [Text.toString, Text.ofString]

namespace Shorthand

/-- The names of the shorthands need no trimming. -/
theorem trimName_name (s : Shorthand) : trimName s.name = s.name := by
  apply trimName_of_forall
  cases s with
  | box b => cases b <;> decide +kernel
  | borderSide d => cases d <;> decide +kernel
  | _ => decide +kernel

/-- The names of the longhands need no trimming. -/
theorem trimName_longhand (s : Shorthand) : ∀ n ∈ s.longhands, trimName n = n := by
  have h : ∀ n ∈ s.longhands, (Text.ofString n).all fun c => !Text.isBlank c := by
    cases s with
    | box b => cases b <;> decide +kernel
    | borderSide d => cases d <;> decide +kernel
    | _ => decide +kernel
  exact fun n hn => trimName_of_forall (h n hn)

/-- No longhand comes twice. -/
theorem nodup_longhands (s : Shorthand) : s.longhands.Nodup := by
  cases s with
  | box b => cases b <;> decide
  | borderSide d => cases d <;> decide
  | _ => decide

/-- The entries that are found come in the order of the table. -/
theorem map_fst_filterMap {α : Type} (g : String → Option α) (names : List (String × String)) :
    ((names.filterMap fun (suffix, name) => (g suffix).map (name, ·)).map (·.1)).Sublist
      (names.map (·.2)) := by
  induction names with
  | nil => exact List.Sublist.refl _
  | cons p names ih =>
    obtain ⟨suffix, name⟩ := p
    cases h : g suffix with
    | none => simpa [h] using ih.cons _
    | some v => simpa [h] using ih.cons_cons name

/-- An expansion sets longhands of its shorthand, in their order. -/
theorem names_expand_sublist {s : Shorthand} {value : Text} {es : List (String × Text)}
    {ignored : Text} (h : s.expand value = .ok (.longhands es ignored)) :
    (es.map (·.1)).Sublist s.longhands := by
  -- A keyword goes to all longhands; a box sets its four sides; a font and what is sliced set those that were
  -- found, in the order of the table.
  unfold expand at h
  split at h
  · simp only [Except.ok.injEq, Expansion.longhands.injEq] at h
    simp [← h.1, Function.comp_def]
  · cases s with
    | box b =>
      simp only [expandOwn] at h
      split at h
      · rename_i sides _
        simp only [Except.ok.injEq, Expansion.longhands.injEq] at h
        simp [← h.1, Sides.zip, Sides.toList, longhands]
      · simp at h
    | font =>
      simp only [expandOwn] at h
      split at h
      · rename_i reading _
        cases reading with
        | system => simp [Expansion.ofFont] at h
        | parts v family =>
          simp only [Expansion.ofFont, Except.ok.injEq, Expansion.longhands.injEq] at h
          rw [← h.1]
          exact map_fst_filterMap _ _
      · simp at h
    | border | background | listStyle | borderSide =>
      simp only [expandOwn, Expansion.ofSlices, Except.ok.injEq, Expansion.longhands.injEq] at h
      rw [← h.1]
      exact map_fst_filterMap _ _

end Shorthand

/-! ## Stores made of texts

  The program makes a store of the new declarations first; with names that differ this is a list of them.
-/

namespace Store

/-- Texts under names that are trimmed and differ make a declaration each, in their order, but for the
    texts that declare nothing. -/
theorem entries_addAll_texts (s : Store) {es : List (String × Text)}
    (htrim : ∀ n ∈ es.map (·.1), trimName n = n) (hnodup : (es.map (·.1)).Nodup)
    (hnew : ∀ n ∈ es.map (·.1), n ∉ s.names) :
    (s.addAll (es.map fun e => (e.1, .text e.2))).entries =
      s.entries ++ es.filterMap fun e => (Value.declarationOfText? e.2 false).map (e.1, ·) := by
  -- The names are new and differ, so each text goes to the end, and those that are empty go nowhere.
  induction es generalizing s with
  | nil => simp [addAll]
  | cons e es ih =>
    obtain ⟨n, v⟩ := e
    simp only [List.map_cons, List.mem_cons, forall_eq_or_imp, List.nodup_cons] at htrim hnodup hnew
    have hstep : (s.add n (.text v) false).entries =
        s.entries ++ ((Value.declarationOfText? v false).map (n, ·)).toList := by
      unfold add
      simp only [Value.declaration?, Value.toText]
      cases Value.declarationOfText? v false with
      | none => simpa [delete, htrim.1] using Entries.erase_of_not_mem hnew.1
      | some d => simpa [put, htrim.1] using Entries.put_of_not_mem d hnew.1
    have hnames : ∀ k ∈ es.map (·.1), k ∉ (s.add n (.text v) false).names := by
      intro k hk hmem
      rw [names, hstep, Entries.names_append] at hmem
      rcases List.mem_append.mp hmem with hmem | hmem
      · exact hnew.2 k hk hmem
      · have : k = n := by
          cases hv : Value.declarationOfText? v false <;> simp_all [Entries.names]
        exact hnodup.1 (this ▸ hk)
    rw [List.map_cons, addAll, List.foldl_cons]
    show ((s.add n (.text v) false).addAll _).entries = _
    rw [ih _ htrim.2 hnodup.2 hnames, hstep, List.append_assoc, List.filterMap_cons]
    cases Value.declarationOfText? v false <;> simp

/-- Texts that replace a declaration make a declaration each, but for those that declare nothing. -/
theorem entries_ofReplacements {es : List (String × Text)}
    (htrim : ∀ n ∈ es.map (·.1), trimName n = n) (hnodup : (es.map (·.1)).Nodup) :
    (ofReplacements (es.map fun e => (e.1, .text e.2))).entries =
      es.filterMap fun e => (Value.declarationOfText? e.2 false).map (e.1, ·) := by
  have hall : (es.map fun e => (e.1, Value.text e.2)).filter (fun e => !e.2.isNothing) =
      es.map fun e => (e.1, Value.text e.2) :=
    List.filter_eq_self.mpr fun e he => by
      obtain ⟨x, -, rfl⟩ := List.mem_map.mp he
      rfl
  rw [ofReplacements, hall, ofList, entries_addAll_texts empty htrim hnodup (by simp [empty, names,
    Entries.names])]
  rfl

end Store

/-! ## Spreading a declaration

  The same without a store.
-/

/-- The declarations that texts make, with a given importance. -/
def declarationsOf (important : Bool) (es : List (String × Text)) : Entries Declaration :=
  es.filterMap fun e =>
    (Value.declarationOfText? e.2 false).map fun d => (e.1, { d with important })

namespace Expansion

/-- What stands in the place of the declaration `x` when its value expands so. -/
def entries (x : String × Declaration) : Expansion → Entries Declaration
  | .whole => [x]
  | .longhands es _ => declarationsOf x.2.important es

end Expansion

/-- What a declaration spreads into: its longhands with its importance, or itself if its value cannot be
    split. -/
def spread (x : String × Declaration) : Entries Declaration :=
  match expandValue x.1 x.2.value with
  | .ok e => e.entries x
  | .error _ => [x]

/-- What a declaration spreads to, when its value can be read. -/
theorem spread_of_ok {x : String × Declaration} {e : Expansion}
    (h : expandValue x.1 x.2.value = .ok e) : spread x = e.entries x := by
  simp [spread, h]

/-- Declarations that cannot be stored are left out; the others keep their order. -/
theorem names_declarationsOf_sublist (important : Bool) (es : List (String × Text)) :
    (declarationsOf important es).names.Sublist (es.map (·.1)) := by
  induction es with
  | nil => exact List.Sublist.refl _
  | cons e es ih =>
    cases h : Value.declarationOfText? e.2 false with
    | none => simpa [declarationsOf, h] using ih.cons e.1
    | some d => simpa [declarationsOf, h, Entries.names] using ih.cons_cons e.1

/-- Every longhand takes over the importance. -/
theorem important_of_mem_declarationsOf {important : Bool} {es : List (String × Text)}
    {x : String × Declaration} (h : x ∈ declarationsOf important es) :
    x.2.important = important := by
  obtain ⟨e, -, he⟩ := List.mem_filterMap.mp h
  obtain ⟨d, -, rfl⟩ := Option.map_eq_some_iff.mp he
  rfl

/-- Importance is handed down. -/
theorem important_of_mem_spread {x y : String × Declaration} (h : y ∈ spread x) :
    y.2.important = x.2.important := by
  unfold spread at h
  split at h
  · rename_i e _
    cases e with
    | whole => rw [List.mem_singleton.mp h]
    | longhands es ignored => exact important_of_mem_declarationsOf h
  · rw [List.mem_singleton.mp h]

/-- A shorthand whose value can be split spreads into longhands of its own, in their order. -/
theorem names_spread_sublist {s : Shorthand} {d : Declaration} {e : Expansion}
    (h : expandValue s.name d.value = .ok e) (he : e ≠ .whole) :
    (spread (s.name, d)).names.Sublist s.longhands := by
  rw [spread_of_ok h]
  cases e with
  | whole => exact absurd rfl he
  | longhands es ignored =>
    have hs : s.expand d.value = .ok (.longhands es ignored) := by
      simpa [expandValue, Shorthand.ofName?_name] using h
    exact (names_declarationsOf_sublist _ _).trans (Shorthand.names_expand_sublist hs)

/-- A shorthand stays as it is or spreads to longhands of its own, in their order. -/
theorem spread_eq_or_names_sublist (s : Shorthand) (d : Declaration) :
    spread (s.name, d) = [(s.name, d)] ∨
      (spread (s.name, d)).names.Sublist s.longhands := by
  cases h : expandValue s.name d.value with
  | error f => exact Or.inl (by simp [spread, h])
  | ok e =>
    by_cases he : e = .whole
    · exact Or.inl (by simp [spread, h, he, Expansion.entries])
    · exact Or.inr (names_spread_sublist h he)

/-- What is no shorthand stays as it is. -/
theorem spread_of_not_shorthand {n : String} (h : Shorthand.ofName? n = none) (d : Declaration) :
    spread (n, d) = [(n, d)] := by
  simp [spread, expandValue, h]

/-- No name is set twice by one declaration. -/
theorem nodup_names_spread (x : String × Declaration) : (spread x).names.Nodup := by
  obtain ⟨n, d⟩ := x
  cases hn : Shorthand.ofName? n with
  | none => simp [spread_of_not_shorthand hn d, Entries.names]
  | some s =>
    obtain rfl : s.name = n := by simpa using List.find?_some hn
    rcases spread_eq_or_names_sublist s d with h | h
    · simp [h, Entries.names]
    · exact s.nodup_longhands.sublist h

/-! ## Expanding in a store

  What the operation does to the list of entries, in both outcomes.
-/

namespace Store

/-- A name that is not there is not found. -/
theorem get?_of_not_mem {s : Store} {m : String} (htrim : trimName m = m) (h : m ∉ s.names) :
    s.get? m = none := by
  rw [get?, htrim]
  exact Entries.find?_eq_none_iff.mpr h

/-- Expanding a name that is not there does nothing. -/
theorem expand_of_not_mem {s : Store} {m : String} (htrim : trimName m = m) (h : m ∉ s.names) :
    s.expand m = .ok (s, []) := by
  simp [expand, get?_of_not_mem htrim h]

/-- A lookup finds exactly what is among the entries, as no name comes twice. -/
theorem get?_eq_some_iff {s : Store} {m : String} {d : Declaration} (htrim : trimName m = m) :
    s.get? m = some d ↔ (m, d) ∈ s.entries := by
  rw [get?, htrim, Entries.find?_eq_some_iff s.nodup_names]

/-- The names of the entries are trimmed already, so each is found under its own. -/
theorem get?_of_mem {s : Store} {m : String} {d : Declaration} (h : (m, d) ∈ s.entries) :
    s.get? m = some d := by
  rw [get?, s.trimName_of_mem m (Entries.mem_names_of_mem h)]
  exact (Entries.find?_eq_some_iff s.nodup_names).mpr h

/-- A value that cannot be read makes the expansion fail. -/
theorem expand_of_error {s : Store} {m : String} {d : Declaration} {f : Failure}
    (h : (m, d) ∈ s.entries) (he : expandValue m d.value = .error f) : s.expand m = .error f := by
  simp [expand, get?_of_mem h, he]

/-- The store is split at the only entry of a name. -/
theorem splitAt?_of_entries {s : Store} {before after : Entries Declaration} {m : String}
    {d : Declaration} (hs : s.entries = before ++ (m, d) :: after) :
    s.entries.splitAt? (trimName m) = some (before, d, after) := by
  have hnodup := s.nodup_names
  have hm : m ∈ s.entries.names := by simp [hs, Entries.names]
  rw [s.trimName_of_mem m hm, hs]
  rw [hs, Entries.names_append, List.nodup_append] at hnodup
  have hbefore : m ∉ before.names := fun h => hnodup.2.2 m h m (by simp [Entries.names]) rfl
  clear hs hm hnodup
  induction before with
  | nil => simp [Entries.splitAt?]
  | cons e before ih =>
    obtain ⟨k, w⟩ := e
    simp only [Entries.names, List.map_cons, List.mem_cons, not_or] at hbefore
    simp [Entries.splitAt?, Ne.symm hbefore.1, ih hbefore.2]

/-- **Expansion in a store.**  What the declaration spreads into stands in its place, but for the
    entries that lose to declarations around it. -/
theorem map_expand_of_ok {s : Store} {before after : Entries Declaration} {sh : Shorthand}
    {d : Declaration} {e : Expansion} (hs : s.entries = before ++ (sh.name, d) :: after)
    (he : expandValue sh.name d.value = .ok e) :
    ∃ t, (s.expand sh.name).map (·.1) = .ok t ∧
      ((e = .whole ∧ t = s) ∨
        (e ≠ .whole ∧ t.entries =
          spliced before ((spread (sh.name, d)).filter fun x => s.yields before x.1 x.2) after)) := by
  have hm : (sh.name, d) ∈ s.entries := by simp [hs]
  cases e with
  | whole => exact ⟨s, by simp [expand, get?_of_mem hm, he, Except.map], Or.inl ⟨rfl, rfl⟩⟩
  | longhands es ignored =>
    have hexpand : sh.expand d.value = .ok (.longhands es ignored) := by
      simpa [expandValue, Shorthand.ofName?_name] using he
    have hsub := Shorthand.names_expand_sublist hexpand
    have hnew := entries_ofReplacements
      (fun n hn => sh.trimName_longhand n (hsub.subset hn)) (sh.nodup_longhands.sublist hsub)
    have hforced : (ofReplacements (es.map fun e => (e.1, .text e.2))).entries.map
        (fun e => (e.1, { e.2 with important := d.important })) = spread (sh.name, d) := by
      rw [hnew, spread_of_ok he, List.map_filterMap]
      simp [Expansion.entries, declarationsOf, Option.map_map, Function.comp_def]
    have hsplit := splitAt?_of_entries hs
    -- The name is declared, so the replacement does not fail.
    cases hr : s.replace sh.name (es.map fun e => (e.1, .text e.2)) true with
    | error f =>
      unfold replace at hr
      split at hr <;> simp_all
    | ok t =>
      refine ⟨t, by simp [expand, get?_of_mem hm, he, hr, Except.map], Or.inr ⟨by simp, ?_⟩⟩
      unfold replace at hr
      split at hr
      · simp at hr
      · rename_i b r a hsp
        rw [hsplit] at hsp
        simp only [Option.some.injEq, Prod.mk.injEq] at hsp
        obtain ⟨rfl, rfl, rfl⟩ := hsp
        simp only [Except.ok.injEq] at hr
        rw [← hr]
        simp only [winners, if_true, Option.getD_some, hforced]

end Store

end CssShorthand
