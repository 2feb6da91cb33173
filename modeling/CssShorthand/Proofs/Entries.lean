/-
  NAMES AND VALUES IN ENTRIES.

  Lemmas about entries whose names differ, and about entries made by putting names in turn: a name has
  the value that it is given last (`mem_ofList_iff`), at the place where it is given one first
  (`idxOf_names_ofList_le_iff`).
-/
import Mathlib.Data.List.Nodup
import Mathlib.Data.List.Induction
import CssShorthand.Entries

namespace CssShorthand

namespace Entries

variable {α : Type}

theorem mem_names_iff {es : Entries α} {n : String} : n ∈ es.names ↔ ∃ x ∈ es, x.1 = n :=
  List.mem_map

theorem mem_names_of_mem {es : Entries α} {x : String × α} (h : x ∈ es) : x.1 ∈ es.names :=
  mem_names_iff.mpr ⟨x, h, rfl⟩

theorem names_append (es fs : Entries α) : (names (es ++ fs)) = es.names ++ fs.names :=
  List.map_append

/-- A name has the value of its only entry. -/
theorem find?_eq_some_iff {es : Entries α} (h : es.names.Nodup) {n : String} {v : α} :
    es.find? n = some v ↔ (n, v) ∈ es := by
  induction es with
  | nil => simp [find?]
  | cons e es ih =>
    obtain ⟨k, w⟩ := e
    simp only [names, List.map_cons, List.nodup_cons] at h
    by_cases hk : k = n
    · subst hk
      have hn : (k, v) ∉ es := fun hm => h.1 (mem_names_of_mem hm)
      simp [find?, hn, eq_comm]
    · simp [find?, hk, Ne.symm hk, ih h.2]

/-- A new name is put at the end. -/
theorem put_of_not_mem {es : Entries α} {n : String} (v : α) (h : n ∉ es.names) :
    es.put n v = es ++ [(n, v)] := by
  induction es with
  | nil => rfl
  | cons e es ih =>
    simp only [names, List.map_cons, List.mem_cons, not_or] at h
    simp [put, Ne.symm h.1, ih h.2]

/-- Taking out a name that is not there changes nothing. -/
theorem erase_of_not_mem {es : Entries α} {n : String} (h : n ∉ es.names) : es.erase n = es := by
  induction es with
  | nil => rfl
  | cons e es ih =>
    simp only [names, List.map_cons, List.mem_cons, not_or] at h
    simp [erase, Ne.symm h.1, ih h.2]

/-- An erased name is gone with all its entries; the others stay. -/
theorem mem_erase_iff {es : Entries α} {n : String} {x : String × α} :
    x ∈ es.erase n ↔ x ∈ es ∧ x.1 ≠ n := by
  induction es with
  | nil => simp [erase]
  | cons e es ih =>
    unfold erase
    split
    · rename_i heq
      rw [ih, List.mem_cons]
      refine and_congr_left fun hx => (or_iff_right ?_).symm
      rintro rfl
      exact hx heq
    · rename_i hne
      rw [List.mem_cons, ih, List.mem_cons, or_and_right]
      exact or_congr_left (and_iff_left_of_imp fun hx => hx ▸ hne).symm

/-- Of entries whose names differ, one has a given name. -/
theorem eq_of_name_eq {es : Entries α} (h : es.names.Nodup) {x y : String × α} (hx : x ∈ es)
    (hy : y ∈ es) (hxy : x.1 = y.1) : x = y :=
  List.inj_on_of_nodup_map h hx hy hxy

/-- The place of a name is the place of its entry, as no name comes twice. -/
theorem idxOf_names {es : Entries α} [BEq α] [LawfulBEq α] (h : es.names.Nodup) {x : String × α}
    (hx : x ∈ es) : es.names.idxOf x.1 = es.idxOf x := by
  induction es with
  | nil => simp at hx
  | cons e es ih =>
    simp only [names, List.map_cons, List.nodup_cons] at h
    by_cases hxe : e = x
    · simp [names, hxe]
    · have hxes : x ∈ es := (List.mem_cons.mp hx).resolve_left (Ne.symm hxe)
      have hname : e.1 ≠ x.1 := fun hn => h.1 (hn ▸ List.mem_map_of_mem hxes)
      have := ih h.2 hxes
      simp only [names] at this
      simp [names, hxe, hname, this]

/-! ## Putting names in turn

  By induction on the list from its end, as the last pair is put last.
-/

/-- A put entry is there, in place of the one of the same name. -/
theorem mem_put_iff {es : Entries α} (h : es.names.Nodup) {n : String} {v : α} {x : String × α} :
    x ∈ es.put n v ↔ x = (n, v) ∨ (x.1 ≠ n ∧ x ∈ es) := by
  obtain ⟨k, w⟩ := x
  rw [← find?_eq_some_iff (nodup_names_put h n v), find?_put, Prod.mk.injEq]
  by_cases hk : n = k
  · simp [hk, eq_comm]
  · simp [hk, Ne.symm hk, find?_eq_some_iff h]

/-- Putting a name with the value that it has changes nothing. -/
theorem put_eq_self {es : Entries α} (h : es.names.Nodup) {x : String × α} (hx : x ∈ es) :
    es.put x.1 x.2 = es := by
  induction es with
  | nil => contradiction
  | cons e es ih =>
    simp only [names, List.map_cons, List.nodup_cons] at h
    rcases List.mem_cons.mp hx with rfl | hx
    · simp [put]
    · have hne : e.1 ≠ x.1 := fun hn => h.1 (hn ▸ mem_names_of_mem hx)
      simp [put, hne, ih h.2 hx]

/-- Entries are put one after another. -/
theorem ofList_append (l : List (String × α)) (e : String × α) :
    ofList (l ++ [e]) = (ofList l).put e.1 e.2 := by
  simp [ofList]

/-- However a list is made, no name comes twice: each put keeps this. -/
theorem nodup_names_ofList (l : List (String × α)) : (ofList l).names.Nodup := by
  induction l using List.reverseRecOn with
  | nil => simp [ofList, names]
  | append_singleton l e ih =>
    rw [ofList_append]
    exact nodup_names_put ih e.1 e.2

/-- Entries of which no two share a name are kept as they are listed. -/
theorem ofList_of_nodup {l : Entries α} (h : l.names.Nodup) : ofList l = l := by
  induction l using List.reverseRecOn with
  | nil => rfl
  | append_singleton l e ih =>
    rw [names_append, List.nodup_append] at h
    have hnew : e.1 ∉ names l := fun hmem => h.2.2 e.1 hmem e.1 (by simp [names]) rfl
    rw [ofList_append, ih h.1, put_of_not_mem e.2 hnew]

/-- A name has the value that it is given last. -/
theorem mem_ofList_iff {l : List (String × α)} {x : String × α} :
    x ∈ ofList l ↔ ∃ before after, l = before ++ x :: after ∧ x.1 ∉ names after := by
  induction l using List.reverseRecOn with
  | nil => simp [ofList]
  | append_singleton l e ih =>
    rw [ofList_append, mem_put_iff (nodup_names_ofList l), ih]
    constructor
    · rintro (rfl | ⟨hne, before, after, rfl, hx⟩)
      · exact ⟨l, [], rfl, by simp [names]⟩
      · refine ⟨before, after ++ [e], by simp, ?_⟩
        rw [names_append, List.mem_append, not_or]
        exact ⟨hx, by simpa [names] using hne⟩
    · rintro ⟨before, after, hl, hx⟩
      rcases List.eq_nil_or_concat after with rfl | ⟨after, d, rfl⟩
      · exact Or.inl (List.append_inj_right' hl rfl |> List.cons.inj).1.symm
      · rw [List.concat_eq_append, ← List.cons_append, ← List.append_assoc] at hl
        obtain rfl : e = d := (List.cons.inj (List.append_inj_right' hl rfl)).1
        rw [List.concat_eq_append, names_append, List.mem_append, not_or] at hx
        refine Or.inr ⟨by simpa [names] using hx.2, before, after, List.append_inj_left' hl rfl, hx.1⟩

/-- The names of a list are the names that were put. -/
theorem mem_names_ofList {l : List (String × α)} {n : String} :
    n ∈ (ofList l).names ↔ n ∈ names l := by
  induction l using List.reverseRecOn with
  | nil => simp [ofList]
  | append_singleton l e ih =>
    rw [ofList_append, names_put, names_append, List.mem_append, ← ih]
    split
    · rename_i he
      simp only [names, List.map_cons, List.map_nil, List.mem_singleton]
      exact ⟨Or.inl, fun h => h.elim id fun h => h ▸ he⟩
    · simp [names]

/-- A name that is put behind the others stands behind them. -/
theorem idxOf_concat_le_iff {ns : List String} {e m n : String} (he : e ∉ ns) (hm : m ∈ ns ∨ m = e)
    (hn : n ∈ ns ∨ n = e) : (ns ++ [e]).idxOf m ≤ (ns ++ [e]).idxOf n ↔
      n = e ∨ m ≠ e ∧ ns.idxOf m ≤ ns.idxOf n := by
  have hlast : (ns ++ [e]).idxOf e = ns.length := by
    rw [List.idxOf_append_of_notMem he]
    simp
  have hne : ∀ k ∈ ns, k ≠ e := fun k hk hke => he (hke ▸ hk)
  rcases hn with hn | rfl
  · rw [List.idxOf_append_of_mem hn]
    have hbound := List.idxOf_lt_length_of_mem hn
    rcases hm with hm | rfl
    · simp [List.idxOf_append_of_mem hm, hne m hm, hne n hn]
    · simp [hlast, hne n hn, hbound]
  · rcases hm with hm | rfl
    · simp [List.idxOf_append_of_mem hm, hlast, List.idxOf_le_length]
    · simp

/-- A name has the place where it is given a value first. -/
theorem idxOf_names_ofList_le_iff {l : List (String × α)} {m n : String} (hm : m ∈ names l)
    (hn : n ∈ names l) :
    (ofList l).names.idxOf m ≤ (ofList l).names.idxOf n ↔ (names l).idxOf m ≤ (names l).idxOf n := by
  induction l using List.reverseRecOn with
  | nil => simp [names] at hm
  | append_singleton l e ih =>
    have hnames : names (l ++ [e]) = names l ++ [e.1] := by simp [names]
    have hsplit : ∀ k ∈ names (l ++ [e]), k ∈ names l ∨ k = e.1 := fun k hk => by
      simpa [hnames] using hk
    rw [ofList_append, names_put]
    by_cases he : e.1 ∈ (ofList l).names
    · have hmem : ∀ k ∈ names (l ++ [e]), k ∈ names l := fun k hk =>
        (hsplit k hk).elim id fun h => h ▸ mem_names_ofList.mp he
      rw [if_pos he, hnames, List.idxOf_append_of_mem (hmem m hm), List.idxOf_append_of_mem (hmem n hn)]
      exact ih (hmem m hm) (hmem n hn)
    · have hel : e.1 ∉ names l := fun h => he (mem_names_ofList.mpr h)
      rw [if_neg he, hnames, idxOf_concat_le_iff hel (hsplit m hm) (hsplit n hn),
        idxOf_concat_le_iff he ((hsplit m hm).imp_left mem_names_ofList.mpr)
          ((hsplit n hn).imp_left mem_names_ofList.mpr)]
      -- Only where both names were there before does the induction say something.
      rcases hsplit n hn with hn | rfl
      · rcases hsplit m hm with hm | rfl
        · rw [ih hm hn]
        · simp
      · simp

end Entries

end CssShorthand
