/-
  ENTRIES: a list of names with a value each, in the order in which the names were first put.

  Putting a name again keeps its place and changes its value.  The view of entries is `find?`; each
  operation has its equation through it, and its effect on the list of names.
-/

namespace CssShorthand

/-- Names, each with a value, in order. -/
abbrev Entries (α : Type) := List (String × α)

namespace Entries

variable {α : Type}

/-- The names in order. -/
def names (es : Entries α) : List String := es.map (·.1)

/-- The value of a name. -/
def find? : Entries α → String → Option α
  | [], _ => none
  | (m, v) :: es, n => if m = n then some v else find? es n

/-- Gives a name a value: at the place of the name if it has one, otherwise at the end. -/
def put : Entries α → String → α → Entries α
  | [], n, v => [(n, v)]
  | (m, w) :: es, n, v => if m = n then (n, v) :: es else (m, w) :: put es n v

/-- Takes a name out. -/
def erase : Entries α → String → Entries α
  | [], _ => []
  | (m, w) :: es, n => if m = n then erase es n else (m, w) :: erase es n

/-- Puts names and values in turn. -/
def ofList (l : List (String × α)) : Entries α := l.foldl (fun es e => put es e.1 e.2) []

/-- What stands before the first entry of a name, its value, and what stands after it. -/
def splitAt? : Entries α → String → Option (Entries α × α × Entries α)
  | [], _ => none
  | (m, v) :: es, n =>
    if m = n then some ([], v, es)
    else match splitAt? es n with
      | some (before, w, after) => some ((m, v) :: before, w, after)
      | none => none

/-- Leaves out the names of `others`. -/
def without {β : Type} (es : Entries α) (others : Entries β) : Entries α :=
  es.filter fun e => !(names others).contains e.1

/-! ## The view -/

/-- A name that was put is found with its value; the others are found as before. -/
theorem find?_put (es : Entries α) (n m : String) (v : α) :
    (put es n v).find? m = if n = m then some v else es.find? m := by
  induction es with
  | nil => simp [put, find?]
  | cons e es ih =>
    obtain ⟨k, w⟩ := e
    by_cases hk : k = n
    · subst hk
      by_cases hm : k = m <;> simp [put, find?, hm]
    · by_cases hm : k = m
      · subst hm
        simp [put, find?, hk, Ne.symm hk]
      · simp [put, find?, hk, hm, ih]

/-- An erased name is not found; the others are found as before. -/
theorem find?_erase (es : Entries α) (n m : String) :
    (erase es n).find? m = if n = m then none else es.find? m := by
  induction es with
  | nil => simp [erase, find?]
  | cons e es ih =>
    obtain ⟨k, w⟩ := e
    by_cases hk : k = n
    · subst hk
      by_cases hm : k = m
      · simpa [erase, find?, hm] using ih
      · simpa [erase, find?, hm] using ih
    · by_cases hm : k = m
      · subst hm
        simp [erase, find?, hk, Ne.symm hk]
      · simp [erase, find?, hk, hm, ih]

/-- A name is not found exactly when it is not among the names. -/
theorem find?_eq_none_iff {es : Entries α} {n : String} : es.find? n = none ↔ n ∉ es.names := by
  induction es with
  | nil => simp [find?, names]
  | cons e es ih =>
    obtain ⟨k, w⟩ := e
    by_cases hk : k = n
    · simp [find?, names, hk]
    · simpa [find?, names, hk, Ne.symm hk] using ih

/-! ## Names -/

/-- A new name goes to the end; one that is there keeps its place. -/
theorem names_put (es : Entries α) (n : String) (v : α) :
    (put es n v).names = if n ∈ es.names then es.names else es.names ++ [n] := by
  induction es with
  | nil => simp [put, names]
  | cons e es ih =>
    obtain ⟨k, w⟩ := e
    by_cases hk : k = n
    · subst hk
      simp [put, names]
    · simp only [names] at ih
      simp only [put, hk, if_false, names, List.map_cons, ih, List.mem_cons, Ne.symm hk, false_or]
      by_cases h : n ∈ es.map (·.1) <;> simp [h]

/-- Erasing keeps the order of the rest. -/
theorem names_erase (es : Entries α) (n : String) :
    (erase es n).names = es.names.filter (· ≠ n) := by
  induction es with
  | nil => rfl
  | cons e es ih =>
    obtain ⟨k, w⟩ := e
    simp only [names] at ih
    by_cases hk : k = n <;> simp [erase, names, hk, ih]

/-- Leaving out the names of another list keeps the order of the rest. -/
theorem names_without {β : Type} (es : Entries α) (others : Entries β) :
    (es.without others).names = es.names.filter (!(names others).contains ·) := by
  induction es with
  | nil => rfl
  | cons e es ih =>
    simp only [names, without] at ih
    by_cases h : (others.map (·.1)).contains e.1
    · simp only [names, without, List.filter_cons, h, List.map_cons, Bool.not_true]
      simpa using ih
    · simp only [names, without, List.filter_cons, h, List.map_cons]
      simpa using ih

/-- A split puts the list together again. By induction on the list. -/
theorem splitAt?_eq_some {es before after : Entries α} {n : String} {v : α}
    (h : es.splitAt? n = some (before, v, after)) : es = before ++ (n, v) :: after := by
  induction es generalizing before with
  | nil => simp [splitAt?] at h
  | cons e es ih =>
    obtain ⟨k, w⟩ := e
    simp only [splitAt?] at h
    split at h
    · rename_i hk
      simp only [Option.some.injEq, Prod.mk.injEq] at h
      obtain ⟨rfl, rfl, rfl⟩ := h
      simp [hk]
    · split at h
      · rename_i b x a hs
        simp only [Option.some.injEq, Prod.mk.injEq] at h
        obtain ⟨rfl, rfl, rfl⟩ := h
        simp [ih hs]
      · simp at h

/-- The split fails exactly when the name is not there. -/
theorem splitAt?_eq_none_iff {es : Entries α} {n : String} :
    es.splitAt? n = none ↔ n ∉ es.names := by
  induction es with
  | nil => simp [splitAt?, names]
  | cons e es ih =>
    obtain ⟨k, w⟩ := e
    by_cases hk : k = n
    · simp [splitAt?, names, hk]
    · simp only [splitAt?, hk, if_false]
      cases hs : splitAt? es n with
      | none => simpa [names, Ne.symm hk] using ih.mp hs
      | some s =>
        have hn : ¬n ∉ names es := fun hn => by
          rw [ih.mpr hn] at hs
          simp at hs
        simpa [names, Ne.symm hk] using hn

/-- Putting keeps the names distinct. -/
theorem nodup_names_put {es : Entries α} (h : es.names.Nodup) (n : String) (v : α) :
    (put es n v).names.Nodup := by
  rw [names_put]
  split
  · exact h
  · rename_i hn
    exact List.nodup_append.mpr ⟨h, by simp, by
      intro a ha b hb
      rw [List.mem_singleton.mp hb]
      exact fun hab => hn (hab ▸ ha)⟩

/-- Erasing makes no name come twice. -/
theorem nodup_names_erase {es : Entries α} (h : es.names.Nodup) (n : String) :
    (erase es n).names.Nodup := by
  rw [names_erase]
  exact h.filter _

/-! ## Running the operations -/

example : put [("a", 1), ("b", 2)] "a" 3 = [("a", 3), ("b", 2)] := by decide
example : splitAt? [("a", 1), ("b", 2)] "b" = some ([("a", 1)], 2, []) := by decide

end Entries

end CssShorthand
