/-
  FOLDING WHAT IS THERE, AND EXPANDING IT AGAIN.

  Expanding a text that was written for longhands makes what the text expands to, and leaves all that was
  not taken out for it (`mem_expand_write`).  `background` and `list-style` are folded from those of
  their longhands that are declared (`mem_expand_foldAvailable`).

  The frame of a round trip is the same for both shorthands: the names that were taken out come back from
  the value, and no other name is touched. What is special to a shorthand is how its value is sliced, and
  that is a hypothesis here; the modules on backgrounds and list styles supply it.
-/
import CssShorthand.Proofs.Cascade.Alone
import CssShorthand.Proofs.Cascade.Fresh
import CssShorthand.Proofs.Folding.AsIs
import CssShorthand.Proofs.Folding.Write

namespace CssShorthand

open List

namespace Store

variable {s : Store} {names : List String}

/-- The plain entries are those longhands that the store holds without importance. -/
theorem mem_plainEntries_iff {x : String × Text} :
    x ∈ s.plainEntries names ↔ x.1 ∈ names ∧ s.get? x.1 = some ⟨x.2, false⟩ := by
  simp only [plainEntries, mem_filterMap, Option.map_eq_some_iff, plain?_eq_some_iff]
  constructor
  · rintro ⟨n, hn, v, hv, rfl⟩
    exact ⟨hn, hv⟩
  · rintro ⟨hn, hv⟩
    exact ⟨x.1, hn, x.2, hv, rfl⟩

/-- One name contributes its value, if it is plain, before those of the later names. -/
theorem map_plainEntries_cons (n : String) (names : List String) :
    (s.plainEntries (n :: names)).map (·.2) =
      (s.plain? n).toList ++ (s.plainEntries names).map (·.2) := by
  rw [plainEntries, filterMap_cons]
  cases s.plain? n <;> rfl

/-- A declaration of a store, and those of other names. -/
theorem exists_perm_of_mem {x : String × Declaration} (hx : x ∈ s.entries) :
    ∃ rest, s.entries ~ x :: rest ∧ ∀ y, y ∈ rest ↔ y ∈ s.entries ∧ y.1 ≠ x.1 := by
  refine ⟨List.erase s.entries x, perm_cons_erase hx, fun y => ?_⟩
  rw [s.nodup_entries.mem_erase_iff, and_comm]
  refine and_congr_right fun hy => not_congr ⟨congrArg Prod.fst, fun h => ?_⟩
  exact eq_of_mem_of_name_eq hy hx h

/-- Of names that are all listed and not important, none is left out. -/
theorem names_subset_plainEntries (hsub : s.names ⊆ names)
    (hplain : ∀ x ∈ s.entries, x.2.important = false) : s.names ⊆ (s.plainEntries names).names := by
  intro n hn
  obtain ⟨⟨m, d⟩, hd, rfl⟩ := Entries.mem_names_iff.mp hn
  refine Entries.mem_names_iff.mpr ⟨(m, d.value), mem_plainEntries_iff.mpr ⟨hsub hn, ?_⟩, rfl⟩
  rw [get?_of_mem hd, ← hplain _ hd]

/-- A store of plain declarations of the given names has no more of them than plain entries. -/
theorem size_le_length_plainEntries (hsub : s.names ⊆ names)
    (hplain : ∀ x ∈ s.entries, x.2.important = false) : s.size ≤ (s.plainEntries names).length := by
  have hle := (s.nodup_names.subperm (names_subset_plainEntries hsub hplain)).length_le
  simpa [Store.names, Entries.names, size] using hle

end Store

namespace Slices

/-- What slices say of the longhands of these names. -/
def entries (slices : Slices) (names : List (String × String)) : List (String × Text) :=
  names.filterMap fun x => (slices.get? x.1).map (x.2, ·)

variable {slices : Slices} {names : List (String × String)}

/-- The entries are the slices that were found, each under the name of its longhand. -/
theorem mem_entries_iff {e : String × Text} :
    e ∈ slices.entries names ↔ ∃ x ∈ names, slices.get? x.1 = some e.2 ∧ e.1 = x.2 := by
  simp only [entries, mem_filterMap, Option.map_eq_some_iff]
  constructor
  · rintro ⟨x, hx, v, hv, rfl⟩
    exact ⟨x, hx, hv, rfl⟩
  · rintro ⟨x, hx, hv, hname⟩
    exact ⟨x, hx, e.2, hv, by rw [← hname]⟩

/-- What slices say that agree with what is declared. -/
theorem entries_eq_plainEntries {s : Store} (h : ∀ x ∈ names, slices.get? x.1 = s.plain? x.2) :
    slices.entries names = s.plainEntries (names.map (·.2)) := by
  rw [entries, Store.plainEntries, filterMap_map]
  exact filterMap_congr fun x hx => congrArg (Option.map (x.2, ·)) (h x hx)

/-- What slices of a value say is found in the value, for the part of its name. -/
theorem found_of_mem_entries {value : Text} {ps : List Part} {e : String × Text}
    (he : e ∈ (slice value ps).entries names) : ∃ p ∈ ps, (p.suffix, e.1) ∈ names ∧ Found p value e.2 := by
  obtain ⟨⟨suffix, n⟩, hx, hget, hname⟩ := mem_entries_iff.mp he
  obtain ⟨l₁, l₂, hfound, -⟩ := lookup_eq_some_iff.mp hget
  obtain ⟨p, hp, hsuffix, hfound⟩ := found_of_mem_takeParts (hfound ▸ mem_append_right l₁ mem_cons_self)
  exact ⟨p, hp, by rwa [hsuffix, hname], hfound⟩

end Slices

namespace Folding

/-- Values of which the first is no keyword for every property are joined. -/
theorem partsText?_eq_some {total : Nat} {found : Entries Text} {v : Text} {vs : List Text}
    (hlength : 2 ≤ found.length) (hfound : found.map (·.2) = v :: vs)
    (hv : Leads v) :
    partsText? total found = some (joined (v :: vs)) := by
  have hshared : sharedKeyword? (v :: vs) = none := by simp [sharedKeyword?, hv.own]
  rw [partsText?, if_neg (Nat.not_lt.mpr hlength), hfound]
  simp [hshared]

/-- **What expansion makes of what was written**: what the text expands to, and all that was not taken out.
    The text may set what is taken out, and what is not declared at all. -/
theorem mem_expand_write {sh : Shorthand} (folded : List String) (htrim : ∀ m ∈ folded, trimName m = m)
    {s : Store} {text : Text} (hasIs : AsIs text) {es : List (String × Text)} {ignored : Text}
    (hexpand : expandValue sh.name text = .ok (.longhands es ignored)) (hes : ∀ e ∈ es, AsIs e.2)
    (hsets : ∀ e ∈ es, e.1 ∉ s.names ∨ e.1 ∈ folded) :
    ∃ t, (write folded sh.name text s).expand sh.name =
        .ok (t, Expansion.notices sh.name text (.longhands es ignored)) ∧
      ∀ x, x ∈ t.entries ↔ (∃ e ∈ es, x = (e.1, ⟨e.2, false⟩)) ∨
        x ∈ s.entries ∧ x.1 ≠ sh.name ∧ x.1 ∉ folded := by
  have hmem : ∀ {x : String × Declaration}, x ∈ (write folded sh.name text s).entries ↔
      x = (sh.name, ⟨text, false⟩) ∨ x ∈ s.entries ∧ x.1 ≠ sh.name ∧ x.1 ∉ folded :=
    mem_write_iff htrim sh.trimName_name (hasIs.declarationOfText? false)
  obtain ⟨rest, hperm, hrest⟩ := Store.exists_perm_of_mem (hmem.mpr (Or.inl rfl))
  have hspread : spread (sh.name, ⟨text, false⟩) = es.map fun e => (e.1, ⟨e.2, false⟩) :=
    (spread_of_ok (x := (sh.name, ⟨text, false⟩)) hexpand).trans (declarationsOf_of_asIs hes)
  have hlonghands : ∀ e ∈ es, e.1 ∈ sh.longhands := by
    intro e he
    have hown : sh.expand text = .ok (.longhands es ignored) := by
      simpa [expandValue, Shorthand.ofName?_name] using hexpand
    exact (Shorthand.names_expand_sublist hown).subset (mem_map_of_mem he)
  obtain ⟨t, ht, hentries⟩ := Store.exists_expand_of_new sh hperm hexpand fun n hn => by
    rw [hspread] at hn
    obtain ⟨x, hx, rfl⟩ := Entries.mem_names_iff.mp hn
    obtain ⟨e, he, rfl⟩ := mem_map.mp hx
    intro hset
    obtain ⟨y, hy, hye⟩ := Entries.mem_names_iff.mp hset
    have hye : y.1 = e.1 := hye
    rcases hmem.mp hy with rfl | ⟨hy, -, hfolded⟩
    -- the shorthand itself, which is none of its longhands
    · have hown : sh.name = e.1 := hye
      exact sh.name_not_mem_own (hown ▸ hlonghands e he)
    -- what was not taken out
    · rw [hye] at hfolded
      exact (hsets e he).elim (fun h => h (hye ▸ Entries.mem_names_of_mem hy)) hfolded
  refine ⟨t, ht, fun x => ?_⟩
  have hother : x ∈ rest ↔ x ∈ s.entries ∧ x.1 ≠ sh.name ∧ x.1 ∉ folded := by
    rw [hrest, hmem]
    constructor
    · rintro ⟨h, hne⟩
      exact h.resolve_left fun heq => hne (congrArg Prod.fst heq)
    · exact fun h => ⟨Or.inr h, h.2.1⟩
  rw [hentries.mem_iff, mem_append, hother, hspread, mem_map]
  refine or_congr ⟨?_, ?_⟩ Iff.rfl
  · rintro ⟨e, he, rfl⟩
    exact ⟨e, he, rfl⟩
  · rintro ⟨e, he, rfl⟩
    exact ⟨e, he, rfl⟩

/-- **What expansion makes of a fold**: what the text that is written expands to, and what was not folded. -/
theorem mem_expand_foldAvailable {sh : Shorthand} {names : List String} (hnodup : names.Nodup)
    (htrim : ∀ m ∈ names, trimName m = m) {s : Store} (hnew : sh.name ∉ s.names) {text : Text}
    (htext : partsText? names.length (s.plainEntries names) = some text) (hasIs : AsIs text)
    {es : List (String × Text)} {ignored : Text}
    (hexpand : expandValue sh.name text = .ok (.longhands es ignored)) (hes : ∀ e ∈ es, AsIs e.2)
    (hsets : ∀ e ∈ es, e.1 ∉ s.names ∨ e.1 ∈ (s.plainEntries names).names) :
    ∃ t, (foldAvailable names sh.name s).1.expand sh.name =
        .ok (t, Expansion.notices sh.name text (.longhands es ignored)) ∧
      ∀ x, x ∈ t.entries ↔ (∃ e ∈ es, x = (e.1, ⟨e.2, false⟩)) ∨
        x ∈ s.entries ∧ x.1 ∉ (s.plainEntries names).names := by
  obtain ⟨t, ht, hentries⟩ := mem_expand_write (s.plainEntries names).names
    (fun m hm => htrim m (Store.mem_names_plainEntries.mp hm).1) hasIs hexpand hes hsets
  refine ⟨t, ?_, fun x => (hentries x).trans (or_congr_right (and_congr_right fun hx => ?_))⟩
  · rw [foldAvailable_eq hnodup, htext]
    exact ht
  · exact and_iff_right fun hname => hnew (hname ▸ Entries.mem_names_of_mem hx)

/-- **What expansion makes of values that were joined**: what is sliced from them, and what was not
    folded. -/
theorem mem_expand_joined (sh : Shorthand)
    (hsliced : ∀ value, sh.expandOwn value = .ok (.ofSlices sh.longhandOf (slice value sh.parts)))
    {names : List String} (hnodup : names.Nodup) (htrim : ∀ m ∈ names, trimName m = m) {s : Store}
    (hnew : sh.name ∉ s.names) (hlength : 2 ≤ (s.plainEntries names).length) {v : Text}
    {vs : List Text} (hvalues : (s.plainEntries names).map (·.2) = v :: vs)
    (hv : Leads v) (hasIs : ∀ w ∈ v :: vs, AsIs w)
    (hes : ∀ e ∈ (slice (joined (v :: vs)) sh.parts).entries sh.longhandOf, AsIs e.2)
    (hsets : ∀ e ∈ (slice (joined (v :: vs)) sh.parts).entries sh.longhandOf,
      e.1 ∉ s.names ∨ e.1 ∈ (s.plainEntries names).names) :
    ∃ t, (foldAvailable names sh.name s).1.expand sh.name =
        .ok (t, Expansion.notices sh.name (joined (v :: vs))
          (.ofSlices sh.longhandOf (slice (joined (v :: vs)) sh.parts))) ∧
      ∀ x, x ∈ t.entries ↔
        (∃ e ∈ (slice (joined (v :: vs)) sh.parts).entries sh.longhandOf, x = (e.1, ⟨e.2, false⟩)) ∨
          x ∈ s.entries ∧ x.1 ∉ (s.plainEntries names).names := by
  have hexpand : expandValue sh.name (joined (v :: vs)) =
      .ok (.ofSlices sh.longhandOf (slice (joined (v :: vs)) sh.parts)) := by
    rw [expandValue, Shorthand.ofName?_name]
    simp only [Shorthand.expand, cssWideKeyword?_joined hv, hsliced]
  exact mem_expand_foldAvailable hnodup htrim hnew (partsText?_eq_some hlength hvalues hv)
    (AsIs.joined (cons_ne_nil _ _) hasIs) hexpand hes hsets

end Folding

/-- A fold, and the expansion of what it wrote. -/
theorem Edit.exec_fold_expand {f : Store → Folding.Result} {name : String} {s t u : Store}
    {notices notices' : List Notice} (hfold : f s = (u, notices))
    (hexpand : u.expand name = .ok (t, notices')) (said : List Notice) :
    (Edit.fold f >>= fun _ => Edit.expand name).exec ⟨s, said⟩ =
      (.ok (), ⟨t, said ++ notices ++ notices'⟩) := by
  have hfirst : (Edit.fold f).exec ⟨s, said⟩ = (.ok (), ⟨u, said ++ notices⟩) :=
    exec_attempt_ok (congrArg Except.ok hfold)
  rw [exec_bind, hfirst]
  exact exec_attempt_ok hexpand

end CssShorthand
