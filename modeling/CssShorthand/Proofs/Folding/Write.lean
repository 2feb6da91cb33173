/-
  WHAT ONE FOLD CHANGES.

  A fold takes longhands out that are declared and not important, and writes one shorthand
  (`Folding.get?_write`).  `Folding.Frame` says what follows for all other names: a fold with a target
  and sources leaves every name alone that is neither, and every important declaration that is not of
  the target.  Each fold has its frame, and what it writes is said by what is plainly declared before
  (`plain?`).
-/
import CssShorthand.Folding
import CssShorthand.Proofs.Cascade.Spread

namespace CssShorthand

namespace Store

/-- The value of a name that is declared and not important. -/
def plain? (s : Store) (n : String) : Option Text :=
  match s.get? n with
  | some d => if d.important then none else some d.value
  | none => none

/-- A plain value is that of a declaration that is not important. -/
theorem plain?_eq_some_iff {s : Store} {n : String} {v : Text} :
    s.plain? n = some v ↔ s.get? n = some ⟨v, false⟩ := by
  unfold plain?
  cases s.get? n with
  | none => simp
  | some d =>
    obtain ⟨w, i⟩ := d
    cases i <;> simp

/-- The entries of the names that are declared and not important, in the order of `names`. -/
def plainEntries (s : Store) (names : List String) : Entries Text :=
  names.filterMap fun n => (s.plain? n).map (n, ·)

/-- Plain entries come in the order of the names. -/
theorem names_plainEntries_sublist (s : Store) (names : List String) :
    (s.plainEntries names).names.Sublist names := by
  induction names with
  | nil => exact List.Sublist.refl _
  | cons n names ih =>
    unfold plainEntries Entries.names at ih ⊢
    cases hn : s.plain? n with
    | none => simpa [hn] using ih.cons n
    | some v => simpa [hn] using ih.cons_cons n

/-- The names of the plain entries are those with a plain value. -/
theorem mem_names_plainEntries {s : Store} {names : List String} {n : String} :
    n ∈ (s.plainEntries names).names ↔ n ∈ names ∧ ∃ v, s.plain? n = some v := by
  simp only [Entries.mem_names_iff, plainEntries, List.mem_filterMap, Option.map_eq_some_iff]
  constructor
  · rintro ⟨x, ⟨m, hm, v, hv, rfl⟩, rfl⟩
    exact ⟨hm, v, hv⟩
  · rintro ⟨hn, v, hv⟩
    exact ⟨(n, v), ⟨n, hn, v, hv, rfl⟩, rfl⟩

/-- Deleted names are gone, others are looked up as before. By induction on the names. -/
theorem get?_foldl_delete {names : List String} (htrim : ∀ n ∈ names, trimName n = n) (s : Store)
    {m : String} (hm : trimName m = m) :
    (names.foldl delete s).get? m = if m ∈ names then none else s.get? m := by
  induction names generalizing s with
  | nil => rfl
  | cons n names ih =>
    rw [List.foldl_cons, ih (fun k hk => htrim k (List.mem_cons_of_mem _ hk)), get?_delete,
      htrim n (by simp), hm]
    by_cases hmn : m ∈ names
    · simp [hmn]
    · by_cases hnm : n = m
      · simp [hnm]
      · simp [hmn, hnm, Ne.symm hnm]

/-- Deleting keeps the order of the rest. -/
theorem names_foldl_delete {ns : List String} (htrim : ∀ n ∈ ns, trimName n = n) (s : Store) :
    (ns.foldl delete s).names = s.names.filter (· ∉ ns) := by
  induction ns generalizing s with
  | nil => simp
  | cons n ns ih =>
    rw [List.foldl_cons, ih fun m hm => htrim m (List.mem_cons_of_mem _ hm)]
    have hdelete : (s.delete n).names = s.names.filter (· ≠ n) := by
      rw [names, delete, Entries.names_erase, htrim n (by simp)]
      rfl
    rw [hdelete, List.filter_filter]
    exact List.filter_congr fun m _ => by simp [Bool.and_comm]

/-- A new name goes to the end; one that is there keeps its place. -/
theorem names_put_of_trim {n : String} (htrim : trimName n = n) (s : Store) (d : Declaration) :
    (s.put n d).names = if n ∈ s.names then s.names else s.names ++ [n] := by
  rw [names, put, Entries.names_put, htrim]
  rfl

end Store

namespace Folding

/-- After longhands are taken out and a shorthand is written: the shorthand has what its text declares,
    the longhands are gone, and all else is as before. -/
theorem get?_write {longhands : List String} {shorthand n : String} {value : Text} (s : Store)
    (hlong : ∀ m ∈ longhands, trimName m = m) (hshort : trimName shorthand = shorthand)
    (hn : trimName n = n) :
    (write longhands shorthand value s).get? n =
      if shorthand = n then Value.declarationOfText? value false
      else if n ∈ longhands then none else s.get? n := by
  rw [write, Store.get?_add, Store.get?_foldl_delete hlong s hn, hshort, hn]
  rfl

/-- What is declared after that. -/
theorem mem_write_iff {longhands : List String} {shorthand : String} {value : Text} {d : Declaration}
    {s : Store} (hlong : ∀ m ∈ longhands, trimName m = m) (hshort : trimName shorthand = shorthand)
    (hd : Value.declarationOfText? value false = some d) {x : String × Declaration} :
    x ∈ (write longhands shorthand value s).entries ↔
      x = (shorthand, d) ∨ x ∈ s.entries ∧ x.1 ≠ shorthand ∧ x.1 ∉ longhands := by
  obtain ⟨n, e⟩ := x
  by_cases hn : trimName n = n
  · rw [← Store.get?_eq_some_iff hn, ← Store.get?_eq_some_iff hn, get?_write s hlong hshort hn, hd]
    by_cases hname : shorthand = n
    · subst hname
      simp [eq_comm]
    · by_cases hmem : n ∈ longhands
      · simp [hname, Ne.symm hname, hmem]
      · simp [hname, Ne.symm hname, hmem]
  · refine iff_of_false (fun h => hn (Store.trimName_of_mem _ n (Entries.mem_names_of_mem h))) ?_
    rintro (h | ⟨h, -⟩)
    · exact hn ((Prod.mk.inj h).1 ▸ hshort)
    · exact hn (s.trimName_of_mem n (Entries.mem_names_of_mem h))

/-- The names after that: the shorthand stands where it stood before, or at the end. -/
theorem names_write {longhands : List String} {shorthand : String} {value : Text} {d : Declaration}
    (hlong : ∀ m ∈ longhands, trimName m = m) (hshort : trimName shorthand = shorthand)
    (hnot : shorthand ∉ longhands) (hd : Value.declarationOfText? value false = some d) (s : Store) :
    (write longhands shorthand value s).names =
      s.names.filter (· ∉ longhands) ++ if shorthand ∈ s.names then [] else [shorthand] := by
  have hadd : ∀ t : Store, t.add shorthand (.text value) false = t.put shorthand d := by
    intro t
    have hvalue : (Value.text value).declaration? false = some d := hd
    rw [Store.add, hvalue]
  have hmem : shorthand ∈ s.names.filter (· ∉ longhands) ↔ shorthand ∈ s.names := by simp [hnot]
  rw [write, hadd, Store.names_put_of_trim hshort, Store.names_foldl_delete hlong]
  simp only [hmem]
  split <;> simp

/-- What a fold leaves alone: names that are neither its target nor its sources, and important
    declarations of other names than its target. -/
structure Frame (f : Store → Result) (target : String) (sources : List String) : Prop where
  get?_of_not_mem : ∀ s n, trimName n = n → n ≠ target → n ∉ sources → (f s).1.get? n = s.get? n
  get?_important : ∀ s n (d : Declaration), trimName n = n → n ≠ target → d.important = true →
    ((f s).1.get? n = some d ↔ s.get? n = some d)

/-- Taking out what is not important and writing a shorthand leaves important declarations of other
    names alone. -/
theorem get?_write_important {longhands : List String} {shorthand n : String} {value : Text}
    {s : Store} {d : Declaration} (hlong : ∀ m ∈ longhands, trimName m = m)
    (hshort : trimName shorthand = shorthand)
    (hplain : ∀ m ∈ longhands, ∃ v, s.plain? m = some v) (hn : trimName n = n) (hne : n ≠ shorthand)
    (hd : d.important = true) :
    (write longhands shorthand value s).get? n = some d ↔ s.get? n = some d := by
  rw [get?_write s hlong hshort hn, if_neg (Ne.symm hne)]
  split
  · rename_i hmem
    obtain ⟨v, hv⟩ := hplain n hmem
    rw [Store.plain?_eq_some_iff.mp hv]
    refine ⟨nofun, fun h => ?_⟩
    obtain rfl := Option.some.inj h
    contradiction
  · rfl

/-! ## Folds of all or nothing

  All values are there and none is important, or nothing is done.
-/

/-- What all members of a list have: each has something, and nothing else is had. -/
theorem exists_of_mapM_eq_some {α β : Type} {f : α → Option β} {l : List α} {r : List β}
    (h : l.mapM f = some r) :
    (∀ a ∈ l, ∃ b ∈ r, f a = some b) ∧ ∀ b ∈ r, ∃ a ∈ l, f a = some b := by
  induction l generalizing r with
  | nil =>
    obtain rfl : [] = r := Option.some.inj h
    simp
  | cons a l ih =>
    rw [List.mapM_cons] at h
    obtain ⟨b, hb, h⟩ := Option.bind_eq_some_iff.mp h
    obtain ⟨bs, hbs, h⟩ := Option.bind_eq_some_iff.mp h
    obtain rfl : b :: bs = r := Option.some.inj h
    obtain ⟨hleft, hright⟩ := ih hbs
    constructor
    · refine List.forall_mem_cons.mpr ⟨⟨b, List.mem_cons_self, hb⟩, fun x hx => ?_⟩
      obtain ⟨y, hy, hxy⟩ := hleft x hx
      exact ⟨y, List.mem_cons_of_mem _ hy, hxy⟩
    · refine List.forall_mem_cons.mpr ⟨⟨a, List.mem_cons_self, hb⟩, fun y hy => ?_⟩
      obtain ⟨x, hx, hxy⟩ := hright y hy
      exact ⟨x, List.mem_cons_of_mem _ hx, hxy⟩

/-- If all values are there, each is. -/
theorem mapM_plain?_eq_some {s : Store} {names : List String} {vs : List Text}
    (h : names.mapM s.plain? = some vs) : ∀ n ∈ names, ∃ v, s.plain? n = some v := fun n hn =>
  ((exists_of_mapM_eq_some h).1 n hn).imp fun _ hv => hv.2

/-- All are plainly declared if all are declared and none is important. -/
theorem map_mapM_plain? (s : Store) (names : List String) :
    (names.mapM s.plain?).map (fun vs => vs.map (⟨·, false⟩)) =
      match names.mapM s.get? with
      | some ds => if ds.any (·.important) then none else some ds
      | none => none := by
  -- On the names: the program looks up all of them first and asks for their importance afterwards.
  induction names with
  | nil => rfl
  | cons n names ih =>
    rw [List.mapM_cons, List.mapM_cons]
    unfold Store.plain? at ih ⊢
    cases hn : s.get? n with
    | none => rfl
    | some d =>
      obtain ⟨w, i⟩ := d
      cases hns : names.mapM s.get? with
      | none =>
        rw [hns] at ih
        cases i <;> simp [Option.map_eq_none_iff.mp ih]
      | some ds =>
        rw [hns] at ih
        by_cases hds : ds.any (·.important) = true
        · have := Option.map_eq_none_iff.mp (ih.trans (if_pos hds))
          cases i <;> simp [this, hds]
        · obtain ⟨vs, hvs, rfl⟩ := Option.map_eq_some_iff.mp (ih.trans (if_neg hds))
          cases i <;> simp [hvs]

/-- All of the names are foldable if all are plainly declared. -/
theorem allOf_fst (s : Store) (names : List String) (shorthand : String) :
    (allOf s names shorthand).1 = (names.mapM s.plain?).map fun vs => vs.map (⟨·, false⟩) := by
  rw [map_mapM_plain?, allOf]
  cases names.mapM s.get? with
  | none => rfl
  | some ds => dsimp only; split <;> rfl

/-- What a fold of all or nothing is: it writes a shorthand in the place of names that are all plainly
    declared, or does nothing. -/
theorem frame_of_mapM {f : Store → Result} {names : List String} {shorthand : String}
    (hnames : ∀ m ∈ names, trimName m = m) (hshort : trimName shorthand = shorthand)
    (hf : ∀ s, (f s).1 = s ∨ ∃ v vs, names.mapM s.plain? = some vs ∧
      (f s).1 = write names shorthand v s) : Frame f shorthand names where
  get?_of_not_mem s n hn hne hmem := by
    rcases hf s with h | ⟨v, vs, -, h⟩
    · rw [h]
    · rw [h, get?_write s hnames hshort hn, if_neg (Ne.symm hne), if_neg hmem]
  get?_important s n d hn hne hd := by
    rcases hf s with h | ⟨v, vs, hvs, h⟩
    · rw [h]
    · rw [h]
      exact get?_write_important hnames hshort (mapM_plain?_eq_some hvs) hn hne hd

/-! ## Folds of what is there

  The values that are there and not important, if they are two or more.
-/

/-- The text that parts are folded into, if there are at least two of them; a keyword is shared only if
    all `total` parts are there. -/
def partsText? (total : Nat) (found : Entries Text) : Option Text :=
  if found.length < 2 then none
  else
    let values := found.map (·.2)
    some ((if found.length = total then sharedKeyword? values else none).getD (joined values))

/-- What is available is the plain entries: the program collects them in a mapping, which makes no difference
    as no name comes twice. -/
theorem available_eq {names : List String} (h : names.Nodup) (s : Store) :
    available s names = s.plainEntries names := by
  have hfound : available s names = Entries.ofList (s.plainEntries names) := by
    refine congrArg Entries.ofList (List.filterMap_congr fun n _ => ?_)
    unfold Store.plain?
    cases s.get? n with
    | none => rfl
    | some d =>
      obtain ⟨w, i⟩ := d
      cases i <;> rfl
  rw [hfound, Entries.ofList_of_nodup (h.sublist (s.names_plainEntries_sublist names))]

/-- Folding what is available writes the text of its parts, if there is one. -/
theorem foldAvailable_eq {names : List String} (h : names.Nodup) (shorthand : String) (s : Store) :
    (foldAvailable names shorthand s).1 =
      match partsText? names.length (s.plainEntries names) with
      | some v => write (s.plainEntries names).names shorthand v s
      | none => s := by
  simp only [foldAvailable, available_eq h, partsText?]
  split <;> rfl

/-- Folding what is available touches the shorthand and the names it is made of. -/
theorem frame_foldAvailable {names : List String} (h : names.Nodup)
    (hnames : ∀ m ∈ names, trimName m = m) {shorthand : String}
    (hshort : trimName shorthand = shorthand) :
    Frame (foldAvailable names shorthand) shorthand names where
  get?_of_not_mem s n hn hne hmem := by
    rw [foldAvailable_eq h]
    split
    · have hlong : ∀ m ∈ (s.plainEntries names).names, trimName m = m :=
        fun m hm => hnames m (Store.mem_names_plainEntries.mp hm).1
      rw [get?_write s hlong hshort hn, if_neg (Ne.symm hne),
        if_neg fun hm => hmem (Store.mem_names_plainEntries.mp hm).1]
    · rfl
  get?_important s n d hn hne hd := by
    rw [foldAvailable_eq h]
    split
    · exact get?_write_important (fun m hm => hnames m (Store.mem_names_plainEntries.mp hm).1) hshort
        (fun m hm => (Store.mem_names_plainEntries.mp hm).2) hn hne hd
    · rfl

/-- What such a fold makes of its target. -/
theorem get?_foldAvailable {names : List String} (h : names.Nodup)
    (hnames : ∀ m ∈ names, trimName m = m) {shorthand : String}
    (hshort : trimName shorthand = shorthand) (s : Store) :
    (foldAvailable names shorthand s).1.get? shorthand =
      match partsText? names.length (s.plainEntries names) with
      | some v => Value.declarationOfText? v false
      | none => s.get? shorthand := by
  rw [foldAvailable_eq h]
  split
  · rw [get?_write s (fun m hm => hnames m (Store.mem_names_plainEntries.mp hm).1) hshort hshort,
      if_pos rfl]
  · rfl

/-! ## What is said

  Notices are given for important declarations only.
-/

/-- Nothing is said of names that are not important. -/
theorem allOf_snd_eq_nil {s : Store} {names : List String} (shorthand : String)
    (h : ∀ n ∈ names, ∀ d, s.get? n = some d → d.important = false) :
    (allOf s names shorthand).2 = [] := by
  unfold allOf
  split
  · rfl
  · rename_i ds hds
    have hplain : ds.any (·.important) = false := by
      rw [List.any_eq_false]
      intro d hd
      obtain ⟨n, hn, hnd⟩ := (exists_of_mapM_eq_some hds).2 d hd
      simp [h n hn d hnd]
    rw [hplain]
    rfl

/-- With none of its names declared a fold does nothing and says nothing. -/
theorem foldAvailable_of_none {s : Store} {names : List String} (shorthand : String)
    (h : ∀ n ∈ names, s.get? n = none) : foldAvailable names shorthand s = (s, []) := by
  have hnone : ∀ {β : Type} (f : String → Declaration → Option β),
      names.filterMap (fun n => match s.get? n with | some d => f n d | none => none) = [] := by
    intro β f
    refine List.filterMap_eq_nil_iff.mpr fun n hn => ?_
    rw [h n hn]
  have havailable : available s names = [] := congrArg Entries.ofList
    (hnone fun n d => if d.important then none else some (n, d.value))
  have hkept : keptOut s names shorthand = [] :=
    hnone fun n d => if d.important then some (Notice.keptOut n shorthand) else none
  rw [foldAvailable, havailable, hkept]
  rfl

end Folding

end CssShorthand
