/-
  WHO WINS AMONG DECLARATIONS THAT ARE WRITTEN ONE AFTER THE OTHER.

  A property may be written several times.  It then has the value that is written last, at the place
  where it is written first (`Entries.mem_ofList_iff`, `Entries.idxOf_names_ofList_le_iff`), and the
  cascade looks at places: of the pairs that are the last of their name, that of the greatest place
  wins (`latest_place_wins`).  So a longhand that is written again after its shorthand does not win over
  it if it was written before it as well (`not_latest_pair_wins`).
-/
import CssShorthand.Proofs.Cascade.Alone

namespace CssShorthand

/-! ## Pairs and the store that they make

  From pairs in the order in which they are written to the entries of the store, with the place of each.
-/

/-- Names and values in the order in which they are written. -/
abbrev History := List (String × Text)

namespace History

/-- The store that is made by declaring the pairs in turn. -/
def store (l : History) : Store := .ofList (l.map fun p => (p.1, .text p.2))

/-- The pair makes a declaration that is not important. -/
def Declares (p : String × Text) : Prop := ∃ v, Value.declarationOfText? p.2 false = some ⟨v, false⟩

/-- The pair is the last of its name. -/
def IsLast (l : History) (p : String × Text) : Prop :=
  ∃ before after, l = before ++ p :: after ∧ ∀ q ∈ after, trimName q.1 ≠ trimName p.1

/-- The place where the name of the pair is written first. -/
def place (l : History) (p : String × Text) : Nat :=
  (l.map fun q => trimName q.1).idxOf (trimName p.1)

/-- Both pairs set, when `border` is expanded, a box of the border that the name `n` belongs to. -/
def Contend (p q : String × Text) (n : String) : Prop :=
  ∃ k ∈ Shorthand.border.longhands, n ∈ Shorthand.reach k ∧
    k ∈ ((Edit.expand Shorthand.border.name).leaves (store [p])).names ∧
    k ∈ ((Edit.expand Shorthand.border.name).leaves (store [q])).names

/-- The pair gives the name `n` the declaration `d`: it is the last of its own name, it sets `n` so when
    it is expanded on its own, and it does not have to give way as a whole box. -/
def Gives (l : History) (p : String × Text) (n : String) (d : Declaration) : Prop :=
  IsLast l p ∧ (n, d) ∈ Edit.expandAll.leaves (store [p]) ∧
    ∀ q, IsLast l q → place l p < place l q → ¬Contend p q n

/-- The entry that a pair makes. -/
def entry (p : String × Text) : String × Declaration :=
  (trimName p.1, ⟨(Cleaning.clean p.2).1, (Cleaning.clean p.2).2⟩)

variable {l : History} {p q : String × Text}

/-- A declared text is stored as its entry. -/
theorem declarationOfText?_of_declares (h : Declares p) :
    Value.declarationOfText? p.2 false = some (entry p).2 := by
  obtain ⟨v, hv⟩ := h
  unfold Value.declarationOfText? at hv ⊢
  dsimp only at hv ⊢
  split at hv
  · contradiction
  · rename_i hne
    simp [hne, entry]

/-- The declarations of a history are not important. -/
theorem important_entry (h : Declares p) : (entry p).2.important = false := by
  have hd := declarationOfText?_of_declares h
  obtain ⟨v, hv⟩ := h
  rw [hv, Option.some.injEq] at hd
  rw [← hd]

/-- The entries of the store are put in turn. -/
theorem entries_store (h : ∀ p ∈ l, Declares p) : (store l).entries = Entries.ofList (l.map entry) := by
  induction l using List.reverseRecOn with
  | nil => rfl
  | append_singleton l p ih =>
    have hp := declarationOfText?_of_declares (h p (by simp))
    have hl := ih fun q hq => h q (by simp [hq])
    have hstep : (store (l ++ [p])).entries = ((store l).add p.1 (.text p.2) false).entries := by
      simp [store, Store.ofList, Store.addAll]
    rw [hstep, List.map_append, List.map_cons, List.map_nil, Entries.ofList_append, ← hl]
    simp only [Store.add, Value.declaration?, Value.toText, hp]
    rfl

/-- The names are stored without the white space around them. -/
theorem names_map_entry (l : History) :
    Entries.names (l.map entry) = l.map fun p => trimName p.1 := by
  simp [Entries.names, entry]

/-- The declarations of the store are the last pairs of their names. -/
theorem mem_store_iff (h : ∀ p ∈ l, Declares p) {x : String × Declaration} :
    x ∈ (store l).entries ↔ ∃ p, IsLast l p ∧ entry p = x := by
  rw [entries_store h, Entries.mem_ofList_iff]
  constructor
  · rintro ⟨before, after, hl, hx⟩
    obtain ⟨l₁, l₂, rfl, rfl, hl₂⟩ := List.map_eq_append_iff.mp hl
    obtain ⟨p, l₃, rfl, rfl, rfl⟩ := List.map_eq_cons_iff.mp hl₂
    refine ⟨p, ⟨l₁, l₃, rfl, fun q hq hqp => hx ?_⟩, rfl⟩
    rw [names_map_entry]
    exact List.mem_map.mpr ⟨q, hq, hqp⟩
  · rintro ⟨p, ⟨before, after, rfl, hp⟩, rfl⟩
    refine ⟨before.map entry, after.map entry, by simp, fun hmem => ?_⟩
    rw [names_map_entry] at hmem
    obtain ⟨q, hq, hqp⟩ := List.mem_map.mp hmem
    exact hp q hq hqp

/-- The last one of its name is one of the history. -/
theorem mem_of_isLast (h : IsLast l p) : p ∈ l := by
  obtain ⟨before, after, rfl, -⟩ := h
  simp

/-- Among pairs that are last of their names, ranks are places. -/
theorem rank_le_iff_place_le (h : ∀ p ∈ l, Declares p) (hp : IsLast l p) (hq : IsLast l q) :
    (store l).rank (entry p) ≤ (store l).rank (entry q) ↔ place l p ≤ place l q := by
  have hindex : ∀ {r : String × Text}, IsLast l r →
      (store l).entries.idxOf (entry r) = (Entries.ofList (l.map entry)).names.idxOf (entry r).1 := by
    intro r hr
    have hmem := (mem_store_iff h).mpr ⟨r, hr, rfl⟩
    rw [← entries_store h, Entries.idxOf_names (store l).nodup_names hmem]
  have hname : ∀ {r : String × Text}, IsLast l r → (entry r).1 ∈ Entries.names (l.map entry) := by
    intro r hr
    rw [names_map_entry]
    exact List.mem_map.mpr ⟨r, mem_of_isLast hr, rfl⟩
  rw [Store.rank_le_iff, important_entry (h p (mem_of_isLast hp)),
    important_entry (h q (mem_of_isLast hq)), hindex hp, hindex hq,
    Entries.idxOf_names_ofList_le_iff (hname hp) (hname hq), names_map_entry]
  simp [place, entry]

/-- Nothing is important, so the ranks are the places. -/
theorem rank_lt_iff_place_lt (h : ∀ p ∈ l, Declares p) (hp : IsLast l p) (hq : IsLast l q) :
    (store l).rank (entry p) < (store l).rank (entry q) ↔ place l p < place l q := by
  rw [← not_le, ← not_le, rank_le_iff_place_le h hq hp]

/-- A history of one declaration stores that one. -/
theorem entries_store_single (h : Declares p) : (store [p]).entries = [entry p] := by
  rw [entries_store (by simpa using h)]
  rfl

/-- Two declarations of a history contend as their entries do. -/
theorem contend_iff (hp : Declares p) (hq : Declares q) (n : String) :
    Contend p q n ↔ Cascade.Contend (entry p) (entry q) n := by
  rw [Contend, Cascade.leaves_expand_border (entries_store_single hp),
    Cascade.leaves_expand_border (entries_store_single hq)]
  rfl

/-- What a pair gives is what its declaration keeps in the store. -/
theorem gives_iff (h : ∀ p ∈ l, Declares p)
    (halone : ∀ p ∈ l, ∃ t, Edit.expandAll.after (store [p]) = .ok t) (hp : IsLast l p) {n : String}
    {d : Declaration} : Gives l p n d ↔ (n, d) ∈ Cascade.settled (store l) (entry p) := by
  have hmem := mem_of_isLast hp
  rw [Cascade.mem_settled_iff_contend ((mem_store_iff h).mpr ⟨p, hp, rfl⟩), Gives, and_iff_right hp,
    Cascade.leaves_expandAll (entries_store_single (h p hmem)) (halone p hmem)]
  refine and_congr_right fun _ => ?_
  constructor
  · rintro hno z hz hlt
    obtain ⟨q, hq, rfl⟩ := (mem_store_iff h).mp hz
    rw [← contend_iff (h p hmem) (h q (mem_of_isLast hq))]
    exact hno q hq ((rank_lt_iff_place_lt h hp hq).mp hlt)
  · intro hno q hq hlt
    rw [contend_iff (h p hmem) (h q (mem_of_isLast hq))]
    exact hno _ ((mem_store_iff h).mpr ⟨q, hq, rfl⟩) ((rank_lt_iff_place_lt h hp hq).mpr hlt)

/-- **The latest place wins.**  If each pair expands on its own, all of them expand together, and a name
    has the declaration that is given to it by the pair of the greatest place. -/
theorem latest_place_wins (l : History) (hdeclares : ∀ p ∈ l, Declares p)
    (halone : ∀ p ∈ l, ∃ t, Edit.expandAll.after (store [p]) = .ok t) :
    ∃ t, Edit.expandAll.after (store l) = .ok t ∧
      ∀ n d, (n, d) ∈ t.entries ↔
        ∃ p, Gives l p n d ∧ ∀ q e, Gives l q n e → place l q ≤ place l p := by
  have hkeep : ∀ x ∈ (store l).entries,
      ∃ t, Edit.expandAll.after ((store l).keepOnly x.1) = .ok t := by
    intro x hx
    obtain ⟨p, hp, rfl⟩ := (mem_store_iff hdeclares).mp hx
    have hmem := mem_of_isLast hp
    have heq : (store l).keepOnly (entry p).1 = store [p] :=
      Store.ext ((Store.entries_keepOnly hx).trans (entries_store_single (hdeclares p hmem)).symm)
    rw [heq]
    exact halone p hmem
  -- Cascade.after_expandAll_of_alone hkeep := Nothing in a history is important, so the rank that decides in
  -- the store is the place.
  obtain ⟨t, ht, hentries⟩ := Cascade.after_expandAll_of_alone hkeep
  refine ⟨t, ht, fun n d => ?_⟩
  rw [hentries, Cascade.mem_merge]
  constructor
  · rintro ⟨x, hx, hn, hwins⟩
    obtain ⟨p, hp, rfl⟩ := (mem_store_iff hdeclares).mp hx
    refine ⟨p, (gives_iff hdeclares halone hp).mpr hn, fun q e hq => ?_⟩
    rw [← rank_le_iff_place_le hdeclares hq.1 hp]
    exact hwins _ ((mem_store_iff hdeclares).mpr ⟨q, hq.1, rfl⟩)
      (Entries.mem_names_iff.mpr ⟨(n, e), (gives_iff hdeclares halone hq.1).mp hq, rfl⟩)
  · rintro ⟨p, hp, hlatest⟩
    refine ⟨entry p, (mem_store_iff hdeclares).mpr ⟨p, hp.1, rfl⟩,
      (gives_iff hdeclares halone hp.1).mp hp, fun z hz hnz => ?_⟩
    obtain ⟨q, hq, rfl⟩ := (mem_store_iff hdeclares).mp hz
    obtain ⟨⟨m, e⟩, he, rfl⟩ := Entries.mem_names_iff.mp hnz
    rw [rank_le_iff_place_le hdeclares hq hp.1]
    exact hlatest q e ((gives_iff hdeclares halone hq).mpr he)

/-- A margin between two margins of the top, and a width of the border before a border. -/
def repeated : History :=
  [("margin-top", "1px".toList), ("margin", "2px".toList), ("margin-top", "3px".toList),
    ("border-width", "1px 4px".toList), ("border", "2px solid".toList)]

/-- The condition on a declared text, in the form that is computed. -/
theorem declares_of_any {p : String × Text}
    (h : (Value.declarationOfText? p.2 false).any (fun d => !d.important) = true) : Declares p := by
  cases hd : Value.declarationOfText? p.2 false with
  | none => simp [hd] at h
  | some d =>
    obtain ⟨v, i⟩ := d
    obtain rfl : i = false := by simpa [hd] using h
    exact ⟨v, hd⟩

/-- A longhand on both sides of its shorthand, which wins as the longhand keeps its first place, and a border
    behind one of its parts. -/
theorem repeated_latest_place_wins :
    (∀ p ∈ repeated, Declares p) ∧
    (∀ p ∈ repeated, ∃ t, Edit.expandAll.after (store [p]) = .ok t) ∧
    ∃ t, Edit.expandAll.after (store repeated) = .ok t ∧
      ∀ n d, (n, d) ∈ t.entries ↔
        ∃ p, Gives repeated p n d ∧ ∀ q e, Gives repeated q n e → place repeated q ≤ place repeated p := by
  have hdeclares : ∀ p ∈ repeated, Declares p := by
    have h : ∀ p ∈ repeated,
        (Value.declarationOfText? p.2 false).any (fun d => !d.important) = true := by
      decide +kernel
    exact fun p hp => declares_of_any (h p hp)
  have halone : ∀ p ∈ repeated, ∃ t, Edit.expandAll.after (store [p]) = .ok t := by
    have h : ∀ p ∈ repeated, (Edit.expandAll.after (store [p])).isOk = true := by decide +kernel
    exact fun p hp => Edit.exists_of_isOk (h p hp)
  exact ⟨hdeclares, halone, latest_place_wins repeated hdeclares halone⟩

/-- A margin of the top that is written again after the margin. -/
def overwritten : History :=
  [("margin-top", "1px".toList), ("margin", "2px".toList), ("margin-top", "3px".toList)]

/-- **The pair that is written last need not win.**  The margin of the top is written after the margin,
    but its place is before it. -/
theorem not_latest_pair_wins :
    ¬∀ l : History, (∀ p ∈ l, Declares p) →
      (∀ p ∈ l, ∃ t, Edit.expandAll.after (store [p]) = .ok t) →
      ∃ t, Edit.expandAll.after (store l) = .ok t ∧
        ∀ before p after n d, l = before ++ p :: after →
          (n, d) ∈ Edit.expandAll.leaves (store [p]) →
          (∀ q ∈ after, n ∉ (Edit.expandAll.leaves (store [q])).names) → (n, d) ∈ t.entries := by
  intro h
  have hdeclares : ∀ p ∈ overwritten, (Value.declarationOfText? p.2 false).any (fun d => !d.important) = true := by
    decide +kernel
  have halone : ∀ p ∈ overwritten, (Edit.expandAll.after (store [p])).isOk = true := by decide +kernel
  obtain ⟨t, ht, hlast⟩ := h overwritten (fun p hp => declares_of_any (hdeclares p hp))
    fun p hp => Edit.exists_of_isOk (halone p hp)
  have hset : ("margin-top", ⟨"3px".toList, false⟩) ∈ t.entries :=
    hlast (overwritten.take 2) ("margin-top", "3px".toList) [] _ _ rfl (by decide +kernel) (by simp)
  have hnot : ("margin-top", ⟨"3px".toList, false⟩) ∉ Edit.expandAll.leaves (store overwritten) := by
    decide +kernel
  exact hnot (Edit.leaves_of_ok ht ▸ hset)

end History

end CssShorthand
