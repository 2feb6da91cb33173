/-
  ONE EXPANSION STEP KEEPS THE CASCADE.

  The declarations of a store are ranked by importance, then by position (`Store.rank`).  While its
  shorthands are expanded one after the other, a store holds at every moment the merge of what its
  first declarations have spread into so far, by the ranks that these have in the first store: that is
  the invariant of the run.  `Store.yields`, which compares importance and place in the store as it is
  now, decides as the ranks in the first store do (`yields_iff_wins`), and so a step leads from merge to
  merge (`map_expand_of_merge`).

  One step takes the entry of a shorthand out and puts in its longhands, but for those that another entry
  keeps: one that is important while the shorthand is not, or one that stands behind it with the same
  importance. The proof compares this with the ranks: an entry that is there now was set by a source, and it
  stands before the shorthand exactly if its source does.
-/
import CssShorthand.Proofs.Cascade.Spread

namespace CssShorthand

namespace Store

/-- The rank of a declaration in a store: important over not important, then later over earlier. -/
def rank (s : Store) (x : String × Declaration) : Bool ×ₗ Nat :=
  toLex (x.2.important, s.entries.idxOf x)

/-- No entry comes twice, since no name does. -/
theorem nodup_entries (s : Store) : s.entries.Nodup :=
  List.Nodup.of_map _ s.nodup_names

/-- There is one declaration of a name. -/
theorem eq_of_mem_of_name_eq {s : Store} {x y : String × Declaration} (hx : x ∈ s.entries)
    (hy : y ∈ s.entries) (h : x.1 = y.1) : x = y :=
  Entries.eq_of_name_eq s.nodup_names hx hy h

/-- No two declarations share a rank. -/
theorem eq_of_rank_eq {s : Store} {x y : String × Declaration} (hx : x ∈ s.entries)
    (h : s.rank x = s.rank y) : x = y :=
  (List.idxOf_inj hx).mp (congrArg (fun r => (ofLex r).2) h)

/-- Importance decides first, then the place. -/
theorem rank_le_iff {s : Store} {x y : String × Declaration} :
    s.rank x ≤ s.rank y ↔
      (x.2.important = false ∧ y.2.important = true) ∨
        (x.2.important = y.2.important ∧ s.entries.idxOf x ≤ s.entries.idxOf y) := by
  rw [rank, rank, Prod.Lex.toLex_le_toLex]
  cases x.2.important <;> cases y.2.important <;> simp

/-- Before an entry stand those with a smaller index. -/
theorem mem_before_iff {s : Store} {before after : Entries Declaration}
    {x y : String × Declaration} (hs : s.entries = before ++ x :: after) (hyx : y ≠ x) :
    y ∈ before ↔ s.entries.idxOf y ≤ s.entries.idxOf x := by
  have hnodup := s.nodup_entries
  rw [hs, List.nodup_append] at hnodup
  have hx : x ∉ before := fun h => hnodup.2.2 x h x (by simp) rfl
  have hxi : s.entries.idxOf x = before.length := by simp [hs, List.idxOf_append, hx]
  rw [hxi]
  by_cases hb : y ∈ before
  · have : s.entries.idxOf y = before.idxOf y := by simp [hs, List.idxOf_append, hb]
    simpa [hb, this] using (List.idxOf_lt_length_of_mem hb).le
  · have : s.entries.idxOf y = (after.idxOf y + 1) + before.length := by
      simp [hs, List.idxOf_append, hb, Ne.symm hyx]
    simp only [hb, this, false_iff]
    omega

/-- The first store is the merge of its own entries. -/
theorem merge_self (s : Store) : Cascade.merge s.rank s.entries (fun x => [x]) = s.entries := by
  have hwins : ∀ x ∈ s.entries, Cascade.Wins s.rank s.entries (fun x => [x]) x x.1 := by
    intro x hx y hy hn
    simp only [Entries.names, List.map_cons, List.map_nil, List.mem_singleton] at hn
    rw [eq_of_mem_of_name_eq hx hy hn]
  calc Cascade.merge s.rank s.entries (fun x => [x]) = s.entries.flatMap fun x => [x] :=
        List.flatMap_congr fun x hx => by simp [hwins x hx]
    _ = s.entries := by simp

end Store

namespace Cascade

variable {s st : Store} {sets : String × Declaration → Entries Declaration}

/-- What the sources of a merge have to satisfy: importance is that of the source, and no source sets a
    name twice. -/
structure Sound (s : Store) (sets : String × Declaration → Entries Declaration) : Prop where
  important_eq : ∀ a ∈ s.entries, ∀ x ∈ sets a, x.2.important = a.2.important
  nodup_names : ∀ a ∈ s.entries, (sets a).names.Nodup

/-- A name that the source `a` does not set stands before its place in the merge if the winner of the
    name stands before `a` in the store. -/
theorem mem_names_before_iff {a o : String × Declaration} {before after : Entries Declaration}
    (hs : s.entries = before ++ a :: after) {es : Entries Declaration} (hes : ∀ x ∈ es, x ∈ sets a)
    {n : String} (hn : n ∉ (sets a).names) (ho : o ∈ s.entries) (hon : n ∈ (sets o).names)
    (hwo : Wins s.rank s.entries sets o n) :
    n ∈ Entries.names
        (before.flatMap (fun b => (sets b).filter fun x => Wins s.rank s.entries sets b x.1) ++
          es.filter fun x => Wins s.rank s.entries sets a x.1) ↔
      s.entries.idxOf o ≤ s.entries.idxOf a := by
  have hoa : o ≠ a := fun h => hn (h ▸ hon)
  rw [← Store.mem_before_iff hs hoa, Entries.names_append, List.mem_append]
  constructor
  · rintro (h | h)
    · obtain ⟨x, hx, rfl⟩ := Entries.mem_names_iff.mp h
      obtain ⟨b, hb, hx⟩ := List.mem_flatMap.mp hx
      simp only [List.mem_filter, decide_eq_true_eq] at hx
      have hbs : b ∈ s.entries := by simp [hs, hb]
      have hrank := rank_eq_of_wins hbs ho (Entries.mem_names_of_mem hx.1) hon hx.2 hwo
      exact Store.eq_of_rank_eq hbs hrank ▸ hb
    · obtain ⟨x, hx, rfl⟩ := Entries.mem_names_iff.mp h
      exact absurd (Entries.mem_names_of_mem (hes x (List.mem_filter.mp hx).1)) hn
  · intro hb
    obtain ⟨x, hx, rfl⟩ := Entries.mem_names_iff.mp hon
    refine Or.inl (Entries.mem_names_iff.mpr ⟨x, List.mem_flatMap.mpr ⟨o, hb, ?_⟩, rfl⟩)
    exact List.mem_filter.mpr ⟨hx, decide_eq_true hwo⟩

/-- **Places decide as ranks do.**  A new declaration at the place where the source `a` stands in the
    merge wins over the one that is there if no source of the name ranks above `a`. -/
theorem yields_iff_wins (hsound : Sound s sets) (hst : st.entries = merge s.rank s.entries sets)
    {a : String × Declaration} {before after : Entries Declaration}
    (hs : s.entries = before ++ a :: after) {es : Entries Declaration}
    (hes : ∀ x ∈ es, x ∈ sets a) {n : String} {d : Declaration}
    (hd : d.important = a.2.important) (hn : n ∉ (sets a).names) :
    st.yields
        (before.flatMap (fun b => (sets b).filter fun x => Wins s.rank s.entries sets b x.1) ++
          es.filter fun x => Wins s.rank s.entries sets a x.1) n d = true ↔
      Wins s.rank s.entries sets a n := by
  unfold Store.yields
  cases hfind : st.entries.find? n with
  | none =>
    have hnone := Entries.find?_eq_none_iff.mp hfind
    rw [hst, mem_names_merge] at hnone
    simp only [true_iff]
    exact fun b hb hbn => absurd ⟨b, hb, hbn⟩ hnone
  | some e =>
    -- The declaration that is there comes from the source that wins the name.
    have hmem := (Entries.find?_eq_some_iff st.nodup_names).mp hfind
    rw [hst, mem_merge] at hmem
    obtain ⟨o, ho, hoe, hwo⟩ := hmem
    have hon := Entries.mem_names_of_mem hoe
    have hwins : Wins s.rank s.entries sets a n ↔ s.rank o ≤ s.rank a :=
      ⟨fun h => h o ho hon, fun h b hb hbn => (hwo b hb hbn).trans h⟩
    have hoi : o.2.important = e.important := (hsound.important_eq o ho _ hoe).symm
    rw [hwins, Store.rank_le_iff, hoi, ← mem_names_before_iff hs hes hn ho hon hwo]
    dsimp only
    rw [hd]
    cases a.2.important <;> cases e.important <;> simp

/-- **A step leads from merge to merge.**  The only source of a shorthand spreads its entry, which can
    be read and spreads into names that are new to the source. -/
theorem map_expand_of_merge (hsound : Sound s sets) (hst : st.entries = merge s.rank s.entries sets)
    {sh : Shorthand} {a : String × Declaration} {d : Declaration} {e : Expansion}
    (ha : a ∈ s.entries) (hd : (sh.name, d) ∈ sets a)
    (honly : ∀ b ∈ s.entries, sh.name ∈ (sets b).names → b = a)
    (he : expandValue sh.name d.value = .ok e)
    (hnew : e ≠ .whole → ∀ n ∈ (spread (sh.name, d)).names, n ∉ (sets a).names) :
    ∃ t, (st.expand sh.name).map (·.1) = .ok t ∧
      t.entries = merge s.rank s.entries fun b => (sets b).expandAt sh.name spread := by
  obtain ⟨es, fs, hset⟩ := List.append_of_mem hd
  obtain ⟨before, after, hs⟩ := List.append_of_mem ha
  have hw : Wins s.rank s.entries sets a sh.name := fun b hb hn => honly b hb hn ▸ le_refl _
  have haround := merge_eq_around hs hset hw
  rw [← hst] at haround
  obtain ⟨t, ht, hcase⟩ := Store.map_expand_of_ok haround he
  refine ⟨t, ht, ?_⟩
  rcases hcase with ⟨rfl, rfl⟩ | ⟨hne, ht⟩
  · -- The value says all at once: the entry gives way to itself.
    rw [hst]
    refine merge_ext fun b hb => (Entries.expandAt_eq_self fun x hx hxm => ?_).symm
    obtain rfl := honly b hb (hxm ▸ Entries.mem_names_of_mem hx)
    obtain rfl := Entries.eq_of_name_eq (hsound.nodup_names b hb) hx hd hxm
    simp [spread, he, Expansion.entries]
  · rw [ht]
    have hnew := hnew hne
    refine (merge_expandAt ⟨ha, hd, honly, hsound.nodup_names a ha,
      fun b _ h => Store.eq_of_rank_eq ha h, hnew, fun x hx => ?_⟩ s.nodup_entries hs hset).symm
    have hx' := hnew x.1 (Entries.mem_names_of_mem hx)
    exact yields_iff_wins hsound hst hs (fun y hy => by simp [hset, hy])
      ((important_of_mem_spread hx).trans (hsound.important_eq a ha _ hd)) hx'

end Cascade

end CssShorthand
