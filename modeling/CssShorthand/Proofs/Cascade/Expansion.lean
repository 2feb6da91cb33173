/-
  EXPANDING ALL SHORTHANDS COMPUTES THE CASCADE.

  `border` comes first: its longhands are box shorthands, and these may be declared as well.  For each
  of them one declaration wins, that of `border` or its own, and the other is gone with all that it
  would have set (`decided`).  From then on no name of a shorthand has more than one source, and the
  other shorthands are expanded in turn, each by one step of the cascade (`map_expand_of_staged`).

  The result is `after_expandAll`: the expansion succeeds if the declarations that are left after
  `border` can be read, and then the store is the merge of what these spread into, by the ranks in the
  first store.
-/
import CssShorthand.Proofs.Cascade.Step
import CssShorthand.Proofs.Edit.Outcome

namespace CssShorthand

namespace Shorthand

/-- The shorthands that are expanded after `border`. -/
def afterBorder : List Shorthand := all.tail

/-- The names that a declaration of the name `n` may spread into: its own and those of its
    longhands. -/
def reach (n : String) : List String :=
  n :: match ofName? n with
    | some s => s.longhands
    | none => []

/-- A shorthand reaches itself and its longhands. -/
theorem reach_name (s : Shorthand) : reach s.name = s.name :: s.longhands := by
  simp [reach, ofName?_name]

/-- The list of shorthands is complete. -/
theorem mem_all (s : Shorthand) : s ∈ all := by
  cases s with
  | box b => cases b <;> decide
  | borderSide d => cases d <;> decide
  | _ => decide

/-- All shorthands but the border come after it. -/
theorem mem_afterBorder {s : Shorthand} (h : s ≠ .border) : s ∈ afterBorder := by
  have hs := s.mem_all
  rw [show all = .border :: afterBorder from rfl, List.mem_cons] at hs
  exact hs.resolve_left h

/-- Only `border` has shorthands among its longhands. -/
theorem name_not_mem_longhands : ∀ s ∈ afterBorder, ∀ s' ∈ all, s'.name ∉ s.longhands := by
  decide

/-- No shorthand is its own longhand. -/
theorem name_not_mem_own (s : Shorthand) : s.name ∉ s.longhands := by
  have h : ∀ s ∈ all, s.name ∉ s.longhands := by decide
  exact h s s.mem_all

/-- No longhand of `border` is a longhand of another. -/
theorem disjoint_reach : ∀ m ∈ border.longhands, ∀ n ∈ border.longhands, m ≠ n →
    List.Disjoint (reach m) (reach n) := by
  have h : ∀ m ∈ border.longhands, ∀ n ∈ border.longhands, m ≠ n → ∀ k ∈ reach m, k ∉ reach n := by
    decide
  exact fun m hm n hn hmn k hk hk' => h m hm n hn hmn k hk hk'

/-- No two boxes of the border reach a name in common. -/
theorem eq_of_mem_reach {m n k : String} (hm : m ∈ border.longhands) (hn : n ∈ border.longhands)
    (hkm : k ∈ reach m) (hkn : k ∈ reach n) : m = n := by
  by_contra h
  exact disjoint_reach m hm n hn h hkm hkn

/-- The longhands of `border` are boxes. -/
theorem exists_box_of_mem_longhands :
    ∀ n ∈ border.longhands, ∃ b : BoxShorthand, n = b.name := by
  intro n hn
  simp only [longhands, longhandOf, List.map_cons, List.map_nil, List.mem_cons, List.not_mem_nil,
    or_false] at hn
  rcases hn with rfl | rfl | rfl
  · exact ⟨.borderWidth, rfl⟩
  · exact ⟨.borderColor, rfl⟩
  · exact ⟨.borderStyle, rfl⟩

/-- A shorthand is determined by its name. -/
theorem name_injective {s s' : Shorthand} (h : s.name = s'.name) : s = s' := by
  have hs := s.ofName?_name
  rw [h, ofName?_name] at hs
  exact (Option.some.inj hs).symm

/-- A value of a box that can be read can be split. -/
theorem ne_whole_of_box {b : BoxShorthand} {v : Text} {e : Expansion}
    (h : expandValue b.name v = .ok e) : e ≠ .whole := by
  rintro rfl
  rw [show b.name = (Shorthand.box b).name from rfl] at h
  simp only [expandValue, ofName?_name, expand, expandOwn] at h
  split at h
  · simp at h
  · split at h <;> simp at h

/-- The value of `border` can always be split. -/
theorem expandValue_border (v : Text) :
    ∃ e, expandValue border.name v = .ok e ∧ e ≠ .whole := by
  simp only [expandValue, ofName?_name, expand]
  split
  · exact ⟨_, rfl, by simp⟩
  · exact ⟨_, rfl, by simp [Expansion.ofSlices]⟩

/-- After the border no shorthand reaches another one. -/
theorem eq_of_name_mem_reach {s s' : Shorthand} (hs : s ∈ afterBorder)
    (h : s'.name ∈ reach s.name) : s' = s := by
  rw [reach_name, List.mem_cons] at h
  exact name_injective (h.resolve_right (name_not_mem_longhands s hs s' s'.mem_all))

end Shorthand

/-- What a declaration spreads into has names within its reach. -/
theorem mem_reach_of_mem_spread {x : String × Declaration} {n : String}
    (h : n ∈ (spread x).names) : n ∈ Shorthand.reach x.1 := by
  obtain ⟨m, d⟩ := x
  cases hm : Shorthand.ofName? m with
  | none =>
    simpa [spread_of_not_shorthand hm d, Entries.names, Shorthand.reach] using Or.inl h
  | some s =>
    obtain rfl : s.name = m := by simpa using List.find?_some hm
    rw [Shorthand.reach_name]
    rcases spread_eq_or_names_sublist s d with hs | hs
    · rw [hs] at h
      exact List.mem_cons.mpr (Or.inl (by simpa [Entries.names] using h))
    · exact List.mem_cons_of_mem _ (hs.subset h)

namespace Cascade

/-! ## The two levels

  `first` is what stands after the border is expanded, `full` after the boxes are as well; `decided` and
  `settled` are what is left of them in the store.
-/

/-- What a declaration spreads into when `border` is expanded. -/
def first (x : String × Declaration) : Entries Declaration :=
  if x.1 = Shorthand.border.name then spread x else [x]

/-- Of this, what wins over all that is declared under the same name. -/
def decided (s : Store) (x : String × Declaration) : Entries Declaration :=
  (first x).filter fun y => Wins s.rank s.entries first x y.1

/-- What is left of a declaration once all shorthands are expanded, before the longhands compete. -/
def settled (s : Store) (x : String × Declaration) : Entries Declaration :=
  (decided s x).flatMap spread

/-- What a declaration spreads into on its own. -/
def full (x : String × Declaration) : Entries Declaration := (first x).flatMap spread

/-- What is left of a declaration when the shorthands of these names are expanded. -/
def staged (s : Store) (done : List String) (x : String × Declaration) : Entries Declaration :=
  (decided s x).flatMap fun y => if y.1 ∈ done then spread y else [y]

/-- The value of a shorthand can be read. -/
def Reads (x : String × Declaration) : Prop := ∃ e, expandValue x.1 x.2.value = .ok e

variable {s st : Store} {done : List String} {x y : String × Declaration}

/-- The decided is part of the first level. -/
theorem mem_first_of_mem_decided (h : y ∈ decided s x) : y ∈ first x :=
  (List.mem_filter.mp h).1

/-- On the first level a declaration is itself, or `border` and then longhands of it. -/
theorem first_cases (x : String × Declaration) :
    (x.1 ≠ Shorthand.border.name ∧ first x = [x]) ∨
      (x.1 = Shorthand.border.name ∧ ∀ y ∈ first x, y.1 ∈ Shorthand.border.longhands) := by
  unfold first
  split
  · rename_i hx
    obtain ⟨n, d⟩ := x
    obtain rfl : n = Shorthand.border.name := hx
    obtain ⟨e, he, hne⟩ := Shorthand.expandValue_border d.value
    exact Or.inr ⟨rfl, fun y hy =>
      (names_spread_sublist he hne).subset (Entries.mem_names_of_mem hy)⟩
  · rename_i hx
    exact Or.inl ⟨hx, rfl⟩

/-- No name is set twice on the first level. -/
theorem nodup_names_first (x : String × Declaration) : (first x).names.Nodup := by
  unfold first
  split
  · exact nodup_names_spread x
  · simp [Entries.names]

/-- No name is decided twice. -/
theorem nodup_names_decided (s : Store) (x : String × Declaration) :
    (decided s x).names.Nodup :=
  (nodup_names_first x).sublist (List.filter_sublist.map _)

/-- What is no shorthand after the first level stays. -/
theorem spread_eq_self_of_not_mem (hy : y ∈ first x)
    (h : ∀ sh ∈ Shorthand.afterBorder, y.1 ≠ sh.name) : spread y = [y] := by
  cases hn : Shorthand.ofName? y.1 with
  | none => exact spread_of_not_shorthand hn y.2
  | some sh =>
    have hsh : sh.name = y.1 := by simpa using List.find?_some hn
    have hb : sh = .border := by
      by_contra hb
      exact h sh (Shorthand.mem_afterBorder hb) hsh.symm
    subst hb
    rcases first_cases x with ⟨hx, hf⟩ | ⟨-, hf⟩
    · obtain rfl := List.mem_singleton.mp (hf ▸ hy)
      exact absurd hsh.symm hx
    · have := hf y hy
      rw [← hsh] at this
      exact absurd this (by decide)

/-- Two things that a declaration is after the first level can spread into no name in common. -/
theorem disjoint_reach_of_ne {y z : String × Declaration} (hy : y ∈ first x) (hz : z ∈ first x)
    (h : y ≠ z) : List.Disjoint (Shorthand.reach y.1) (Shorthand.reach z.1) := by
  rcases first_cases x with ⟨-, hf⟩ | ⟨-, hf⟩
  · rw [hf, List.mem_singleton] at hy hz
    exact absurd (hy.trans hz.symm) h
  · exact Shorthand.disjoint_reach _ (hf y hy) _ (hf z hz) fun hn =>
      h (Entries.eq_of_name_eq (nodup_names_first x) hy hz hn)

/-! ## The sources of the merges

  What a step needs of the merge it starts from: each name is set once by a source, and with the importance
  of the declaration.
-/

/-- What a part sets is within its reach, expanded or not. -/
theorem names_part_subset {n : String}
    (h : n ∈ Entries.names (if y.1 ∈ done then spread y else [y])) : n ∈ Shorthand.reach y.1 := by
  split at h
  · exact mem_reach_of_mem_spread h
  · obtain rfl : n = y.1 := by simpa [Entries.names] using h
    exact List.mem_cons_self

/-- Entries with names of their own, each replaced by entries within names of its own, have no name twice. -/
theorem nodup_names_flatMap {es : Entries Declaration} (hes : es.names.Nodup)
    {g : String × Declaration → Entries Declaration} (hg : ∀ y ∈ es, (g y).names.Nodup)
    (hdis : ∀ y ∈ es, ∀ z ∈ es, y ≠ z → List.Disjoint (g y).names (g z).names) :
    Entries.names (es.flatMap g) |>.Nodup := by
  rw [Entries.names, List.map_flatMap, List.nodup_flatMap]
  have hnodup : es.Nodup := List.Nodup.of_map _ hes
  exact ⟨hg, hnodup.imp_of_mem fun hy hz hyz => hdis _ hy _ hz hyz⟩

/-- No name is set twice by a part. -/
theorem nodup_names_part (y : String × Declaration) (done : List String) :
    (Entries.names (if y.1 ∈ done then spread y else [y])).Nodup := by
  split
  · exact nodup_names_spread y
  · simp [Entries.names]

/-- The first level keeps the importance. -/
theorem important_of_mem_first (h : y ∈ first x) : y.2.important = x.2.important := by
  unfold first at h
  split at h
  · exact important_of_mem_spread h
  · rw [List.mem_singleton.mp h]

/-- At each stage of the loop the declarations keep their importance and set no name twice, which is what a
    step relies on. -/
theorem sound_staged (s : Store) (done : List String) : Sound s (staged s done) where
  important_eq a _ z hz := by
    obtain ⟨y, hy, hz⟩ := List.mem_flatMap.mp hz
    refine Eq.trans ?_ (important_of_mem_first (mem_first_of_mem_decided hy))
    split at hz
    · exact important_of_mem_spread hz
    · rw [List.mem_singleton.mp hz]
  nodup_names a _ :=
    nodup_names_flatMap (nodup_names_decided s a) (fun y _ => nodup_names_part y done)
      fun y hy z hz hyz n hn hn' =>
        disjoint_reach_of_ne (mem_first_of_mem_decided hy) (mem_first_of_mem_decided hz) hyz
          (names_part_subset hn) (names_part_subset hn')

/-- A name on the first level has one source: that which wins it. -/
theorem eq_of_mem_names_decided {a b : String × Declaration} {n : String} (ha : a ∈ s.entries)
    (hb : b ∈ s.entries) (han : n ∈ (decided s a).names) (hbn : n ∈ (decided s b).names) :
    b = a := by
  obtain ⟨y, hy, rfl⟩ := Entries.mem_names_iff.mp han
  obtain ⟨z, hz, hzy⟩ := Entries.mem_names_iff.mp hbn
  simp only [decided, List.mem_filter, decide_eq_true_eq] at hy hz
  rw [hzy] at hz
  exact Store.eq_of_rank_eq hb (rank_eq_of_wins hb ha (hzy ▸ Entries.mem_names_of_mem hz.1)
    (Entries.mem_names_of_mem hy.1) hz.2 hy.2)

/-- A shorthand that is still to be expanded is there as it was decided. -/
theorem mem_staged_of_not_done {sh : Shorthand}
    (hdone : ∀ m ∈ done, ∃ sh' ∈ Shorthand.afterBorder, sh'.name = m) (hsh : sh.name ∉ done)
    {z : String × Declaration} (hz : z ∈ staged s done x) (hzn : z.1 = sh.name) :
    z ∈ decided s x := by
  obtain ⟨y, hy, hz⟩ := List.mem_flatMap.mp hz
  split at hz
  · rename_i hyd
    obtain ⟨sh', hsh', hm⟩ := hdone _ hyd
    have hreach := mem_reach_of_mem_spread (Entries.mem_names_of_mem hz)
    rw [hzn, ← hm] at hreach
    rw [Shorthand.eq_of_name_mem_reach hsh' hreach, hm] at hsh
    exact absurd hyd hsh
  · rwa [List.mem_singleton.mp hz]

/-- What the loop has not come to is as it was decided. -/
theorem mem_staged_of_mem_decided (hy : y ∈ decided s x) (h : y.1 ∉ done) :
    y ∈ staged s done x :=
  List.mem_flatMap.mpr ⟨y, hy, by simp [h]⟩

/-- Expanding one more shorthand. -/
theorem expandAt_staged {sh : Shorthand}
    (hdone : ∀ m ∈ done, ∃ sh' ∈ Shorthand.afterBorder, sh'.name = m) (hsh : sh.name ∉ done)
    (x : String × Declaration) :
    (staged s done x).expandAt sh.name spread = staged s (done ++ [sh.name]) x := by
  unfold staged Entries.expandAt
  rw [List.flatMap_assoc]
  refine List.flatMap_congr fun y hy => ?_
  by_cases hyd : y.1 ∈ done
  · have hnot : sh.name ∉ (spread y).names := fun h => by
      obtain ⟨sh', hsh', hm⟩ := hdone _ hyd
      have hreach := mem_reach_of_mem_spread h
      rw [← hm] at hreach
      rw [Shorthand.eq_of_name_mem_reach hsh' hreach, hm] at hsh
      exact hsh hyd
    simp only [hyd, if_true, List.mem_append, true_or]
    exact Entries.expandAt_of_not_mem hnot
  · by_cases hym : y.1 = sh.name <;> simp [hyd, hym, hsh]

/-! ## The run

  The invariant is `staged`: what is done is spread, what is not done stands as it was decided.
-/

section

variable {sh : Shorthand} {a b : String × Declaration} {d : Declaration} {e : Expansion} {n : String}

/-- A shorthand that is still to be expanded has one source: that which it was decided for. -/
theorem eq_of_mem_names_staged (hdone : ∀ m ∈ done, ∃ sh' ∈ Shorthand.afterBorder, sh'.name = m)
    (hnew : sh.name ∉ done) (ha : a ∈ s.entries) (hd : (sh.name, d) ∈ decided s a) (hb : b ∈ s.entries)
    (hn : sh.name ∈ (staged s done b).names) : b = a := by
  obtain ⟨z, hz, hzn⟩ := Entries.mem_names_iff.mp hn
  have hz := mem_staged_of_not_done hdone hnew hz hzn
  exact eq_of_mem_names_decided ha hb (Entries.mem_names_of_mem hd)
    (Entries.mem_names_iff.mpr ⟨z, hz, hzn⟩)

/-- All that is decided for a name can be read if the one declaration can. -/
theorem forall_reads_iff (ha : a ∈ s.entries) (hd : (n, d) ∈ decided s a) :
    (∀ b ∈ s.entries, ∀ y ∈ decided s b, y.1 = n → Reads y) ↔ Reads (n, d) := by
  refine ⟨fun h => h a ha _ hd rfl, ?_⟩
  rintro h b hb ⟨n, d'⟩ hy rfl
  obtain rfl := eq_of_mem_names_decided ha hb (Entries.mem_names_of_mem hd)
    (Entries.mem_names_iff.mpr ⟨_, hy, rfl⟩)
  rwa [Entries.eq_of_name_eq (nodup_names_decided s b) hy hd rfl]

/-- What a shorthand spreads into is new to what is left of its declaration. -/
theorem not_mem_names_staged_of_mem_spread (hsh : sh ∈ Shorthand.afterBorder) (hnew : sh.name ∉ done)
    (hd : (sh.name, d) ∈ decided s a) (he : expandValue sh.name d.value = .ok e) (hne : e ≠ .whole)
    (hn : n ∈ (spread (sh.name, d)).names) : n ∉ (staged s done a).names := by
  intro hns
  obtain ⟨z, hz, rfl⟩ := Entries.mem_names_iff.mp hns
  obtain ⟨y, hy, hz⟩ := List.mem_flatMap.mp hz
  have hzy := names_part_subset (Entries.mem_names_of_mem hz)
  by_cases hyd : y = (sh.name, d)
  · -- the shorthand itself, which is none of its longhands
    subst hyd
    simp only [hnew, if_false, List.mem_singleton] at hz
    subst hz
    exact Shorthand.name_not_mem_longhands sh hsh sh sh.mem_all ((names_spread_sublist he hne).subset hn)
  · exact disjoint_reach_of_ne (mem_first_of_mem_decided hy) (mem_first_of_mem_decided hd) hyd hzy
      (mem_reach_of_mem_spread hn)

/-- A shorthand that is left is expanded, if its declaration can be read. -/
theorem map_expand_of_mem_decided (hsh : sh ∈ Shorthand.afterBorder)
    (hdone : ∀ m ∈ done, ∃ sh' ∈ Shorthand.afterBorder, sh'.name = m) (hnew : sh.name ∉ done)
    (hst : st.entries = merge s.rank s.entries (staged s done)) (ha : a ∈ s.entries)
    (hd : (sh.name, d) ∈ decided s a) :
    (∀ t, (st.expand sh.name).map (·.1) = .ok t →
        t.entries = merge s.rank s.entries fun b => (staged s done b).expandAt sh.name spread) ∧
      ((∃ t, (st.expand sh.name).map (·.1) = .ok t) ↔ Reads (sh.name, d)) := by
  have honly : ∀ b ∈ s.entries, sh.name ∈ (staged s done b).names → b = a := fun b hb =>
    eq_of_mem_names_staged hdone hnew ha hd hb
  have hds := mem_staged_of_mem_decided hd hnew
  have hdst : (sh.name, d) ∈ st.entries := by
    rw [hst, mem_merge]
    exact ⟨a, ha, hds, fun b hb hn => honly b hb hn ▸ le_refl _⟩
  cases he : expandValue sh.name d.value with
  | error f =>
    rw [Store.expand_of_error hdst he]
    simp [Reads, he, Except.map]
  | ok e =>
    obtain ⟨t, ht, hte⟩ := map_expand_of_merge (sound_staged s done) hst ha hds honly he
      fun hne n => not_mem_names_staged_of_mem_spread hsh hnew hd he hne
    rw [ht]
    refine ⟨fun t' ht' => ?_, by simp [Reads, he]⟩
    obtain rfl := Except.ok.inj ht'
    exact hte

/-- Where nothing of a shorthand is left, expanding it changes nothing. -/
theorem map_expand_of_not_decided (hdone : ∀ m ∈ done, ∃ sh' ∈ Shorthand.afterBorder, sh'.name = m)
    (hnew : sh.name ∉ done) (hst : st.entries = merge s.rank s.entries (staged s done))
    (hnone : ∀ a ∈ s.entries, ∀ y ∈ decided s a, y.1 ≠ sh.name) :
    (st.expand sh.name).map (·.1) = .ok st ∧
      st.entries = merge s.rank s.entries fun b => (staged s done b).expandAt sh.name spread := by
  have hstaged : ∀ a ∈ s.entries, sh.name ∉ (staged s done a).names := by
    intro a ha hn
    obtain ⟨z, hz, hzn⟩ := Entries.mem_names_iff.mp hn
    exact hnone a ha z (mem_staged_of_not_done hdone hnew hz hzn) hzn
  have hnot : sh.name ∉ st.names := by
    intro hn
    rw [Store.names, hst, mem_names_merge] at hn
    obtain ⟨a, ha, hn⟩ := hn
    exact hstaged a ha hn
  constructor
  · rw [Store.expand_of_not_mem sh.trimName_name hnot]
    rfl
  · rw [hst]
    exact merge_ext fun a ha => (Entries.expandAt_of_not_mem (hstaged a ha)).symm

/-- One more shorthand is expanded, if its declaration can be read. -/
theorem map_expand_of_staged (hsh : sh ∈ Shorthand.afterBorder)
    (hdone : ∀ m ∈ done, ∃ sh' ∈ Shorthand.afterBorder, sh'.name = m) (hnew : sh.name ∉ done)
    (hst : st.entries = merge s.rank s.entries (staged s done)) {r : Except Failure Store}
    (hr : (st.expand sh.name).map (·.1) = r) :
    (∀ t, r = .ok t → t.entries = merge s.rank s.entries (staged s (done ++ [sh.name]))) ∧
      ((∃ t, r = .ok t) ↔
        ∀ a ∈ s.entries, ∀ y ∈ decided s a, y.1 = sh.name → Reads y) := by
  have hmerge : merge s.rank s.entries (fun b => (staged s done b).expandAt sh.name spread) =
      merge s.rank s.entries (staged s (done ++ [sh.name])) :=
    merge_ext fun a _ => expandAt_staged hdone hnew a
  rw [← hmerge]
  subst hr
  by_cases hmem : ∃ a ∈ s.entries, ∃ d, (sh.name, d) ∈ decided s a
  · obtain ⟨a, ha, d, hd⟩ := hmem
    rw [forall_reads_iff ha hd]
    exact map_expand_of_mem_decided hsh hdone hnew hst ha hd
  · have hnone : ∀ a ∈ s.entries, ∀ y ∈ decided s a, y.1 ≠ sh.name :=
      fun a ha y hy h => hmem ⟨a, ha, y.2, h ▸ hy⟩
    obtain ⟨hexpand, hsame⟩ := map_expand_of_not_decided hdone hnew hst hnone
    rw [hexpand]
    refine ⟨fun t ht => ?_, fun _ a ha y hy h => absurd h (hnone a ha y hy), fun _ => ⟨st, rfl⟩⟩
    obtain rfl := Except.ok.inj ht
    exact hsame

end

/-- The shorthands that are left are expanded, if the declarations that are left of them can be
    read. -/
theorem expandEach_of_staged {rest : List Shorthand}
    (hrest : ∀ sh ∈ rest, sh ∈ Shorthand.afterBorder)
    (hdone : ∀ m ∈ done, ∃ sh' ∈ Shorthand.afterBorder, sh'.name = m)
    (hnew : (done ++ rest.map Shorthand.name).Nodup)
    (hst : st.entries = merge s.rank s.entries (staged s done)) {r : Except Failure Store}
    (hr : st.expandEach (rest.map Shorthand.name) = r) :
    (∀ t, r = .ok t →
        t.entries = merge s.rank s.entries (staged s (done ++ rest.map Shorthand.name))) ∧
      ((∃ t, r = .ok t) ↔
        ∀ a ∈ s.entries, ∀ y ∈ decided s a, ∀ sh ∈ rest, y.1 = sh.name → Reads y) := by
  subst hr
  -- The invariant is that the store is the merge of the stage: what is done is expanded, the rest stands as
  -- it was decided.
  induction rest generalizing st done with
  | nil =>
    refine ⟨fun t ht => ?_, by simp, fun _ => ⟨st, rfl⟩⟩
    obtain rfl := Except.ok.inj ht
    simpa using hst
  | cons sh rest ih =>
    have hsh := hrest sh (by simp)
    -- mt hreads.mpr := The loop stops here, so a decided part of this shorthand cannot be read.
    have hnot : sh.name ∉ done := fun h => by
      rw [List.nodup_append] at hnew
      exact hnew.2.2 _ h sh.name (by simp) rfl
    obtain ⟨hok, hreads⟩ := map_expand_of_staged hsh hdone hnot hst rfl
    rw [List.map_cons, Store.expandEach_cons]
    cases hr : (st.expand sh.name).map (·.1) with
    | error f =>
      have hno := mt hreads.mpr (by simp [hr])
      refine ⟨nofun, nofun, fun h => absurd (fun a ha y hy hn => ?_) hno⟩
      exact h a ha y hy sh (by simp) hn
    | ok st' =>
      have hdone' : ∀ m ∈ done ++ [sh.name], ∃ sh' ∈ Shorthand.afterBorder, sh'.name = m := by
        intro m hm
        rcases List.mem_append.mp hm with hm | hm
        · exact hdone m hm
        · exact ⟨sh, hsh, (List.mem_singleton.mp hm).symm⟩
      obtain ⟨ihok, ihreads⟩ :=
        ih (fun sh' h => hrest sh' (by simp [h])) hdone' (by simpa using hnew) (hok st' hr)
      rw [List.append_assoc] at ihok
      have hhere := hreads.mp ⟨st', hr⟩
      refine ⟨ihok, Iff.trans ihreads ?_⟩
      simp only [List.forall_mem_cons]
      exact ⟨fun h a ha y hy => ⟨hhere a ha y hy, h a ha y hy⟩, fun h a ha y hy => (h a ha y hy).2⟩

/-- The first store, once `border` is expanded. -/
theorem map_expand_border (s : Store) :
    ∃ st, (s.expand Shorthand.border.name).map (·.1) = .ok st ∧
      st.entries = merge s.rank s.entries (staged s []) := by
  have hdecided : merge s.rank s.entries (staged s []) = merge s.rank s.entries first := by
    have hstaged : ∀ a ∈ s.entries, staged s [] a = decided s a := fun a _ => by simp [staged]
    rw [merge_ext hstaged]
    exact merge_congr (fun a x => decide (Wins s.rank s.entries first a x.1)) (fun _ _ => rfl)
      fun a _ x _ hw => decide_eq_true hw
  have hfirst : ∀ a ∈ s.entries,
      Entries.expandAt Shorthand.border.name spread [a] = first a := fun a _ => by
    simp [Entries.expandAt, first]
  -- Expanding the border replaces its one declaration, if there is one, by what it spreads to.
  rw [hdecided]
  by_cases hmem : Shorthand.border.name ∈ s.names
  · obtain ⟨⟨n, d⟩, ha, rfl⟩ := Entries.mem_names_iff.mp hmem
    obtain ⟨e, he, -⟩ := Shorthand.expandValue_border d.value
    have hsound : Sound s fun x => [x] :=
      ⟨fun a _ x hx => by rw [List.mem_singleton.mp hx], fun a _ => by simp [Entries.names]⟩
    have hself : (Shorthand.border.name, d) ∈ [(Shorthand.border.name, d)] :=
      List.mem_singleton_self _
    obtain ⟨t, ht, hte⟩ := map_expand_of_merge hsound s.merge_self.symm ha hself
      (fun b hb hn => Store.eq_of_mem_of_name_eq hb ha (List.mem_singleton.mp hn).symm) he
      fun hne n hn hnb => by
        have hlong := (names_spread_sublist he hne).subset hn
        obtain rfl : n = Shorthand.border.name := by simpa [Entries.names] using hnb
        revert hlong
        decide
    exact ⟨t, ht, by rw [hte, merge_ext hfirst]⟩
  · refine ⟨s, by rw [Store.expand_of_not_mem Shorthand.border.trimName_name hmem]; rfl, ?_⟩
    rw [← merge_ext hfirst]
    refine s.merge_self.symm.trans (merge_ext fun a ha => (Entries.expandAt_of_not_mem ?_).symm)
    exact fun hn => hmem (by
      simpa [Entries.names, Store.names, ← (List.mem_singleton.mp hn)] using
        Entries.mem_names_of_mem ha)

/-- **Expanding all shorthands computes the cascade.**  It succeeds if what is left of the declarations
    after the first level can be read. -/
theorem after_expandAll (s : Store) :
    (∀ t, Edit.expandAll.after s = .ok t → t.entries = merge s.rank s.entries (settled s)) ∧
      ((∃ t, Edit.expandAll.after s = .ok t) ↔
        ∀ a ∈ s.entries, ∀ y ∈ decided s a, ∀ sh ∈ Shorthand.afterBorder, y.1 = sh.name →
          Reads y) := by
  obtain ⟨st, hborder, hst⟩ := map_expand_border s
  obtain ⟨hok, hreads⟩ := expandEach_of_staged (fun _ h => h) (by simp)
    (by decide : ([] ++ Shorthand.afterBorder.map Shorthand.name).Nodup) hst rfl
  have hall : Shorthand.all = .border :: Shorthand.afterBorder := rfl
  rw [Edit.after_expandAll, hall, List.map_cons, Store.expandEach_cons, hborder]
  refine ⟨fun t ht => (hok t ht).trans (merge_ext fun a _ => ?_), hreads⟩
  refine List.flatMap_congr fun y hy => ?_
  split
  · rfl
  · rename_i hn
    refine (spread_eq_self_of_not_mem (mem_first_of_mem_decided hy) fun sh hsh h => hn ?_).symm
    simpa using ⟨sh, hsh, h.symm⟩

end Cascade

end CssShorthand
