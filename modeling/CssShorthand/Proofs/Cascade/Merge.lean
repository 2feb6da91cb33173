/-
  MERGING SETS OF ENTRIES BY RANK.

  Several sources, each with a rank, set names to values.  A source wins a name if no source that sets
  the name ranks above it (`Wins`), and the merge lists, source by source, the entries that their
  source wins (`merge`).

  Three facts carry what is said about the cascade of a store:

  * `mem_merge`        — the merge gives a name what the source that wins it gives it;
  * `merge_expandAt`   — if the only source of a name puts other entries in the place of its entry of
                         that name, the merge changes as a store does under a replacement
                         (`Store.spliced`);
  * `merge_congr`      — a source may give up entries that it does not win.
-/
import Mathlib.Data.Prod.Lex
import Mathlib.Data.Finset.Max
import CssShorthand.Proofs.Entries
import CssShorthand.Store.Replace

namespace CssShorthand

namespace Entries

variable {α : Type}

/-- The entries with other entries in the place of each entry of the name `m`. -/
def expandAt (m : String) (f : String × α → Entries α) (es : Entries α) : Entries α :=
  es.flatMap fun x => if x.1 = m then f x else [x]

/-- The names after one expansion: the others, and those that the expanded entry sets. -/
theorem mem_names_expandAt {m n : String} {f : String × α → Entries α} {es : Entries α} :
    n ∈ (expandAt m f es).names ↔
      (n ≠ m ∧ n ∈ es.names) ∨ ∃ x ∈ es, x.1 = m ∧ n ∈ (f x).names := by
  simp only [mem_names_iff, expandAt, List.mem_flatMap]
  constructor
  · rintro ⟨y, ⟨x, hx, hy⟩, rfl⟩
    split at hy
    · rename_i hm
      exact Or.inr ⟨x, hx, hm, y, hy, rfl⟩
    · rename_i hm
      rw [List.mem_singleton.mp hy]
      exact Or.inl ⟨hm, x, hx, rfl⟩
  · rintro (⟨hm, x, hx, rfl⟩ | ⟨x, hx, hm, y, hy, rfl⟩)
    · exact ⟨x, ⟨x, hx, by simp [hm]⟩, rfl⟩
    · exact ⟨y, ⟨x, hx, by simp [hm, hy]⟩, rfl⟩

/-- Entries that give way to themselves stay as they are. -/
theorem expandAt_eq_self {m : String} {f : String × α → Entries α} {es : Entries α}
    (h : ∀ x ∈ es, x.1 = m → f x = [x]) : expandAt m f es = es := by
  calc expandAt m f es = es.flatMap fun x => [x] := List.flatMap_congr fun x hx => by
        split
        · rename_i hm
          exact h x hx hm
        · rfl
    _ = es := by simp

/-- Entries that do not hold the name stay as they are. -/
theorem expandAt_of_not_mem {m : String} {f : String × α → Entries α} {es : Entries α}
    (h : m ∉ es.names) : expandAt m f es = es :=
  expandAt_eq_self fun _ hx hm => absurd (hm ▸ mem_names_of_mem hx) h

end Entries

namespace Cascade

variable {ι ρ α : Type} [LinearOrder ρ]

/-- No source that sets the name `n` ranks above `a`. -/
def Wins (rank : ι → ρ) (sources : List ι) (sets : ι → Entries α) (a : ι) (n : String) : Prop :=
  ∀ b ∈ sources, n ∈ (sets b).names → rank b ≤ rank a

instance (rank : ι → ρ) (sources : List ι) (sets : ι → Entries α) (a : ι) (n : String) :
    Decidable (Wins rank sources sets a n) :=
  inferInstanceAs (Decidable (∀ b ∈ sources, n ∈ (sets b).names → rank b ≤ rank a))

/-- The entries of each source that it wins, source by source. -/
def merge (rank : ι → ρ) (sources : List ι) (sets : ι → Entries α) : Entries α :=
  sources.flatMap fun a => (sets a).filter fun x => Wins rank sources sets a x.1

variable {rank : ι → ρ} {sources : List ι} {sets : ι → Entries α}

/-- The merge looks at what its sources set, and at nothing else. -/
theorem merge_ext {sets' : ι → Entries α} (h : ∀ a ∈ sources, sets a = sets' a) :
    merge rank sources sets = merge rank sources sets' := by
  refine List.flatMap_congr fun a ha => ?_
  rw [h a ha]
  refine List.filter_congr fun x _ => ?_
  rw [decide_eq_decide]
  exact forall₂_congr fun b hb => by rw [h b hb]

/-! ## Winners

  For each name that is set there is a winner, and as ranks differ there is one only.
-/

/-- What is merged is what is set by the source that wins. -/
theorem mem_merge {x : String × α} :
    x ∈ merge rank sources sets ↔
      ∃ a ∈ sources, x ∈ sets a ∧ Wins rank sources sets a x.1 := by
  simp [merge, List.mem_flatMap, List.mem_filter]

variable (rank) in
/-- A name that some source sets has a winner. -/
theorem exists_wins {b : ι} {n : String} (hb : b ∈ sources) (hn : n ∈ (sets b).names) :
    ∃ a ∈ sources, n ∈ (sets a).names ∧ Wins rank sources sets a n := by
  classical
  obtain ⟨a, ha, hmax⟩ := Finset.exists_max_image
    (sources.toFinset.filter fun c => n ∈ (sets c).names) rank ⟨b, by simp [hb, hn]⟩
  simp only [Finset.mem_filter, List.mem_toFinset] at ha hmax
  exact ⟨a, ha.1, ha.2, fun c hc hcn => hmax c ⟨hc, hcn⟩⟩

/-- Of two winners of a name neither ranks above the other. -/
theorem rank_eq_of_wins {a b : ι} {n : String} (ha : a ∈ sources) (hb : b ∈ sources)
    (han : n ∈ (sets a).names) (hbn : n ∈ (sets b).names)
    (hwa : Wins rank sources sets a n) (hwb : Wins rank sources sets b n) : rank a = rank b :=
  le_antisymm (hwb a ha han) (hwa b hb hbn)

/-- A name stands in the merge if some source sets it. -/
theorem mem_names_merge {n : String} :
    n ∈ (merge rank sources sets).names ↔ ∃ a ∈ sources, n ∈ (sets a).names := by
  constructor
  · intro h
    obtain ⟨x, hx, rfl⟩ := Entries.mem_names_iff.mp h
    obtain ⟨a, ha, hxa, -⟩ := mem_merge.mp hx
    exact ⟨a, ha, Entries.mem_names_of_mem hxa⟩
  · rintro ⟨b, hb, hn⟩
    obtain ⟨a, ha, han, hw⟩ := exists_wins rank hb hn
    obtain ⟨x, hx, rfl⟩ := Entries.mem_names_iff.mp han
    exact Entries.mem_names_of_mem (mem_merge.mpr ⟨a, ha, hx, hw⟩)

/-! ## Giving up entries that lose

  This is used to go from what a declaration could set to what it does set.
-/

/-- The merge depends only on the entries that win: sources may give up others, if what a source still
    sets decides who wins as before. -/
theorem merge_congr {sets' : ι → Entries α} (keep : ι → String × α → Bool)
    (hsets' : ∀ a ∈ sources, sets' a = (sets a).filter (keep a))
    (hkeep : ∀ a ∈ sources, ∀ x ∈ sets a, Wins rank sources sets a x.1 → keep a x = true) :
    merge rank sources sets' = merge rank sources sets := by
  have hsub : ∀ b ∈ sources, ∀ n ∈ (sets' b).names, n ∈ (sets b).names := by
    intro b hb n hn
    rw [hsets' b hb] at hn
    exact (List.filter_sublist.map _).subset hn
  -- With fewer entries a source wins more easily; but whoever won against it is kept, by the hypothesis, and
  -- still wins.
  have hwins : ∀ a ∈ sources, ∀ n ∈ (sets a).names,
      (Wins rank sources sets' a n ↔ Wins rank sources sets a n) := by
    intro a ha n hn
    refine ⟨fun h b hb hbn => ?_, fun h b hb hbn => h b hb (hsub b hb n hbn)⟩
    obtain ⟨c, hc, hcn, hwc⟩ := exists_wins rank hb hbn
    obtain ⟨x, hx, rfl⟩ := Entries.mem_names_iff.mp hcn
    have hcn' : x.1 ∈ (sets' c).names := by
      rw [hsets' c hc]
      exact Entries.mem_names_of_mem (List.mem_filter.mpr ⟨hx, hkeep c hc x hx hwc⟩)
    exact (hwc b hb hbn).trans (h c hc hcn')
  refine List.flatMap_congr fun a ha => ?_
  rw [hsets' a ha, List.filter_filter]
  refine List.filter_congr fun x hx => ?_
  have h := hwins a ha x.1 (Entries.mem_names_of_mem hx)
  by_cases hw : Wins rank sources sets a x.1
  · simp [h.mpr hw, hw, hkeep a ha x hx hw]
  · simp [mt h.mp hw, hw]

/-! ## Putting entries in the place of one

  `a` is the only source of the name `m`, and `f` says what its entry of `m` gives way to.  The merge
  around that entry is cut in two, before it and after it, and each part keeps what the new entries do
  not take. -/

/-- The source `a` alone sets `m`, and its entry gives way to entries of names that are new to it.  No
    other source shares its rank, and `keep` are the new entries that win. -/
structure GivesWay (rank : ι → ρ) (sources : List ι) (sets : ι → Entries α) (m : String)
    (f : String × α → Entries α) (a : ι) (d : α) (keep : String × α → Bool) : Prop where
  mem_sources : a ∈ sources
  mem : (m, d) ∈ sets a
  only : ∀ b ∈ sources, m ∈ (sets b).names → b = a
  nodup_names : (sets a).names.Nodup
  eq_of_rank_eq : ∀ b ∈ sources, rank a = rank b → a = b
  not_mem_names : ∀ n ∈ (f (m, d)).names, n ∉ (sets a).names
  keep_iff : ∀ x ∈ f (m, d), keep x = true ↔ Wins rank sources sets a x.1

namespace GivesWay

variable {m : String} {f : String × α → Entries α} {a : ι} {d : α} {keep : String × α → Bool}

/-- Who wins a name that stays, afterwards: who won it before, unless the new entries take it. -/
theorem wins_iff (h : GivesWay rank sources sets m f a d keep) {b : ι} (hb : b ∈ sources)
    {n : String} (hn : n ∈ (sets b).names) (hnm : n ≠ m) :
    Wins rank sources (fun c => (sets c).expandAt m f) b n ↔
      Wins rank sources sets b n ∧ n ∉ Entries.names ((f (m, d)).filter keep) := by
  constructor
  · intro hw
    refine ⟨fun c hc hcn => hw c hc (Entries.mem_names_expandAt.mpr (Or.inl ⟨hnm, hcn⟩)), ?_⟩
    intro hmem
    obtain ⟨y, hy, rfl⟩ := Entries.mem_names_iff.mp hmem
    obtain ⟨hy, hk⟩ := List.mem_filter.mp hy
    -- `a` sets the name afterwards, so that `b` would be `a`, to which the name is new.
    have hset : y.1 ∈ ((sets a).expandAt m f).names :=
      Entries.mem_names_expandAt.mpr (Or.inr ⟨_, h.mem, rfl, Entries.mem_names_of_mem hy⟩)
    have hle : rank b ≤ rank a := (h.keep_iff y hy).mp hk b hb hn
    obtain rfl := h.eq_of_rank_eq b hb (le_antisymm (hw a h.mem_sources hset) hle)
    exact h.not_mem_names y.1 (Entries.mem_names_of_mem hy) hn
  · rintro ⟨hw, hmem⟩ c hc hcn
    rcases Entries.mem_names_expandAt.mp hcn with ⟨-, hcn⟩ | ⟨x, hx, hxm, hnx⟩
    · exact hw c hc hcn
    · obtain rfl := h.only c hc (hxm ▸ Entries.mem_names_of_mem hx)
      obtain rfl := Entries.eq_of_name_eq h.nodup_names hx h.mem hxm
      obtain ⟨y, hy, rfl⟩ := Entries.mem_names_iff.mp hnx
      -- The new entry of this name was not taken, so that some source stands above `a`.
      have hlost : ¬Wins rank sources sets c y.1 := fun hwy =>
        hmem (Entries.mem_names_of_mem (List.mem_filter.mpr ⟨hy, (h.keep_iff y hy).mpr hwy⟩))
      simp only [Wins, not_forall] at hlost
      obtain ⟨e, he, hen, hlt⟩ := hlost
      exact (le_of_not_ge hlt).trans (hw e he hen)

/-- Who wins a new name afterwards: the source of `m`, if nobody who sets the name ranks above it. -/
theorem wins_new_iff (h : GivesWay rank sources sets m f a d keep) {n : String}
    (hn : n ∈ (f (m, d)).names) :
    Wins rank sources (fun c => (sets c).expandAt m f) a n ↔ Wins rank sources sets a n := by
  have hnm : n ≠ m := fun hnm => h.not_mem_names n hn (hnm ▸ Entries.mem_names_of_mem h.mem)
  constructor
  · intro hw c hc hcn
    exact hw c hc (Entries.mem_names_expandAt.mpr (Or.inl ⟨hnm, hcn⟩))
  · intro hw c hc hcn
    rcases Entries.mem_names_expandAt.mp hcn with ⟨-, hcn⟩ | ⟨x, hx, hxm, -⟩
    · exact hw c hc hcn
    · exact (h.only c hc (hxm ▸ Entries.mem_names_of_mem hx)).symm ▸ le_refl _

/-- The new entries that win afterwards are those to keep. -/
theorem filter_new (h : GivesWay rank sources sets m f a d keep) :
    (f (m, d)).filter (fun x => Wins rank sources (fun c => (sets c).expandAt m f) a x.1) =
      (f (m, d)).filter keep := by
  refine List.filter_congr fun x hx => ?_
  rw [Bool.eq_iff_iff, decide_eq_true_iff, h.keep_iff x hx]
  exact h.wins_new_iff (Entries.mem_names_of_mem hx)

/-- What entries other than that of `m` bring into the merge afterwards: what they brought before, but
    for the names that the new entries take. -/
theorem filter_expandAt (h : GivesWay rank sources sets m f a d keep) {b : ι} (hb : b ∈ sources)
    {es : Entries α} (hes : ∀ x ∈ es, x ∈ sets b) (hmes : m ∉ es.names) :
    (es.expandAt m f).filter
        (fun x => Wins rank sources (fun c => (sets c).expandAt m f) b x.1) =
      Entries.without (es.filter fun x => Wins rank sources sets b x.1)
        ((f (m, d)).filter keep) := by
  rw [Entries.expandAt_of_not_mem hmes, Entries.without, List.filter_filter]
  refine List.filter_congr fun x hx => ?_
  have hxm : x.1 ≠ m := fun hxm => hmes (hxm ▸ Entries.mem_names_of_mem hx)
  rw [decide_eq_decide.mpr (h.wins_iff hb (Entries.mem_names_of_mem (hes x hx)) hxm),
    Bool.decide_and, Bool.and_comm]
  simp

/-- So it is with all entries of the other sources. -/
theorem flatMap_filter_expandAt (h : GivesWay rank sources sets m f a d keep) {l : List ι}
    (hl : ∀ b ∈ l, b ∈ sources) (hal : a ∉ l) :
    l.flatMap (fun b => ((sets b).expandAt m f).filter
        fun x => Wins rank sources (fun c => (sets c).expandAt m f) b x.1) =
      Entries.without
        (l.flatMap fun b => (sets b).filter fun x => Wins rank sources sets b x.1)
        ((f (m, d)).filter keep) := by
  rw [Entries.without, List.filter_flatMap]
  exact List.flatMap_congr fun b hb => h.filter_expandAt (hl b hb) (fun _ hx => hx)
    fun hmb => hal (h.only b (hl b hb) hmb ▸ hb)

/-- What the source of `m` brings into the merge afterwards, around its entry of `m`. -/
theorem filter_expandAt_own (h : GivesWay rank sources sets m f a d keep) {es fs : Entries α}
    (hset : sets a = es ++ (m, d) :: fs) :
    ((sets a).expandAt m f).filter
        (fun x => Wins rank sources (fun c => (sets c).expandAt m f) a x.1) =
      Entries.without (es.filter fun x => Wins rank sources sets a x.1) ((f (m, d)).filter keep) ++
        (f (m, d)).filter keep ++
        Entries.without (fs.filter fun x => Wins rank sources sets a x.1)
          ((f (m, d)).filter keep) := by
  have hnames := h.nodup_names
  rw [hset, Entries.names_append, Entries.names, List.nodup_append] at hnames
  obtain ⟨-, hfs, hes⟩ := hnames
  simp only [Entries.names, List.map_cons, List.nodup_cons] at hfs hes
  have hmes : m ∉ es.names := fun hm => hes m hm m (by simp) rfl
  rw [← h.filter_expandAt h.mem_sources (fun x hx => by simp [hset, hx]) hmes,
    ← h.filter_expandAt h.mem_sources (fun x hx => by simp [hset, hx]) hfs.1, ← h.filter_new,
    ← List.filter_append, ← List.filter_append]
  simp [hset, Entries.expandAt, List.flatMap_append]

end GivesWay

/-- The entries before a source, its own, and those behind it. -/
theorem flatMap_eq_around {β : Type} {a : ι} {before after : List ι}
    (hsources : sources = before ++ a :: after) (g : ι → List β) :
    sources.flatMap g = before.flatMap g ++ (g a ++ after.flatMap g) := by
  rw [hsources, List.flatMap_append, List.flatMap_cons]

/-- The merge around the entry of `m` that its winner `a` has. -/
theorem merge_eq_around {m : String} {a : ι} {d : α} {before after : List ι} {es fs : Entries α}
    (hsources : sources = before ++ a :: after) (hset : sets a = es ++ (m, d) :: fs)
    (hw : Wins rank sources sets a m) :
    merge rank sources sets =
      (before.flatMap (fun b => (sets b).filter fun x => Wins rank sources sets b x.1) ++
          es.filter fun x => Wins rank sources sets a x.1) ++
        (m, d) :: ((fs.filter fun x => Wins rank sources sets a x.1) ++
          after.flatMap fun b => (sets b).filter fun x => Wins rank sources sets b x.1) := by
  rw [merge, flatMap_eq_around hsources, hset, List.filter_append, List.filter_cons]
  simp [hw]

/-- **Replacing the entry of a name that one source sets.**  The merge changes as a store does when a
    declaration is replaced: `keep` are the new entries that win. -/
theorem merge_expandAt {sets : ι → Entries Declaration} {m : String}
    {f : String × Declaration → Entries Declaration} {a : ι} {d : Declaration}
    {keep : String × Declaration → Bool} {before after : List ι} {es fs : Entries Declaration}
    (h : GivesWay rank sources sets m f a d keep) (hnodup : sources.Nodup)
    (hsources : sources = before ++ a :: after) (hset : sets a = es ++ (m, d) :: fs) :
    merge rank sources (fun c => (sets c).expandAt m f) =
      Store.spliced
        (before.flatMap (fun b => (sets b).filter fun x => Wins rank sources sets b x.1) ++
          es.filter fun x => Wins rank sources sets a x.1)
        ((f (m, d)).filter keep)
        ((fs.filter fun x => Wins rank sources sets a x.1) ++
          after.flatMap fun b => (sets b).filter fun x => Wins rank sources sets b x.1) := by
  rw [hsources, List.nodup_append, List.nodup_cons] at hnodup
  obtain ⟨-, ⟨hafter, -⟩, hdisj⟩ := hnodup
  have hbefore : a ∉ before := fun ha => hdisj a ha a (by simp) rfl
  rw [merge, flatMap_eq_around hsources,
    h.flatMap_filter_expandAt (fun b hb => by simp [hsources, hb]) hbefore,
    h.flatMap_filter_expandAt (fun b hb => by simp [hsources, hb]) hafter,
    h.filter_expandAt_own hset]
  simp [Store.spliced, Entries.without, List.filter_append, List.append_assoc]

end Cascade

end CssShorthand
