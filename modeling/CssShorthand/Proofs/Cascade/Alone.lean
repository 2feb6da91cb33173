/-
  THE CASCADE, READ FROM DECLARATIONS ON THEIR OWN.

  What a declaration sets when it is expanded on its own (`alone`) says what it sets in the store, and
  the merge of these is the store once all is expanded, with one exception.  A declaration of a box
  shorthand that ranks above `border` stands for the whole box: `border` sets none of the sides of that
  box, not even those that the box leaves unset (`effective`).

  The reverse needs no exception.  If `border` ranks above, it sets all sides of the box, so that the
  declaration of the box wins none.

  The route: 1. a declaration alone in a store is expanded to what it spreads into on both levels
  (`alone_eq_full`). 2. In a store with others it may lose a part of the border on the first level, and with
  it all sides of that part; `Overruled` says so in terms of what each declaration sets alone. 3. A merge does
  not change when a source gives up what it does not win (`merge_congr`); what is overruled and what loses on
  the first level differ only in entries that win nothing.
-/
import CssShorthand.Proofs.Cascade.Border
import CssShorthand.Proofs.Cascade.Expansion

namespace CssShorthand

namespace Store

/-- The store that declares this name as `s` does, and no other. -/
def keepOnly (s : Store) (n : String) : Store where
  entries := s.entries.filter fun x => x.1 == n
  nodup_names := s.nodup_names.sublist (List.filter_sublist.map _)
  trimName_of_mem m hm := s.trimName_of_mem m ((List.filter_sublist.map _).subset hm)

/-- One declaration is kept of a store in which no name comes twice. -/
theorem entries_keepOnly {s : Store} {x : String × Declaration} (hx : x ∈ s.entries) :
    (s.keepOnly x.1).entries = [x] := by
  obtain ⟨before, after, hs⟩ := List.append_of_mem hx
  have hnodup := s.nodup_names
  rw [hs, Entries.names_append, List.nodup_append] at hnodup
  obtain ⟨-, hafter, hdis⟩ := hnodup
  simp only [Entries.names, List.map_cons, List.nodup_cons] at hafter
  show s.entries.filter _ = _
  rw [hs, List.filter_append, List.filter_cons]
  have hb : before.filter (fun y => y.1 == x.1) = [] := by
    refine List.filter_eq_nil_iff.mpr fun y hy h => ?_
    exact hdis y.1 (Entries.mem_names_of_mem hy) x.1 (by simp [Entries.names]) (by simpa using h)
  have ha : after.filter (fun y => y.1 == x.1) = [] := by
    refine List.filter_eq_nil_iff.mpr fun y hy h => hafter.1 ?_
    rw [← (by simpa using h : y.1 = x.1)]
    exact List.mem_map_of_mem hy
  simp [hb, ha]

end Store

namespace Cascade

/-- What a declaration of the store sets when it is expanded on its own. -/
def alone (s : Store) (x : String × Declaration) : Entries Declaration :=
  Edit.expandAll.leaves (s.keepOnly x.1)

/-- A declaration of `border` is overruled in what `y` sets: a declaration of the box that this belongs
    to ranks above it. -/
def Overruled (s : Store) (x y : String × Declaration) : Prop :=
  x.1 = Shorthand.border.name ∧ ∃ z ∈ s.entries, z.1 ∈ Shorthand.border.longhands ∧
    y.1 ∈ Shorthand.reach z.1 ∧ s.rank x < s.rank z

instance (s : Store) (x y : String × Declaration) : Decidable (Overruled s x y) :=
  inferInstanceAs (Decidable (_ ∧ _))

/-- What a declaration sets in the store, before the longhands compete. -/
def effective (s : Store) (x : String × Declaration) : Entries Declaration :=
  (alone s x).filter fun y => ¬Overruled s x y

variable {s t : Store} {x y : String × Declaration}

/-! ## One declaration

  The store of one declaration, expanded.
-/

section Single

variable (hs : s.entries = [x])

include hs

/-- A declaration by itself is overruled by none. -/
theorem decided_single : decided s x = first x := by
  refine List.filter_eq_self.mpr fun y _ => decide_eq_true fun b hb _ => ?_
  rw [hs, List.mem_singleton] at hb
  rw [hb]

/-- On the first level a declaration on its own is what expanding `border` leaves. -/
theorem leaves_expand_border : (Edit.expand Shorthand.border.name).leaves s = first x := by
  obtain ⟨t, ht, hentries⟩ := map_expand_border s
  rw [Edit.leaves_of_ok (((Edit.does_expand _).after_eq s).trans ht), hentries, merge, hs,
    List.flatMap_singleton]
  have hstaged : staged s [] x = first x := by
    rw [← decided_single hs]
    simp [staged]
  rw [hstaged]
  refine List.filter_eq_self.mpr fun y _ => decide_eq_true fun b hb _ => ?_
  rw [List.mem_singleton.mp hb]

variable (h : ∃ t, Edit.expandAll.after s = .ok t)

include h

/-- A declaration on its own spreads in two levels. -/
theorem leaves_expandAll : Edit.expandAll.leaves s = full x := by
  obtain ⟨t, ht⟩ := h
  rw [Edit.leaves_of_ok ht, (after_expandAll s).1 t ht, merge, hs, List.flatMap_singleton, settled,
    decided_single hs]
  refine List.filter_eq_self.mpr fun y _ => decide_eq_true fun b hb _ => ?_
  rw [List.mem_singleton.mp hb]

/-- What it spreads into on the first level can be read if it expands on its own. -/
theorem reads_of_single : ∀ y ∈ first x, ∀ sh ∈ Shorthand.afterBorder, y.1 = sh.name → Reads y := by
  have := (after_expandAll s).2.mp h x
  rw [hs, decided_single hs] at this
  exact this (List.mem_singleton_self x)

end Single

/-- Expanding a declaration by itself gives all it spreads to on both levels. -/
theorem alone_eq_full (hx : x ∈ s.entries)
    (h : ∃ t, Edit.expandAll.after (s.keepOnly x.1) = .ok t) : alone s x = full x :=
  leaves_expandAll (Store.entries_keepOnly hx) h

/-- If each declaration expands on its own, all of them expand together. -/
theorem after_expandAll_of_alone
    (h : ∀ x ∈ s.entries, ∃ t, Edit.expandAll.after (s.keepOnly x.1) = .ok t) :
    ∃ t, Edit.expandAll.after s = .ok t ∧ t.entries = merge s.rank s.entries (settled s) := by
  obtain ⟨hok, hreads⟩ := after_expandAll s
  obtain ⟨t, ht⟩ := hreads.mpr fun x hx y hy =>
    reads_of_single (Store.entries_keepOnly hx) (h x hx) y (mem_first_of_mem_decided hy)
  exact ⟨t, ht, hok t ht⟩

/-! ## What loses on the first level

  Both directions of the comparison of `decided` with `Overruled`.
-/

/-- What is settled on the second level is what comes of the decided on the first: the first level sets no
    longhand twice. -/
theorem mem_settled_iff {z : String × Declaration} (hz : z ∈ first x) (hy : y ∈ spread z) :
    y ∈ settled s x ↔ z ∈ decided s x := by
  constructor
  · intro h
    obtain ⟨w, hw, hyw⟩ := List.mem_flatMap.mp h
    by_cases hzw : z = w
    · exact hzw ▸ hw
    · exact absurd (mem_reach_of_mem_spread (Entries.mem_names_of_mem hyw))
        (disjoint_reach_of_ne hz (mem_first_of_mem_decided hw) hzw
          (mem_reach_of_mem_spread (Entries.mem_names_of_mem hy)))
  · exact fun h => List.mem_flatMap.mpr ⟨z, h, hy⟩

/-- What a declaration keeps after the first level is a part of what it spreads into on its own. -/
theorem filter_full {p : String × Declaration → Bool}
    (h : ∀ z ∈ first x, ∀ y ∈ spread z, p y = true ↔ z ∈ decided s x) :
    (full x).filter p = settled s x := by
  have hparts : ∀ zs : Entries Declaration, (∀ z ∈ zs, z ∈ first x) →
      (zs.flatMap spread).filter p =
        (zs.filter fun z => Wins s.rank s.entries first x z.1).flatMap spread := by
    intro zs
    induction zs with
    | nil => exact fun _ => rfl
    | cons z zs ih =>
      intro hzs
      have hz := hzs z (by simp)
      rw [List.flatMap_cons, List.filter_append, ih fun w hw => hzs w (List.mem_cons_of_mem _ hw),
        List.filter_cons]
      have hdecided : z ∈ decided s x ↔ Wins s.rank s.entries first x z.1 := by simp [decided, hz]
      by_cases hw : Wins s.rank s.entries first x z.1
      · have hall : (spread z).filter p = spread z :=
          List.filter_eq_self.mpr fun y hy => (h z hz y hy).mpr (hdecided.mpr hw)
        simp [hw, hall]
      · have hnone : (spread z).filter p = [] :=
          List.filter_eq_nil_iff.mpr fun y hy hp => hw (hdecided.mp ((h z hz y hy).mp hp))
        simp [hw, hnone]
  exact hparts (first x) fun _ hz => hz

/-- A part of a border is not decided exactly when another declaration of higher rank sets the same. -/
theorem not_mem_decided_iff {z : String × Declaration} (hz : z ∈ first x) :
    z ∉ decided s x ↔ ∃ b ∈ s.entries, z.1 ∈ (first b).names ∧ s.rank x < s.rank b := by
  have hdecided : z ∈ decided s x ↔ Wins s.rank s.entries first x z.1 := by simp [decided, hz]
  rw [hdecided, Wins]
  push Not
  rfl

/-- Both declarations set, on the first level, a box of the border that the name `n` belongs to. -/
def Contend (x z : String × Declaration) (n : String) : Prop :=
  ∃ k ∈ Shorthand.border.longhands, n ∈ Shorthand.reach k ∧ k ∈ (first x).names ∧
    k ∈ (first z).names

/-- A declaration keeps what it sets, unless it contends for its box with one that ranks higher. -/
theorem mem_settled_iff_contend (hx : x ∈ s.entries) :
    y ∈ settled s x ↔ y ∈ full x ∧ ∀ z ∈ s.entries, s.rank x < s.rank z → ¬Contend x z y.1 := by
  have hfull : y ∈ settled s x → y ∈ full x := fun h => by
    obtain ⟨w, hw, hyw⟩ := List.mem_flatMap.mp h
    exact List.mem_flatMap.mpr ⟨w, mem_first_of_mem_decided hw, hyw⟩
  rw [← and_iff_right_of_imp hfull]
  refine and_congr_right fun h => ?_
  obtain ⟨w, hw, hyw⟩ := List.mem_flatMap.mp h
  have hreach := mem_reach_of_mem_spread (Entries.mem_names_of_mem hyw)
  rw [mem_settled_iff hw hyw, ← not_iff_not, not_mem_decided_iff hw]
  push Not
  refine exists_congr fun z => ?_
  constructor
  · rintro ⟨hz, hwz, hlt⟩
    refine ⟨hz, hlt, w.1, ?_, hreach, Entries.mem_names_of_mem hw, hwz⟩
    -- One of two declarations that set the same name on the first level is `border`.
    rcases first_cases x with ⟨-, hfx⟩ | ⟨-, hfx⟩
    · rcases first_cases z with ⟨-, hfz⟩ | ⟨-, hfz⟩
      · obtain rfl := List.mem_singleton.mp (hfx ▸ hw)
        rw [hfz] at hwz
        rw [Store.eq_of_mem_of_name_eq hx hz (List.mem_singleton.mp hwz)] at hlt
        exact absurd hlt (lt_irrefl _)
      · obtain ⟨v, hv, hvw⟩ := Entries.mem_names_iff.mp hwz
        exact hvw ▸ hfz v hv
    · exact hfx w hw
  · rintro ⟨hz, hlt, k, hk, hyk, hkx, hkz⟩
    refine ⟨hz, ?_, hlt⟩
    obtain ⟨v, hv, rfl⟩ := Entries.mem_names_iff.mp hkx
    by_cases hvw : v = w
    · exact hvw ▸ hkz
    · exact absurd hreach (disjoint_reach_of_ne hv hw hvw hyk)

/-- A box of the border is its own source on the first level. -/
theorem first_of_mem_longhands (h : x.1 ∈ Shorthand.border.longhands) : first x = [x] := by
  rcases first_cases x with ⟨-, hf⟩ | ⟨hx, -⟩
  · exact hf
  · rw [hx] at h
    exact absurd h (by decide)

/-- What `border` has to give way to on the first level overrules it. -/
theorem overruled_iff {z : String × Declaration} (hx : x ∈ s.entries)
    (hborder : x.1 = Shorthand.border.name) (hz : z ∈ first x) (hy : y ∈ spread z) :
    Overruled s x y ↔ z ∉ decided s x := by
  have hlong : z.1 ∈ Shorthand.border.longhands := by
    rcases first_cases x with ⟨hne, -⟩ | ⟨-, hf⟩
    · exact absurd hborder hne
    · exact hf z hz
  have hreach := mem_reach_of_mem_spread (Entries.mem_names_of_mem hy)
  rw [not_mem_decided_iff hz]
  constructor
  · rintro ⟨-, b, hb, hbl, hyb, hlt⟩
    have hbz : b.1 = z.1 := Shorthand.eq_of_mem_reach hbl hlong hyb hreach
    refine ⟨b, hb, ?_, hlt⟩
    rw [first_of_mem_longhands hbl, ← hbz]
    exact List.mem_singleton_self _
  · rintro ⟨b, hb, hzb, hlt⟩
    rcases first_cases b with ⟨-, hf⟩ | ⟨hbborder, -⟩
    · rw [hf] at hzb
      have hzb : z.1 = b.1 := List.mem_singleton.mp hzb
      exact ⟨hborder, b, hb, hzb ▸ hlong, hzb ▸ hreach, hlt⟩
    · obtain rfl := Store.eq_of_mem_of_name_eq hb hx (hbborder.trans hborder.symm)
      exact absurd hlt (lt_irrefl _)

/-- What the declaration of a box sets, `border` sets with its own declaration of the box. -/
theorem names_spread_subset_of_border (hx : x ∈ s.entries)
    (halone : ∀ x ∈ s.entries, ∃ t, Edit.expandAll.after (s.keepOnly x.1) = .ok t)
    (hfx : first x = [x]) {d : Declaration} (hkept : '!' ∉ d.value ∧ ';' ∉ d.value)
    {z : String × Declaration} (hz : z ∈ spread (Shorthand.border.name, d))
    (hlong : z.1 ∈ Shorthand.border.longhands) (hzx : z.1 = x.1) :
    (spread x).names ⊆ (spread z).names := by
  obtain ⟨box, hbox⟩ := Shorthand.exists_box_of_mem_longhands z.1 hlong
  obtain ⟨m, c⟩ := z
  obtain ⟨k, v⟩ := x
  obtain rfl : m = box.name := hbox
  obtain rfl : box.name = k := hzx
  rw [names_spread_box_of_border hkept.1 hkept.2 hz]
  obtain ⟨e, he⟩ := reads_of_single (Store.entries_keepOnly hx) (halone _ hx) _
    (hfx ▸ List.mem_singleton_self _) (.box box) (Shorthand.mem_afterBorder (by simp)) rfl
  exact (names_spread_sublist (s := .box box) he (Shorthand.ne_whole_of_box he)).subset

/-- A declaration that loses to `border` on the first level wins nothing: `border` sets all four sides
    of the box, and no other declaration overrules it there. -/
theorem exists_border_of_not_mem_decided (hx : x ∈ s.entries)
    (halone : ∀ x ∈ s.entries, ∃ t, Edit.expandAll.after (s.keepOnly x.1) = .ok t)
    (hkept : ∀ d, (Shorthand.border.name, d) ∈ s.entries → '!' ∉ d.value ∧ ';' ∉ d.value)
    (hborder : x.1 ≠ Shorthand.border.name) (hlost : x ∉ decided s x) (hy : y ∈ spread x) :
    ∃ b ∈ s.entries, s.rank x < s.rank b ∧ y.1 ∈ (effective s b).names := by
  have hfx : first x = [x] := (first_cases x).elim (·.2) fun h => absurd h.1 hborder
  obtain ⟨b, hb, hxb, hlt⟩ := (not_mem_decided_iff (hfx ▸ List.mem_singleton_self x)).mp hlost
  refine ⟨b, hb, hlt, ?_⟩
  -- A name on the first level has two sources only if one of them is `border`.
  obtain ⟨hbborder, hbf⟩ : b.1 = Shorthand.border.name ∧
      ∀ y ∈ first b, y.1 ∈ Shorthand.border.longhands := by
    rcases first_cases b with ⟨-, hf⟩ | hf
    · rw [hf] at hxb
      rw [Store.eq_of_mem_of_name_eq hx hb (List.mem_singleton.mp hxb)] at hlt
      exact absurd hlt (lt_irrefl _)
    · exact hf
  obtain ⟨z, hz, hzx⟩ := Entries.mem_names_iff.mp hxb
  have hyz : y.1 ∈ (spread z).names := by
    obtain ⟨n, d⟩ := b
    obtain rfl : n = Shorthand.border.name := hbborder
    exact names_spread_subset_of_border hx halone hfx (hkept d hb) (by simpa [first] using hz)
      (hbf z hz) hzx (Entries.mem_names_of_mem hy)
  obtain ⟨w, hw, hwy⟩ := Entries.mem_names_iff.mp hyz
  refine Entries.mem_names_iff.mpr ⟨w, List.mem_filter.mpr ⟨?_, ?_⟩, hwy⟩
  · rw [alone_eq_full hb (halone b hb)]
    exact List.mem_flatMap.mpr ⟨z, hz, hw⟩
  · rw [decide_eq_true_eq, overruled_iff hb hbborder hz hw, not_mem_decided_iff hz]
    rintro ⟨c, hc, hzc, hbc⟩
    rcases first_cases c with ⟨-, hf⟩ | ⟨hcborder, -⟩
    · rw [hf] at hzc
      have hcx : c = x := Store.eq_of_mem_of_name_eq hc hx ((List.mem_singleton.mp hzc).symm.trans hzx)
      exact absurd (hcx ▸ hbc) hlt.not_gt
    · have hcb : c = b := Store.eq_of_mem_of_name_eq hc hb (hcborder.trans hbborder.symm)
      exact absurd (hcb ▸ hbc) (lt_irrefl _)

/-! ## The cascade

  The statement, a store that shows it, and one that shows why there is the exception.
-/

/-- **Expansion computes the cascade of the store.**  If each declaration expands on its own, all of
    them expand together.  The names that are declared then are those that some declaration sets
    effectively; a name has the value and the importance that it has in the expansion of the one that
    ranks highest among these, and the names are listed by the position of that declaration, then in
    the order of its own expansion. -/
theorem expandAll_computes_cascade (s : Store)
    (hkept : ∀ d, (Shorthand.border.name, d) ∈ s.entries → '!' ∉ d.value ∧ ';' ∉ d.value)
    (halone : ∀ x ∈ s.entries, ∃ t, Edit.expandAll.after (s.keepOnly x.1) = .ok t) :
    ∃ t, Edit.expandAll.after s = .ok t ∧
      (∀ n, n ∈ t.names ↔ ∃ x ∈ s.entries, n ∈ (effective s x).names) ∧
      (∀ x ∈ s.entries, ∀ n d, (n, d) ∈ effective s x →
        (∀ y ∈ s.entries, n ∈ (effective s y).names → s.rank y ≤ s.rank x) →
        t.get? n = some d) ∧
      t.entries = merge s.rank s.entries (effective s) := by
  -- after_expandAll_of_alone halone := The expanded store is the merge of what is settled. It remains to see
  -- that the merge does not change when a part is left out because it is overruled, and not because it loses
  -- on the first level.
  obtain ⟨t, ht, hentries⟩ := after_expandAll_of_alone halone
  have hmerge : t.entries = merge s.rank s.entries (effective s) := by
    rw [hentries]
    refine merge_congr (fun x y => decide (y ∈ settled s x)) (fun x hx => ?_) fun x hx y hy hw => ?_
    · rw [effective, alone_eq_full hx (halone x hx), List.filter_filter]
      refine (filter_full fun z hz y hy => ?_).symm
      rw [Bool.and_eq_true, decide_eq_true_eq, decide_eq_true_eq, mem_settled_iff hz hy,
        and_iff_left_iff_imp]
      intro hdecided hover
      exact (overruled_iff hx hover.1 hz hy).mp hover hdecided
    · -- What wins is settled: if it were lost on the first level, then to a border that sets the same
      -- longhand and wins against it.
      have hfull : y ∈ full x := alone_eq_full hx (halone x hx) ▸ (List.mem_filter.mp hy).1
      have hnot : ¬Overruled s x y := of_decide_eq_true (List.mem_filter.mp hy).2
      obtain ⟨z, hz, hyz⟩ := List.mem_flatMap.mp hfull
      rw [decide_eq_true_eq, mem_settled_iff hz hyz]
      by_contra hlost
      by_cases hborder : x.1 = Shorthand.border.name
      · exact hnot ((overruled_iff hx hborder hz hyz).mpr hlost)
      · have hfx : first x = [x] := (first_cases x).elim (·.2) fun h => absurd h.1 hborder
        obtain rfl : z = x := List.mem_singleton.mp (hfx ▸ hz)
        obtain ⟨b, hb, hlt, hyb⟩ :=
          exists_border_of_not_mem_decided hx halone hkept hborder hlost hyz
        exact absurd (hw b hb hyb) hlt.not_ge
  refine ⟨t, ht, fun n => ?_, fun x hx n d hd hw => ?_, hmerge⟩
  · rw [Store.names, hmerge, mem_names_merge]
  · exact Store.get?_of_mem (hmerge ▸ mem_merge.mpr ⟨x, hx, hd, hw⟩)

/-- An important border, a width for two of its sides, and another border of one side. -/
def bordered : Store :=
  .ofList [("border", .text "2px solid!important".toList), ("border-width", .text "1px 3px".toList),
    ("border-left", .text "5px dotted".toList)]

/-- An important border behind two of its parts: the width and the left side are overruled on the first level.
    -/
theorem bordered_computes_cascade :
    (∀ d, (Shorthand.border.name, d) ∈ bordered.entries → '!' ∉ d.value ∧ ';' ∉ d.value) ∧
    (∀ x ∈ bordered.entries, ∃ t, Edit.expandAll.after (bordered.keepOnly x.1) = .ok t) ∧
    ∃ t, Edit.expandAll.after bordered = .ok t ∧
      (∀ n, n ∈ t.names ↔ ∃ x ∈ bordered.entries, n ∈ (effective bordered x).names) ∧
      (∀ x ∈ bordered.entries, ∀ n d, (n, d) ∈ effective bordered x →
        (∀ y ∈ bordered.entries, n ∈ (effective bordered y).names →
          bordered.rank y ≤ bordered.rank x) →
        t.get? n = some d) ∧
      t.entries = merge bordered.rank bordered.entries (effective bordered) := by
  have hkept : ∀ d, (Shorthand.border.name, d) ∈ bordered.entries →
      '!' ∉ d.value ∧ ';' ∉ d.value := by
    have h : ∀ x ∈ bordered.entries, '!' ∉ x.2.value ∧ ';' ∉ x.2.value := by decide +kernel
    exact fun d hd => h _ hd
  have halone : ∀ x ∈ bordered.entries,
      ∃ t, Edit.expandAll.after (bordered.keepOnly x.1) = .ok t := by
    have h : ∀ x ∈ bordered.entries, (Edit.expandAll.after (bordered.keepOnly x.1)).isOk = true := by
      decide +kernel
    exact fun x hx => Edit.exists_of_isOk (h x hx)
  exact ⟨hkept, halone, expandAll_computes_cascade bordered hkept halone⟩

/-- A border, and a width of which the first part is the escape of a blank: it declares nothing for top
    and bottom. -/
def halfWidth : Store :=
  .ofList [("border", .text "2px".toList), ("border-width", .text "\\a0  1px".toList)]

/-- **The exception is needed.**  If `border` set what it sets on its own, the width of the top would be
    declared; it is not. -/
theorem not_cascade_of_alone :
    ¬∀ s : Store,
      (∀ x ∈ s.entries, ∀ c ∈ x.2.value,
        c ≠ '!' ∧ c ≠ ';' ∧ (Text.isBlank c = true → Text.isCssBlank c = true)) →
      (∀ x ∈ s.entries, ∃ t, Edit.expandAll.after (s.keepOnly x.1) = .ok t) →
      ∃ t, Edit.expandAll.after s = .ok t ∧
        ∀ n, n ∈ t.names ↔ ∃ x ∈ s.entries, n ∈ (alone s x).names := by
  intro h
  have halone : ∀ x ∈ halfWidth.entries,
      (Edit.expandAll.after (halfWidth.keepOnly x.1)).isOk = true := by
    decide +kernel
  have hplain : ∀ x ∈ halfWidth.entries, x.2.value.all fun c =>
      c != '!' && c != ';' && (!Text.isBlank c || Text.isCssBlank c) := by
    decide +kernel
  obtain ⟨t, ht, hnames⟩ := h halfWidth
    (fun x hx c hc => by
      have := List.all_eq_true.mp (hplain x hx) c hc
      simp only [Bool.and_eq_true, bne_iff_ne, Bool.or_eq_true, Bool.not_eq_true'] at this
      exact ⟨this.1.1, this.1.2, fun hb => this.2.resolve_left (by simp [hb])⟩)
    fun x hx => Edit.exists_of_isOk (halone x hx)
  -- Each declaration by itself sets the longhand, but the store as a whole does not.
  have hset : ∃ x ∈ halfWidth.entries, "border-top-width" ∈ (alone halfWidth x).names := by
    decide +kernel
  have hnot : ∀ u, (Edit.expandAll.after halfWidth).toOption = some u →
      "border-top-width" ∉ u.names := by
    have : (Edit.expandAll.after halfWidth).toOption.all fun u => "border-top-width" ∉ u.names := by
      decide +kernel
    intro u hu
    simpa [hu] using this
  exact hnot t (by rw [ht]; rfl) ((hnames "border-top-width").mpr hset)

end Cascade

end CssShorthand
