/-
  EXPANDING WHAT THE FOLD OF THE BOXES LEAVES.

  What is written for a box stands where the box stood, or at the end, and not where the longhands
  stood.  So it may win over declarations that the longhands lost to, and lose to declarations that they
  won over.  `Yields` says what a side of the box is given in the end, in terms of the store before:
  the highest of the declarations that rank above the place of the box, or else the side itself.

  `refolded_iff` says when expansion gives the same with and without the fold, of values that are read
  back as they were (`Restores`).

  The route: 1. names apart from all folded boxes are set by the same declarations as before, in the same
  order (`mem_merge_foldBoxes_iff`). 2. A side of a folded box is set by the box, unless something ranks
  above the place where this was put (`mem_merge_of_yields`). 3. As some declaration always yields for a
  side (`exists_yields`), the two stores agree exactly if for each side it is the one that won before.
-/
import CssShorthand.Proofs.Cascade.Alone
import CssShorthand.Proofs.Folding.Places

namespace CssShorthand

namespace Shorthand

/-- A box reaches its longhands, and itself. -/
theorem reach_box (b : BoxShorthand) : reach b.name = b.scope :=
  reach_name (.box b)

/-- A longhand reaches itself only. -/
theorem reach_of_mem_longhands {b : BoxShorthand} {n : String} (h : n ∈ b.longhands.toList) :
    reach n = [n] := by
  have hall : ∀ b ∈ BoxShorthand.all, ∀ n ∈ b.longhands.toList, ofName? n = none := by decide
  simp [reach, hall b b.mem_all n h]

/-- What a name of a box reaches belongs to the box. -/
theorem mem_scope_of_mem_reach {b : BoxShorthand} {m n : String} (hm : m ∈ b.scope)
    (hn : n ∈ reach m) : n ∈ b.scope := by
  rcases List.mem_cons.mp hm with rfl | hm'
  · rwa [reach_box] at hn
  · rw [reach_of_mem_longhands hm', List.mem_singleton] at hn
    exact hn ▸ hm

/-- The border belongs to no box. -/
theorem border_not_mem_scope (b : BoxShorthand) : border.name ∉ b.scope := by
  cases b <;> decide

end Shorthand

namespace Cascade

variable {s : Store} {x : String × Declaration} {n : String}

/-- A name of a box on the first level: the declaration has that name, or it is `border`. -/
theorem eq_or_border_of_mem_first (h : n ∈ (first x).names) :
    x.1 = n ∨ x.1 = Shorthand.border.name := by
  rcases first_cases x with ⟨-, hf⟩ | ⟨hx, -⟩
  · rw [hf] at h
    exact Or.inl (List.mem_singleton.mp h).symm
  · exact Or.inr hx

/-- A box is expanded away. -/
theorem not_mem_of_after {t : Store} (h : Edit.expandAll.after s = .ok t) (b : BoxShorthand) :
    b.name ∉ t.names := by
  obtain ⟨hok, hreads⟩ := after_expandAll s
  intro hn
  rw [Store.names, hok t h, mem_names_merge] at hn
  obtain ⟨x, hx, hn⟩ := hn
  obtain ⟨y, hy, hyn⟩ := Entries.mem_names_iff.mp hn
  obtain ⟨z, hz, hyz⟩ := List.mem_flatMap.mp hy
  have hreach := mem_reach_of_mem_spread (Entries.mem_names_of_mem hyz)
  -- What reaches a box is the box itself, and that is spread to its sides.
  by_cases hsh : ∃ sh ∈ Shorthand.afterBorder, z.1 = sh.name
  · obtain ⟨sh, hsh, hzsh⟩ := hsh
    have hbox : Shorthand.box b = sh := by
      refine Shorthand.eq_of_name_mem_reach hsh ?_
      rw [← hzsh]
      show b.name ∈ _
      exact hyn ▸ hreach
    subst hbox
    obtain ⟨e, he⟩ := hreads.mp ⟨t, h⟩ x hx z hz _ hsh hzsh
    obtain ⟨m, d⟩ := z
    obtain rfl : m = b.name := hzsh
    have hsub := names_spread_sublist (s := .box b) he (Shorthand.ne_whole_of_box he)
    exact BoxShorthand.name_not_mem_longhands b b
      (hsub.subset (hyn ▸ Entries.mem_names_of_mem hyz))
  · rw [spread_eq_self_of_not_mem (mem_first_of_mem_decided hz) fun sh hm hzs => hsh ⟨sh, hm, hzs⟩,
      List.mem_singleton] at hyz
    exact hsh ⟨.box b, Shorthand.mem_afterBorder (by simp), hyz ▸ hyn⟩

end Cascade

namespace Folding

open Cascade
open BoxShorthand (scope)

/-- What is written for a box declares its four sides again. -/
def Restores (b : BoxShorthand) (v : Sides Text) : Prop :=
  ∃ d, Value.declarationOfText? (joined v.minimal) false = some d ∧ d.important = false ∧
    spread (b.name, d) = (b.longhands.zip v).map fun e => (e.1, ⟨e.2, false⟩)

/-- A declaration that has nothing to do with the box itself and ranks above a plain one in the place
    of the box. -/
def Above (s : Store) (b : BoxShorthand) (x : String × Declaration) : Prop :=
  x ∈ s.entries ∧ x.1 ∉ b.scope ∧
    (x.2.important = true ∨ s.names.idxOf b.name < s.names.idxOf x.1)

/-- What the side `n` of a folded box is given in the end, of which the value was `w`: what the highest
    of the declarations above the box sets it to, or its own value if none of them sets it. -/
def Yields (s : Store) (b : BoxShorthand) (n : String) (w : Text) (d : Declaration) : Prop :=
  (∃ x, Above s b x ∧ (n, d) ∈ full x ∧
      ∀ y, Above s b y → n ∈ (full y).names → s.rank y ≤ s.rank x) ∨
    (d = ⟨w, false⟩ ∧ ∀ x, Above s b x → n ∉ (full x).names)

variable {s : Store} {b : BoxShorthand} {v : Sides Text} {x y : String × Declaration} {n : String}

/-- Some declaration is the highest. -/
theorem exists_yields (s : Store) (b : BoxShorthand) (n : String) (w : Text) :
    ∃ d, Yields s b n w d := by
  classical
  by_cases h : ∃ x, Above s b x ∧ n ∈ (full x).names
  · obtain ⟨x, hx, hn⟩ := h
    have hmem : ∀ y, y ∈ s.entries.filter (fun y => Above s b y) ↔ Above s b y := fun y => by
      simp only [List.mem_filter, decide_eq_true_eq, and_iff_right_iff_imp]
      exact fun hy => hy.1
    obtain ⟨a, ha, han, hw⟩ := exists_wins s.rank ((hmem x).mpr hx) hn
    obtain ⟨⟨m, d⟩, hd, rfl⟩ := Entries.mem_names_iff.mp han
    exact ⟨d, Or.inl ⟨a, (hmem a).mp ha, hd, fun y hy hny => hw y ((hmem y).mpr hy) hny⟩⟩
  · exact ⟨_, Or.inr ⟨rfl, fun x hx hn => h ⟨x, hx, hn⟩⟩⟩

/-! ## The store after the fold

  An entry is one that was there, apart from the boxes, or one that was written.
-/

/-- The declaration is not of a name of a folded box. -/
def Apart (s : Store) (n : String) : Prop := ∀ b, folds s b = true → n ∉ b.scope

/-- What is apart from all boxes that are folded is in the store after as it was before. -/
theorem mem_foldBoxes_iff_of_apart (h : Apart s x.1) :
    x ∈ (foldBoxes s).1.entries ↔ x ∈ s.entries := by
  obtain ⟨n, d⟩ := x
  have hget : trimName n = n → (foldBoxes s).1.get? n = s.get? n := by
    intro htrim
    by_cases hb : ∃ b : BoxShorthand, n ∈ b.scope
    · obtain ⟨b, hb⟩ := hb
      have hnone : sides? b s = none := Option.isNone_iff_eq_none.mp (by
        simpa [folds] using mt (h b) (not_not.mpr hb))
      rcases List.mem_cons.mp hb with rfl | hn
      · rw [get?_foldBoxes_name, hnone]
      · rw [get?_foldBoxes_longhand b s hn, hnone]
        rfl
    · exact get?_foldBoxes_of_not_mem s htrim fun b hnb => hb ⟨b, hnb⟩
  constructor
  · intro hd
    have htrim := (foldBoxes s).1.trimName_of_mem n (Entries.mem_names_of_mem hd)
    exact (Store.get?_eq_some_iff htrim).mp ((hget htrim).symm.trans (Store.get?_of_mem hd))
  · intro hd
    have htrim := s.trimName_of_mem n (Entries.mem_names_of_mem hd)
    exact (Store.get?_eq_some_iff htrim).mp ((hget htrim).trans (Store.get?_of_mem hd))

/-- Of the names of a folded box only its own is declared then, by what is written. -/
theorem mem_foldBoxes_iff_of_folds (hv : sides? b s = some v) (hn : x.1 ∈ b.scope) :
    x ∈ (foldBoxes s).1.entries ↔
      x.1 = b.name ∧ Value.declarationOfText? (joined v.minimal) false = some x.2 := by
  obtain ⟨n, d⟩ := x
  have htrim : trimName n = n := by
    rcases List.mem_cons.mp hn with rfl | hn
    · exact b.trimName_name
    · exact b.trimName_longhand n hn
  rw [← Store.get?_eq_some_iff htrim]
  show (foldBoxes s).1.get? n = some d ↔ _
  rcases List.mem_cons.mp hn with rfl | hn
  · simp [get?_foldBoxes_name, hv]
  · have hne : n ≠ b.name := fun h => BoxShorthand.name_not_mem_longhands b b (h ▸ hn)
    simp [get?_foldBoxes_longhand b s hn, hv, hne]

/-- What stands in the store after the fold: what stood there before, and what is written. -/
theorem apart_or_written (h : x ∈ (foldBoxes s).1.entries) :
    Apart s x.1 ∨ ∃ b v, sides? b s = some v ∧ x.1 = b.name ∧
      Value.declarationOfText? (joined v.minimal) false = some x.2 := by
  by_cases hb : ∃ b, folds s b = true ∧ x.1 ∈ b.scope
  · obtain ⟨b, hfold, hx⟩ := hb
    obtain ⟨v, hv⟩ := Option.isSome_iff_exists.mp hfold
    exact Or.inr ⟨b, v, hv, (mem_foldBoxes_iff_of_folds hv hx).mp h⟩
  · exact Or.inl fun b hfold hx => hb ⟨b, hfold, hx⟩

section

variable (hrestores : ∀ b v, sides? b s = some v → Restores b v)

include hrestores

/-- The sides of a box can be written when they are kept. -/
theorem writable (b : BoxShorthand) : Writable b s := fun v hv =>
  let ⟨d, hd, _⟩ := hrestores b v hv
  ⟨d, hd⟩

/-- The declarations rank as they did before, what is written by the place of its box. -/
theorem rank_foldBoxes_lt_iff (hx : x ∈ (foldBoxes s).1.entries) (hy : y ∈ (foldBoxes s).1.entries)
    (hold : x.1 ∈ s.names ∨ y.1 ∈ s.names) :
    (foldBoxes s).1.rank x < (foldBoxes s).1.rank y ↔
      (x.2.important = false ∧ y.2.important = true) ∨
        (x.2.important = y.2.important ∧ s.names.idxOf x.1 < s.names.idxOf y.1) := by
  rw [Store.rank, Store.rank, Prod.Lex.toLex_lt_toLex,
    ← Entries.idxOf_names (foldBoxes s).1.nodup_names hx,
    ← Entries.idxOf_names (foldBoxes s).1.nodup_names hy]
  have := idxOf_foldBoxes_lt_iff (writable hrestores) (Entries.mem_names_of_mem hx)
    (Entries.mem_names_of_mem hy) hold
  show _ ∨ _ ∧ (foldBoxes s).1.names.idxOf x.1 < (foldBoxes s).1.names.idxOf y.1 ↔ _
  rw [this]
  cases x.2.important <;> cases y.2.important <;> simp

/-- Of two declarations that stay, the earlier one is still the earlier one. -/
theorem rank_foldBoxes_lt_iff_of_mem (hx : x ∈ s.entries) (hy : y ∈ s.entries) (hxa : Apart s x.1)
    (hya : Apart s y.1) :
    (foldBoxes s).1.rank x < (foldBoxes s).1.rank y ↔ s.rank x < s.rank y := by
  rw [rank_foldBoxes_lt_iff hrestores ((mem_foldBoxes_iff_of_apart hxa).mpr hx)
    ((mem_foldBoxes_iff_of_apart hya).mpr hy) (Or.inl (Entries.mem_names_of_mem hx)), Store.rank,
    Store.rank, Prod.Lex.toLex_lt_toLex, ← Entries.idxOf_names s.nodup_names hx,
    ← Entries.idxOf_names s.nodup_names hy]
  cases x.2.important <;> cases y.2.important <;> simp [Store.names]

/-- What is written for a box sets nothing but its sides. -/
theorem full_written {d : Declaration} (hv : sides? b s = some v)
    (hd : Value.declarationOfText? (joined v.minimal) false = some d) :
    d.important = false ∧
      full (b.name, d) = (b.longhands.zip v).map fun e => (e.1, ⟨e.2, false⟩) := by
  obtain ⟨d', hd', himp, hspread⟩ := hrestores b v hv
  obtain rfl : d' = d := Option.some.inj (hd'.symm.trans hd)
  have hne : b.name ≠ Shorthand.border.name := fun h =>
    Shorthand.border_not_mem_scope b (h ▸ List.mem_cons_self)
  exact ⟨himp, by simp [full, first, hne, hspread]⟩

end

/-! ## Names that are apart from the fold

  Their sources, their order and what they settle are the same.
-/

/-- The names of four entries are those of the longhands. -/
theorem names_map_zip (b : BoxShorthand) (v : Sides Text) :
    Entries.names ((b.longhands.zip v).map fun e => (e.1, (⟨e.2, false⟩ : Declaration))) =
      b.longhands.toList := by
  simp [Entries.names, Sides.zip, Sides.toList]

/-- What sets a name that is apart from the fold is apart from it as well. -/
theorem apart_of_mem_reach {m : String} (hn : Apart s n) (h : n ∈ Shorthand.reach m) : Apart s m :=
  fun b hb hm => hn b hb (Shorthand.mem_scope_of_mem_reach hm h)

/-- What sets a longhand apart from all boxes is itself apart from them. -/
theorem apart_of_mem_full {d : Declaration} (hn : Apart s n) (h : (n, d) ∈ full x) : Apart s x.1 := by
  obtain ⟨y, hy, hny⟩ := List.mem_flatMap.mp h
  have hya := apart_of_mem_reach hn (mem_reach_of_mem_spread (Entries.mem_names_of_mem hny))
  rcases eq_or_border_of_mem_first (Entries.mem_names_of_mem hy) with hx | hx
  · exact hx ▸ hya
  · exact fun b _ => hx ▸ Shorthand.border_not_mem_scope b

/-- The same for the first level of expansion. -/
theorem apart_of_mem_first (hn : Apart s n) (h : n ∈ (first x).names) : Apart s x.1 := by
  rcases eq_or_border_of_mem_first h with hx | hx
  · exact hx ▸ hn
  · exact fun b _ => hx ▸ Shorthand.border_not_mem_scope b

section

variable (hrestores : ∀ b v, sides? b s = some v → Restores b v)

include hrestores

/-- Apart from the fold the same is decided on the first level. -/
theorem mem_decided_foldBoxes_iff (hx : x ∈ s.entries) (hxa : Apart s x.1) (hya : Apart s y.1) :
    y ∈ decided (foldBoxes s).1 x ↔ y ∈ decided s x := by
  simp only [decided, List.mem_filter, decide_eq_true_eq]
  refine and_congr_right fun _ => ⟨fun h z hz hyz => ?_, fun h z hz hyz => ?_⟩
  · have hza := apart_of_mem_first hya hyz
    have := h z ((mem_foldBoxes_iff_of_apart hza).mpr hz) hyz
    rwa [← not_lt, ← rank_foldBoxes_lt_iff_of_mem hrestores hx hz hxa hza, not_lt]
  · have hza := apart_of_mem_first hya hyz
    have hz := (mem_foldBoxes_iff_of_apart hza).mp hz
    rw [← not_lt, rank_foldBoxes_lt_iff_of_mem hrestores hx hz hxa hza, not_lt]
    exact h z hz hyz

/-- What a declaration settles outside of the boxes is the same after the folds, since those that come later
    are the same. -/
theorem mem_settled_foldBoxes_iff {d : Declaration} (hx : x ∈ s.entries) (hxa : Apart s x.1)
    (hn : Apart s n) : (n, d) ∈ settled (foldBoxes s).1 x ↔ (n, d) ∈ settled s x := by
  simp only [settled, List.mem_flatMap]
  refine exists_congr fun y => and_congr_left fun hny => ?_
  exact mem_decided_foldBoxes_iff hrestores hx hxa
    (apart_of_mem_reach hn (mem_reach_of_mem_spread (Entries.mem_names_of_mem hny)))

/-- The same for the names it settles. -/
theorem mem_names_settled_foldBoxes_iff (hx : x ∈ s.entries) (hxa : Apart s x.1) (hn : Apart s n) :
    n ∈ (settled (foldBoxes s).1 x).names ↔ n ∈ (settled s x).names := by
  have hentry : ∀ es : Entries Declaration, n ∈ es.names ↔ ∃ d, (n, d) ∈ es := fun es => by
    simp [Entries.names]
  rw [hentry, hentry]
  exact exists_congr fun d => mem_settled_foldBoxes_iff hrestores hx hxa hn

/-- **The fold does not touch other names.** -/
theorem mem_merge_foldBoxes_iff {d : Declaration} (hn : Apart s n) :
    (n, d) ∈ merge (foldBoxes s).1.rank (foldBoxes s).1.entries (settled (foldBoxes s).1) ↔
      (n, d) ∈ merge s.rank s.entries (settled s) := by
  have hfull : ∀ (t : Store) (x : String × Declaration) (d : Declaration),
      (n, d) ∈ settled t x → Apart s x.1 := fun t x d h => by
    obtain ⟨y, hy, hny⟩ := List.mem_flatMap.mp h
    exact apart_of_mem_full hn (List.mem_flatMap.mpr ⟨y, mem_first_of_mem_decided hy, hny⟩)
  have hnames : ∀ (t : Store) (x : String × Declaration),
      n ∈ (settled t x).names → Apart s x.1 := fun t x h => by
    obtain ⟨⟨m, d⟩, hd, rfl⟩ := Entries.mem_names_iff.mp h
    exact hfull t x d hd
  -- The sources of a name that is apart are apart themselves; these are the same before and after, in the
  -- same order.
  simp only [mem_merge]
  constructor
  · rintro ⟨x, hx, hd, hw⟩
    have hxa := hfull _ x d hd
    have hx := (mem_foldBoxes_iff_of_apart hxa).mp hx
    refine ⟨x, hx, (mem_settled_foldBoxes_iff hrestores hx hxa hn).mp hd, fun y hy hny => ?_⟩
    have hya := hnames _ y hny
    have := hw y ((mem_foldBoxes_iff_of_apart hya).mpr hy)
      ((mem_names_settled_foldBoxes_iff hrestores hy hya hn).mpr hny)
    rwa [← not_lt, ← rank_foldBoxes_lt_iff_of_mem hrestores hx hy hxa hya, not_lt]
  · rintro ⟨x, hx, hd, hw⟩
    have hxa := hfull _ x d hd
    refine ⟨x, (mem_foldBoxes_iff_of_apart hxa).mpr hx,
      (mem_settled_foldBoxes_iff hrestores hx hxa hn).mpr hd, fun y hy hny => ?_⟩
    have hya := hnames _ y hny
    have hy := (mem_foldBoxes_iff_of_apart hya).mp hy
    rw [← not_lt, rank_foldBoxes_lt_iff_of_mem hrestores hx hy hxa hya, not_lt]
    exact hw y hy ((mem_names_settled_foldBoxes_iff hrestores hy hya hn).mp hny)

end

/-! ## The sides of a folded box

  Who wins a side: something above the place of the box, or the box.
-/

/-- The value of a box that sets its longhands can be read. -/
theorem reads_of_names_spread {d : Declaration}
    (h : (spread (b.name, d)).names = b.longhands.toList) : Reads (b.name, d) := by
  cases he : expandValue b.name d.value with
  | ok e => exact ⟨e, he⟩
  | error f =>
    have hself : spread (b.name, d) = [(b.name, d)] := by simp [spread, he]
    rw [hself] at h
    exact absurd (h ▸ List.mem_singleton_self b.name) (BoxShorthand.name_not_mem_longhands b b)

section

variable (hrestores : ∀ b v, sides? b s = some v → Restores b v)
  (hborder : ∀ d, (Shorthand.border.name, d) ∈ s.entries → '!' ∉ d.value ∧ ';' ∉ d.value)

include hrestores hborder

/-- If all can be expanded before the fold, all can be expanded after it. -/
theorem exists_after_foldBoxes (h : ∃ t, Edit.expandAll.after s = .ok t) :
    ∃ t, Edit.expandAll.after (foldBoxes s).1 = .ok t := by
  refine (after_expandAll _).2.mpr fun x hx y hy sh hsh hysh => ?_
  -- What is apart could be read before; what was written for a box is read as its four sides.
  rcases apart_or_written hx with hxa | ⟨b, v, hv, hxb, hd⟩
  · have hx := (mem_foldBoxes_iff_of_apart hxa).mp hx
    by_cases hya : Apart s y.1
    · exact (after_expandAll s).2.mp h x hx y
        ((mem_decided_foldBoxes_iff hrestores hx hxa hya).mp hy) sh hsh hysh
    · have hyx := mem_first_of_mem_decided hy
      rcases first_cases x with ⟨-, hf⟩ | ⟨hxb, hf⟩
      · obtain rfl := List.mem_singleton.mp (hf ▸ hyx)
        exact absurd hxa hya
      · obtain ⟨c, hc⟩ := Shorthand.exists_box_of_mem_longhands y.1 (hf y hyx)
        obtain ⟨m, d⟩ := x
        obtain ⟨k, e⟩ := y
        obtain rfl : m = Shorthand.border.name := hxb
        obtain rfl : k = c.name := hc
        obtain ⟨hmark, hend⟩ := hborder d hx
        exact reads_of_names_spread
          (names_spread_box_of_border hmark hend (by simpa [first] using hyx))
  · obtain ⟨m, d⟩ := x
    obtain rfl : m = b.name := hxb
    obtain ⟨-, hfull⟩ := full_written hrestores hv hd
    have hne : b.name ≠ Shorthand.border.name := fun h =>
      Shorthand.border_not_mem_scope b (h ▸ List.mem_cons_self)
    have hfirst : first (b.name, d) = [(b.name, d)] := by simp [first, hne]
    obtain rfl := List.mem_singleton.mp (hfirst ▸ mem_first_of_mem_decided hy)
    refine reads_of_names_spread ?_
    have hspread : full (b.name, d) = spread (b.name, d) := by simp [full, hfirst]
    rw [← hspread, hfull, names_map_zip]

end

/-- A declaration apart from the box ranks above what is written if it ranks above its place. -/
theorem above_iff (hrestores : ∀ b v, sides? b s = some v → Restores b v) {w : Declaration}
    (hw : (b.name, w) ∈ (foldBoxes s).1.entries) (hplain : w.important = false)
    (hx : x ∈ s.entries) (hxa : Apart s x.1) (hfold : folds s b = true) :
    Above s b x ↔ (foldBoxes s).1.rank (b.name, w) < (foldBoxes s).1.rank x := by
  rw [rank_foldBoxes_lt_iff hrestores hw ((mem_foldBoxes_iff_of_apart hxa).mpr hx)
    (Or.inr (Entries.mem_names_of_mem hx)), Above]
  simp only [hx, hxa b hfold, hplain, true_and, not_false_eq_true]
  cases x.2.important <;> simp

/-- A declaration of another name that sets a side of a folded box is apart from all folds. -/
theorem apart_of_mem_names_full (hn : n ∈ b.longhands.toList) (hx : x.1 ∉ b.scope)
    (hnx : n ∈ (full x).names) : Apart s x.1 := by
  intro c _ hxc
  obtain ⟨y, hy, rfl⟩ := Entries.mem_names_iff.mp hnx
  obtain ⟨z, hz, hyz⟩ := List.mem_flatMap.mp hy
  have hreach := mem_reach_of_mem_spread (Entries.mem_names_of_mem hyz)
  rcases eq_or_border_of_mem_first (Entries.mem_names_of_mem hz) with hxz | hxz
  · have hyc := Shorthand.mem_scope_of_mem_reach hxc (hxz ▸ hreach)
    rw [BoxShorthand.eq_of_mem_scope hyc (List.mem_cons_of_mem _ hn)] at hxc
    exact hx hxc
  · exact Shorthand.border_not_mem_scope c (hxz ▸ hxc)

/-- A declaration of another name that contends for a side of a box with another is `border`, and sets
    the box. -/
theorem eq_of_contend {z : String × Declaration} (hn : n ∈ b.scope) (h : Contend x z n) :
    b.name ∈ (first x).names ∧ b.name ∈ (first z).names := by
  obtain ⟨k, hk, hnk, hkx, hkz⟩ := h
  obtain ⟨c, rfl⟩ := Shorthand.exists_box_of_mem_longhands k hk
  rw [Shorthand.reach_box] at hnk
  rw [BoxShorthand.eq_of_mem_scope hn hnk]
  exact ⟨hkx, hkz⟩

/-- What stands in the store after the fold and sets a side of a folded box is what is written for the
    box, or another declaration. -/
theorem eq_or_apart_of_mem_names_settled {w : Declaration} (hv : sides? b s = some v)
    (hw : Value.declarationOfText? (joined v.minimal) false = some w) (hn : n ∈ b.longhands.toList)
    (hx : x ∈ (foldBoxes s).1.entries) (hnx : n ∈ (settled (foldBoxes s).1 x).names) :
    x = (b.name, w) ∨ (x ∈ s.entries ∧ Apart s x.1 ∧ n ∈ (full x).names) := by
  have hnf : n ∈ (full x).names := by
    obtain ⟨y, hy, rfl⟩ := Entries.mem_names_iff.mp hnx
    exact Entries.mem_names_of_mem ((mem_settled_iff_contend hx).mp hy).1
  by_cases hxb : x.1 ∈ b.scope
  · obtain ⟨m, d⟩ := x
    obtain ⟨hm, hd⟩ := (mem_foldBoxes_iff_of_folds hv hxb).mp hx
    rw [hw] at hd
    exact Or.inl (Prod.ext hm (Option.some.inj hd).symm)
  · have hxa := apart_of_mem_names_full (s := s) hn hxb hnf
    exact Or.inr ⟨(mem_foldBoxes_iff_of_apart hxa).mp hx, hxa, hnf⟩

section

variable (hrestores : ∀ b v, sides? b s = some v → Restores b v)
  (hborder : ∀ d, (Shorthand.border.name, d) ∈ s.entries → '!' ∉ d.value ∧ ';' ∉ d.value)

include hrestores

/-- The highest declaration above the box sets its sides. -/
theorem mem_merge_of_above {w d : Declaration} (hv : sides? b s = some v)
    (hw : Value.declarationOfText? (joined v.minimal) false = some w) (hn : n ∈ b.longhands.toList)
    (hx : Above s b x) (hd : (n, d) ∈ full x)
    (hhighest : ∀ y, Above s b y → n ∈ (full y).names → s.rank y ≤ s.rank x) :
    (n, d) ∈ merge (foldBoxes s).1.rank (foldBoxes s).1.entries (settled (foldBoxes s).1) := by
  have hfold : folds s b = true := by simp [folds, hv]
  have hwmem := (mem_foldBoxes_iff_of_folds hv (x := (b.name, w)) List.mem_cons_self).mpr ⟨rfl, hw⟩
  have hplain := (full_written hrestores hv hw).1
  have hxa := apart_of_mem_names_full (s := s) hn hx.2.1 (Entries.mem_names_of_mem hd)
  have hxmem := (mem_foldBoxes_iff_of_apart hxa).mpr hx.1
  have hlt := (above_iff hrestores hwmem hplain hx.1 hxa hfold).mp hx
  refine mem_merge.mpr ⟨x, hxmem, (mem_settled_iff_contend hxmem).mpr ⟨hd, ?_⟩, ?_⟩
  · -- Only what is written could contend with it, and that ranks below.
    intro z hz hxz hcontend
    obtain ⟨hbx, hbz⟩ := eq_of_contend (List.mem_cons_of_mem _ hn) hcontend
    have hxborder := (eq_or_border_of_mem_first hbx).resolve_left fun h =>
      hx.2.1 (h ▸ List.mem_cons_self)
    rcases eq_or_border_of_mem_first hbz with hzb | hzborder
    · obtain rfl := Store.eq_of_mem_of_name_eq hz hwmem hzb
      exact absurd hlt hxz.not_gt
    · rw [Store.eq_of_mem_of_name_eq hz hxmem (hzborder.trans hxborder.symm)] at hxz
      exact absurd hxz (lt_irrefl _)
  · intro y hy hny
    rcases eq_or_apart_of_mem_names_settled hv hw hn hy hny with rfl | ⟨hys, hya, hny⟩
    · exact hlt.le
    · by_cases hyb : Above s b y
      · rw [← not_lt, rank_foldBoxes_lt_iff_of_mem hrestores hx.1 hys hxa hya, not_lt]
        exact hhighest y hyb hny
      · rw [above_iff hrestores hwmem hplain hys hya hfold, not_lt] at hyb
        exact hyb.trans hlt.le

include hborder

/-- If no declaration above the box sets a side, it has its own value again. -/
theorem mem_merge_of_not_above {w : Text} (hv : sides? b s = some v)
    (hnw : (n, w) ∈ b.longhands.zip v) (hnone : ∀ x, Above s b x → n ∉ (full x).names) :
    (n, ⟨w, false⟩) ∈
      merge (foldBoxes s).1.rank (foldBoxes s).1.entries (settled (foldBoxes s).1) := by
  obtain ⟨d, hd, -⟩ := hrestores b v hv
  have hn : n ∈ b.longhands.toList := (List.of_mem_zip hnw).1
  have hfold : folds s b = true := by simp [folds, hv]
  have hwmem := (mem_foldBoxes_iff_of_folds hv (x := (b.name, d)) List.mem_cons_self).mpr ⟨rfl, hd⟩
  obtain ⟨hplain, hfull⟩ := full_written hrestores hv hd
  have hset : (n, (⟨w, false⟩ : Declaration)) ∈ full (b.name, d) := by
    rw [hfull]
    exact List.mem_map.mpr ⟨_, hnw, rfl⟩
  refine mem_merge.mpr ⟨(b.name, d), hwmem, (mem_settled_iff_contend hwmem).mpr ⟨hset, ?_⟩, ?_⟩
  · -- A `border` above it would set this side.
    intro z hz hlt hcontend
    obtain ⟨-, hbz⟩ := eq_of_contend (List.mem_cons_of_mem _ hn) hcontend
    rcases eq_or_border_of_mem_first hbz with hzb | hzborder
    · rw [Store.eq_of_mem_of_name_eq hz hwmem hzb] at hlt
      exact absurd hlt (lt_irrefl _)
    · have hza : Apart s z.1 := fun c _ => hzborder ▸ Shorthand.border_not_mem_scope c
      have hzs := (mem_foldBoxes_iff_of_apart hza).mp hz
      refine hnone z ((above_iff hrestores hwmem hplain hzs hza hfold).mpr hlt) ?_
      obtain ⟨m, e⟩ := z
      obtain rfl : m = Shorthand.border.name := hzborder
      obtain ⟨⟨k, f⟩, hkf, rfl⟩ := Entries.mem_names_iff.mp hbz
      obtain ⟨hmark, hend⟩ := hborder e hzs
      have hnames := names_spread_box_of_border hmark hend (by simpa [first] using hkf)
      obtain ⟨y, hy, rfl⟩ := Entries.mem_names_iff.mp (hnames ▸ hn)
      exact Entries.mem_names_of_mem (List.mem_flatMap.mpr ⟨_, hkf, hy⟩)
  · intro y hy hny
    rcases eq_or_apart_of_mem_names_settled hv hd hn hy hny with rfl | ⟨hys, hya, hny⟩
    · exact le_refl _
    · rw [← not_lt, ← above_iff hrestores hwmem hplain hys hya hfold]
      exact fun h => hnone y h hny

/-- **What expansion gives a side of a folded box.** -/
theorem mem_merge_of_yields {w : Text} {d : Declaration} (hv : sides? b s = some v)
    (hnw : (n, w) ∈ b.longhands.zip v) (h : Yields s b n w d) :
    (n, d) ∈ merge (foldBoxes s).1.rank (foldBoxes s).1.entries (settled (foldBoxes s).1) := by
  rcases h with ⟨x, hx, hd, hhighest⟩ | ⟨rfl, hnone⟩
  · obtain ⟨e, he, -⟩ := hrestores b v hv
    exact mem_merge_of_above hrestores hv he (List.of_mem_zip hnw).1 hx hd hhighest
  · exact mem_merge_of_not_above hrestores hborder hv hnw hnone

/-- **When expansion gives the same with and without the fold.**  The expansion succeeds after the fold
    if it does before, and it gives the same if and only if every side of a folded box is given before
    what it yields after. -/
theorem refolded_iff {t : Store} (ht : Edit.expandAll.after s = .ok t) :
    ∃ u, Edit.expandAll.after (foldBoxes s).1 = .ok u ∧
      ((∀ n, u.get? n = t.get? n) ↔
        ∀ b v, sides? b s = some v → ∀ e ∈ b.longhands.zip v, ∀ d,
          Yields s b e.1 e.2 d → t.get? e.1 = some d) := by
  obtain ⟨u, hu⟩ := exists_after_foldBoxes hrestores hborder ⟨t, ht⟩
  have hus := (after_expandAll _).1 u hu
  have hts := (after_expandAll s).1 t ht
  have htrim : ∀ {b : BoxShorthand} {v : Sides Text} {e}, e ∈ b.longhands.zip v →
      trimName e.1 = e.1 := fun {b} {_} {_} he => b.trimName_longhand _ (List.of_mem_zip he).1
  -- After the folds every side that was folded is what it yields.
  have hyields : ∀ b v, sides? b s = some v → ∀ e ∈ b.longhands.zip v, ∀ d,
      Yields s b e.1 e.2 d → u.get? e.1 = some d := fun b v hv e he d h => by
    rw [Store.get?_eq_some_iff (htrim he), hus]
    exact mem_merge_of_yields hrestores hborder hv he h
  refine ⟨u, hu, fun h b v hv e he d hd => h e.1 ▸ hyields b v hv e he d hd, fun h => ?_⟩
  have hsame : ∀ n, trimName n = n → u.get? n = t.get? n := by
    intro n hn
    by_cases hna : Apart s n
    · refine Option.ext fun d => ?_
      rw [Store.get?_eq_some_iff hn, Store.get?_eq_some_iff hn, hus, hts]
      exact mem_merge_foldBoxes_iff hrestores hna
    · -- A name of a folded box: the box itself is gone in both stores, and for a side the condition says it.
      simp only [Apart, not_forall, not_not] at hna
      obtain ⟨b, hb, hnb⟩ := hna
      obtain ⟨v, hv⟩ := Option.isSome_iff_exists.mp hb
      rcases List.mem_cons.mp hnb with rfl | hnl
      · have hnot : ∀ {r r' : Store}, Edit.expandAll.after r = .ok r' → r'.get? b.name = none :=
          fun hr => by
            rw [Store.get?, b.trimName_name]
            exact Entries.find?_eq_none_iff.mpr (not_mem_of_after hr b)
        rw [hnot hu, hnot ht]
      · obtain ⟨w, hw⟩ : ∃ w, (n, w) ∈ b.longhands.zip v := by
          simp only [Sides.toList, List.mem_cons, List.not_mem_nil, or_false] at hnl
          rcases hnl with rfl | rfl | rfl | rfl
          · exact ⟨v.top, by simp [Sides.zip, Sides.toList]⟩
          · exact ⟨v.right, by simp [Sides.zip, Sides.toList]⟩
          · exact ⟨v.bottom, by simp [Sides.zip, Sides.toList]⟩
          · exact ⟨v.left, by simp [Sides.zip, Sides.toList]⟩
        obtain ⟨d, hd⟩ := exists_yields s b n w
        rw [hyields b v hv _ hw d hd, h b v hv _ hw d hd]
  intro n
  have := hsame (trimName n) (trimName_idem n)
  simpa [Store.get?, trimName_idem] using this

end

end Folding

end CssShorthand
