/-
  THE TWO WAYS TO EXPAND A BORDER.

  `border` sets its parts of boxes, and each box sets its part of the four sides; the border of a side sets the
  parts of this side at once.

  1. What a value sets of a part (`part?`) is the same for `border` and for the border of a side
     (`mem_spread_iff_of_parts`).
  2. A box that gets it splits it into one part, which is parsed and written, and sets that on each side
     (`exists_spread_box`): the same is read of it but for white space (`ReadAs`).
  3. The sides of the boxes of `border` are the longhands of the borders of the sides (`exists_box_iff`).  So both
     ways set the same longhands, and no two sides set the same one (`mem_full_border`, `mem_full_side`).
  4. No declaration stands in the way of another on either way (`separate_border`, `separate_sides`), so that the
     stores hold all of this once they are expanded.

  The headline is `border_agrees_with_sides`.
-/
import CssShorthand.Proofs.Cascade.Failure
import CssShorthand.Proofs.Cascade.Separate
import CssShorthand.Proofs.Slice.Rewritten

namespace CssShorthand

open List

namespace Cascade

open Component (isWhitespace parse tidy)

variable {b : BoxShorthand} {c : Side} {d e : Declaration} {n suffix : String} {s t u : Store} {v w value : Text}

/-! ## What a value sets of a part

  One text for each part, the same for the border and for its sides.
-/

/-- What a value of `border`, or of the border of a side, sets of the part with this suffix. -/
def part? (value : Text) (suffix : String) : Option Text :=
  match cssWideKeyword? value with
  | some k => some k.toList
  | none => ((slice value Part.border).get? suffix).bind fun text =>
      (Value.declarationOfText? text false).map (·.value)

/-- **`border` and the borders of the sides set the same parts**, each under names of its own. -/
theorem mem_spread_iff_of_parts {sh : Shorthand} (hsh : sh = .border ∨ ∃ c, sh = .borderSide c) :
    (n, e) ∈ spread (sh.name, d) ↔
      ∃ suffix v, (suffix, n) ∈ sh.longhandOf ∧ part? d.value suffix = some v ∧ e = ⟨v, d.important⟩ := by
  cases hk : cssWideKeyword? d.value with
  | some k =>
    have hlonghands : sh.longhands = sh.longhandOf.map (·.2) := by rcases hsh with rfl | ⟨c, rfl⟩ <;> rfl
    have hpart : ∀ suffix, part? d.value suffix = some k.toList := fun suffix => by simp [part?, hk]
    -- A keyword goes to every longhand.
    rw [spread_of_keyword hk, hlonghands, map_map]
    constructor
    · intro h
      obtain ⟨⟨suffix, m⟩, hm, heq⟩ := mem_map.mp h
      obtain ⟨rfl, rfl⟩ := Prod.mk.inj heq
      exact ⟨suffix, k.toList, hm, hpart suffix, rfl⟩
    · rintro ⟨suffix, v, hm, hv, rfl⟩
      obtain rfl := Option.some.inj ((hpart suffix).symm.trans hv)
      exact mem_map.mpr ⟨(suffix, n), hm, rfl⟩
  | none =>
    have hexpand : expandValue sh.name d.value =
        .ok (.ofSlices sh.longhandOf (slice d.value Part.border)) := by
      simp only [expandValue, Shorthand.ofName?_name, Shorthand.expand, hk]
      rcases hsh with rfl | ⟨c, rfl⟩ <;> rfl
    have hpart : ∀ suffix, part? d.value suffix = ((slice d.value Part.border).get? suffix).bind fun text =>
        (Value.declarationOfText? text false).map (·.value) := fun suffix => by simp [part?, hk]
    -- (sh.name, d)) hexpand, Expansion.ofSlices, Expansion.entries] := Otherwise each longhand gets the part
    -- of its suffix, if it was found and is not empty once it is cleaned.
    rw [spread_of_ok (x := (sh.name, d)) hexpand, Expansion.ofSlices, Expansion.entries]
    constructor
    · intro h
      obtain ⟨⟨m, text⟩, hm, hdeclares⟩ := mem_filterMap.mp h
      obtain ⟨⟨suffix, m⟩, hsuffix, hget⟩ := mem_filterMap.mp hm
      obtain ⟨text, hfound, heq⟩ := Option.map_eq_some_iff.mp hget
      obtain ⟨rfl, rfl⟩ := Prod.mk.inj heq
      obtain ⟨e', he', heq⟩ := Option.map_eq_some_iff.mp hdeclares
      obtain ⟨rfl, rfl⟩ := Prod.mk.inj heq
      refine ⟨suffix, e'.value, hsuffix, ?_, rfl⟩
      rw [hpart, hfound]
      exact congrArg (Option.map (·.value)) he'
    · rintro ⟨suffix, v, hsuffix, hv, rfl⟩
      rw [hpart] at hv
      obtain ⟨text, hget, hdeclares⟩ := Option.bind_eq_some_iff.mp hv
      obtain ⟨e', he', rfl⟩ := Option.map_eq_some_iff.mp hdeclares
      refine mem_filterMap.mpr ⟨(n, text), mem_filterMap.mpr ⟨(suffix, n), hsuffix, by simp [hget]⟩, ?_⟩
      simp [he']

/-- **What a box gets of `border` is set on each side so that the same is read again**, but for white space. -/
theorem exists_spread_box (h : part? value suffix = some v) (b : BoxShorthand) (important : Bool) :
    ∃ w, ReadAs v w ∧
      spread (b.name, ⟨v, important⟩) = b.longhands.toList.map fun n => (n, ⟨w, important⟩) := by
  cases hk : cssWideKeyword? value with
  | some k =>
    -- The keyword goes to the box, and from there to the sides.
    obtain rfl : k.toList = v := by simpa [part?, hk] using h
    have hkeywords : ∀ k ∈ cssWideKeywords, cssWideKeyword? k.toList = some k := by decide +kernel
    have hagain := hkeywords k (cssWideKeyword?_eq_some_iff.mp hk).2
    refine ⟨k.toList, ?_, ?_⟩
    · obtain ⟨hplain, hne⟩ := isPlain_of_cssWide hk
      have hsolid := (Component.parse_of_plain hplain hne).1
      exact .of_forall (fun c hc => ⟨(hsolid c hc).isLeaf, (hsolid c hc).not_whitespace⟩) rfl
    · rw [show b.name = (Shorthand.box b).name from rfl, spread_of_keyword (d := ⟨k.toList, important⟩) hagain]
      rfl
  | none =>
    -- The part is what was found in the value, cleaned; the box splits it into a single one.
    simp only [part?, hk] at h
    obtain ⟨text, hget, hdeclares⟩ := Option.bind_eq_some_iff.mp h
    obtain ⟨l₁, l₂, hlookup, -⟩ := lookup_eq_some_iff.mp hget
    obtain ⟨p, hp, -, hfound⟩ := Slices.found_of_mem_takeParts (hlookup ▸ mem_append_right l₁ mem_cons_self)
    obtain ⟨e, he, rfl⟩ := Option.map_eq_some_iff.mp hdeclares
    unfold Value.declarationOfText? at he
    dsimp only at he
    split at he
    · contradiction
    · rename_i hne
      obtain rfl := Option.some.inj he
      obtain ⟨w, hw⟩ := Slices.exists_setAs hp hfound (by rintro rfl; exact hne (by decide +kernel))
      refine ⟨w, hw.toReadAs, ?_⟩
      have hspread := spread_of_single (b := b) (d := ⟨(Cleaning.clean text).1, important⟩) hw.split_eq hw.startsKept
        hw.keyword
      rwa [hw.clean_eq] at hspread

/-! ## The longhands of both ways

  The table: which longhand is which part of which side.
-/

/-- The sides of a box. -/
def sides : List Side := [.top, .right, .bottom, .left]

/-- There are four sides. -/
theorem mem_sides (c : Side) : c ∈ sides := by cases c <;> decide

/-- **The sides of the boxes of `border` are the longhands of its sides**, part by part. -/
theorem exists_box_iff :
    (∃ b : BoxShorthand, (suffix, b.name) ∈ Shorthand.border.longhandOf ∧ n ∈ b.longhands.toList) ↔
      ∃ c, (suffix, n) ∈ (Shorthand.borderSide c).longhandOf := by
  have hsides : ∀ b ∈ BoxShorthand.all, ∀ p ∈ Shorthand.border.longhandOf, b.name = p.2 →
      ∀ n ∈ b.longhands.toList, ∃ c ∈ sides, (p.1, n) ∈ (Shorthand.borderSide c).longhandOf := by decide
  have hboxes : ∀ c ∈ sides, ∀ p ∈ (Shorthand.borderSide c).longhandOf, ∃ b ∈ BoxShorthand.all,
      (p.1, b.name) ∈ Shorthand.border.longhandOf ∧ p.2 ∈ b.longhands.toList := by decide
  constructor
  · rintro ⟨b, hb, hn⟩
    obtain ⟨c, -, hc⟩ := hsides b (by cases b <;> decide) _ hb rfl n hn
    exact ⟨c, hc⟩
  · rintro ⟨c, hc⟩
    obtain ⟨b, -, hb⟩ := hboxes c (mem_sides c) _ hc
    exact ⟨b, hb⟩

/-- A longhand belongs to one part. -/
theorem suffix_unique {c' : Side} {suffix' : String} (h : (suffix, n) ∈ (Shorthand.borderSide c).longhandOf)
    (h' : (suffix', n) ∈ (Shorthand.borderSide c').longhandOf) : suffix = suffix' := by
  have hunique : ∀ c ∈ sides, ∀ c' ∈ sides, ∀ p ∈ (Shorthand.borderSide c).longhandOf,
      ∀ q ∈ (Shorthand.borderSide c').longhandOf, p.2 = q.2 → p.1 = q.1 := by decide
  exact hunique c (mem_sides c) c' (mem_sides c') _ h _ h' rfl

/-- What a border of a side spreads into. -/
theorem mem_full_side : (n, e) ∈ full ((Shorthand.borderSide c).name, d) ↔
    ∃ suffix v, (suffix, n) ∈ (Shorthand.borderSide c).longhandOf ∧ part? d.value suffix = some v ∧
      e = ⟨v, d.important⟩ := by
  have hfirst : first ((Shorthand.borderSide c).name, d) = [((Shorthand.borderSide c).name, d)] := by
    have hne : ∀ c ∈ sides, (Shorthand.borderSide c).name ≠ Shorthand.border.name := by decide
    exact (first_cases _).elim (·.2) fun h => absurd h.1 (hne c (mem_sides c))
  rw [full, hfirst, flatMap_singleton]
  exact mem_spread_iff_of_parts (Or.inr ⟨c, rfl⟩)

/-- What `border` spreads into on both levels: the sides of its boxes. -/
theorem mem_full_border : (n, e) ∈ full (Shorthand.border.name, d) ↔
    ∃ suffix v, part? d.value suffix = some v ∧ ∃ b : BoxShorthand,
      (suffix, b.name) ∈ Shorthand.border.longhandOf ∧ (n, e) ∈ spread (b.name, ⟨v, d.important⟩) := by
  have hfirst : first (Shorthand.border.name, d) = spread (Shorthand.border.name, d) := if_pos rfl
  rw [full, hfirst, mem_flatMap]
  constructor
  · rintro ⟨⟨m, x⟩, hm, hmem⟩
    obtain ⟨suffix, v, hsuffix, hv, rfl⟩ := (mem_spread_iff_of_parts (Or.inl rfl)).mp hm
    obtain ⟨b, rfl⟩ := Shorthand.exists_box_of_mem_longhands m (mem_map_of_mem hsuffix)
    exact ⟨suffix, v, hv, b, hsuffix, hmem⟩
  · rintro ⟨suffix, v, hv, b, hb, hmem⟩
    exact ⟨_, (mem_spread_iff_of_parts (Or.inl rfl)).mpr ⟨suffix, v, hb, hv, rfl⟩, hmem⟩

/-- **What `border` sets of a longhand** is what the border of its side sets, but for white space. -/
theorem exists_of_mem_full_border (h : (n, e) ∈ full (Shorthand.border.name, d)) :
    ∃ c v, (n, ⟨v, d.important⟩) ∈ full ((Shorthand.borderSide c).name, d) ∧
      e.important = d.important ∧ ReadAs v e.value := by
  obtain ⟨suffix, v, hv, b, hb, hmem⟩ := mem_full_border.mp h
  obtain ⟨w, hw, hspread⟩ := exists_spread_box hv b d.important
  rw [hspread] at hmem
  obtain ⟨m, hm, heq⟩ := mem_map.mp hmem
  obtain ⟨rfl, rfl⟩ := Prod.mk.inj heq
  obtain ⟨c, hc⟩ := exists_box_iff.mp ⟨b, hb, hm⟩
  exact ⟨c, v, mem_full_side.mpr ⟨suffix, v, hc, hv, rfl⟩, rfl, hw⟩

/-- What the border of a side sets `border` sets as well. -/
theorem exists_of_mem_full_side (h : (n, e) ∈ full ((Shorthand.borderSide c).name, d)) :
    ∃ e', (n, e') ∈ full (Shorthand.border.name, d) := by
  obtain ⟨suffix, v, hc, hv, -⟩ := mem_full_side.mp h
  obtain ⟨b, hb, hn⟩ := exists_box_iff.mpr ⟨c, hc⟩
  obtain ⟨w, -, hspread⟩ := exists_spread_box hv b d.important
  refine ⟨⟨w, d.important⟩, mem_full_border.mpr ⟨suffix, v, hv, b, hb, ?_⟩⟩
  rw [hspread]
  exact mem_map_of_mem hn

/-- The borders of two sides set the same of a longhand that both would set. -/
theorem eq_of_mem_full_side {c' : Side} {e' : Declaration} (h : (n, e) ∈ full ((Shorthand.borderSide c).name, d))
    (h' : (n, e') ∈ full ((Shorthand.borderSide c').name, d)) : e = e' := by
  obtain ⟨suffix, v, hc, hv, rfl⟩ := mem_full_side.mp h
  obtain ⟨suffix', v', hc', hv', rfl⟩ := mem_full_side.mp h'
  obtain rfl := suffix_unique hc hc'
  rw [Option.some.inj (hv.symm.trans hv')]

/-! ## Both ways from a store

  The two stores expanded, entry by entry.
-/

/-- A store of `border` and borders of sides can be expanded. -/
theorem Separate.exists_after_of_borders (h : Separate s)
    (hnames : ∀ x ∈ s.entries, x.1 = Shorthand.border.name ∨ ∃ c, x.1 = (Shorthand.borderSide c).name) :
    ∃ t, Edit.expandAll.after s = .ok t := by
  refine h.exists_after_iff.mpr fun x hx y hy sh _ hname => ?_
  by_contra hreads
  -- Only a box and a font may be unreadable, and on the first level no box that comes from `border` is.
  obtain ⟨rfl, hne⟩ := eq_of_not_reads hy hname hreads
  obtain ⟨n, e⟩ := y
  obtain ⟨c, rfl⟩ := (hnames _ hx).resolve_left hne
  rcases not_reads_iff.mp hreads with ⟨b, hb, -⟩ | ⟨hfont, -⟩ <;> contradiction

/-- A border by itself is separate. -/
theorem separate_border (hs : s.entries = [(Shorthand.border.name, d)]) : Separate s := by
  intro m hm n hn k _ _
  simp only [Store.names, hs, Entries.names, map_cons, map_nil, mem_singleton] at hm hn
  rw [hm, hn]

/-- The four sides are separate: each covers its own longhands. -/
theorem separate_sides (hu : u.entries ~ sides.map fun c => ((Shorthand.borderSide c).name, d)) : Separate u := by
  have hcover : ∀ c ∈ sides, ∀ c' ∈ sides, ∀ k ∈ Shorthand.cover (Shorthand.borderSide c).name,
      k ∈ Shorthand.cover (Shorthand.borderSide c').name → c = c' := by decide
  have hnames : ∀ n ∈ u.names, ∃ c, (Shorthand.borderSide c).name = n := by
    intro n hn
    obtain ⟨x, hx, rfl⟩ := Entries.mem_names_iff.mp hn
    obtain ⟨c, -, rfl⟩ := mem_map.mp (hu.mem_iff.mp hx)
    exact ⟨c, rfl⟩
  intro m hm n hn k hkm hkn
  obtain ⟨c, rfl⟩ := hnames m hm
  obtain ⟨c', rfl⟩ := hnames n hn
  rw [hcover c (mem_sides c) c' (mem_sides c') k hkm hkn]

/-- What a store of `border` alone leaves. -/
theorem mem_after_border (hs : s.entries = [(Shorthand.border.name, d)])
    (ht : Edit.expandAll.after s = .ok t) : (n, e) ∈ t.entries ↔ (n, e) ∈ full (Shorthand.border.name, d) := by
  rw [(separate_border hs).mem_after_iff ht, hs]
  simp

/-- What a store of the borders of all sides leaves. -/
theorem mem_after_sides (hu : u.entries ~ sides.map fun c => ((Shorthand.borderSide c).name, d))
    (ht : Edit.expandAll.after u = .ok t) :
    (n, e) ∈ t.entries ↔ ∃ c, (n, e) ∈ full ((Shorthand.borderSide c).name, d) := by
  rw [(separate_sides hu).mem_after_iff ht]
  constructor
  · rintro ⟨x, hx, hmem⟩
    obtain ⟨c, -, rfl⟩ := mem_map.mp (hu.mem_iff.mp hx)
    exact ⟨c, hmem⟩
  · rintro ⟨c, hmem⟩
    exact ⟨_, hu.mem_iff.mpr (mem_map_of_mem (mem_sides c)), hmem⟩

/-- **The two ways to expand a border agree.**  `border` alone, and the borders of all four sides with the same
    declaration, both expand, to the same longhands of the sides with the importance of the declaration; and what
    the values are parsed into is the same, once the borders of the sides have lost the white space that writing
    a single component does not keep. -/
theorem border_agrees_with_sides (hs : s.entries = [(Shorthand.border.name, d)])
    (hu : u.entries ~ sides.map fun c => ((Shorthand.borderSide c).name, d)) :
    ∃ t v, Edit.expandAll.after s = .ok t ∧ Edit.expandAll.after u = .ok v ∧
      (∀ n, n ∈ t.names ↔ n ∈ v.names) ∧ (∀ n ∈ t.names, ∃ c, n ∈ (Shorthand.borderSide c).longhands) ∧
      ∀ n a b, t.get? n = some a → v.get? n = some b →
        a.important = d.important ∧ b.important = d.important ∧ parse a.value = tidy (parse b.value) ∧
          ((∀ c ∈ parse b.value, parse c.write = [c]) →
            parse a.value = (parse b.value).rdropWhile isWhitespace) := by
  obtain ⟨t, ht⟩ := (separate_border hs).exists_after_of_borders fun x hx => Or.inl (by simp [hs] at hx; simp [hx])
  obtain ⟨v, hv⟩ := (separate_sides hu).exists_after_of_borders fun x hx => by
    obtain ⟨c, -, rfl⟩ := mem_map.mp (hu.mem_iff.mp hx)
    exact Or.inr ⟨c, rfl⟩
  refine ⟨t, v, ht, hv, fun n => ⟨fun hn => ?_, fun hn => ?_⟩, fun n hn => ?_, fun n a b ha hb => ?_⟩
  · obtain ⟨⟨n, e⟩, he, rfl⟩ := Entries.mem_names_iff.mp hn
    obtain ⟨c, w, hw, -⟩ := exists_of_mem_full_border ((mem_after_border hs ht).mp he)
    exact Entries.mem_names_iff.mpr ⟨_, (mem_after_sides hu hv).mpr ⟨c, hw⟩, rfl⟩
  · obtain ⟨⟨n, e⟩, he, rfl⟩ := Entries.mem_names_iff.mp hn
    obtain ⟨c, hc⟩ := (mem_after_sides hu hv).mp he
    obtain ⟨e', he'⟩ := exists_of_mem_full_side hc
    exact Entries.mem_names_iff.mpr ⟨_, (mem_after_border hs ht).mpr he', rfl⟩
  · obtain ⟨⟨n, e⟩, he, rfl⟩ := Entries.mem_names_iff.mp hn
    obtain ⟨c, w, hw, -⟩ := exists_of_mem_full_border ((mem_after_border hs ht).mp he)
    obtain ⟨suffix, -, hmem, -⟩ := mem_full_side.mp hw
    exact ⟨c, mem_map_of_mem hmem⟩
  · -- Of the two values one was read once more than the other: that of the border, which goes to its side
    -- first.
    obtain ⟨c, w, hw, hia, hread⟩ := exists_of_mem_full_border
      ((mem_after_border hs ht).mp ((Entries.find?_eq_some_iff t.nodup_names).mp ha))
    obtain ⟨c', hc'⟩ := (mem_after_sides hu hv).mp ((Entries.find?_eq_some_iff v.nodup_names).mp hb)
    obtain rfl := eq_of_mem_full_side hw hc'
    exact ⟨hia, rfl, hread.parse_eq, hread.parse_eq_rdropWhile⟩

/-- The store of `border` alone. -/
def byBorder (d : Declaration) : Store := .ofList [(Shorthand.border.name, .declaration d)]

/-- The store of the borders of all sides. -/
def bySides (d : Declaration) : Store :=
  .ofList (sides.map fun c => ((Shorthand.borderSide c).name, .declaration d))

/-- A border with a width, a style and a color in which a comment stands. -/
def outlined : Declaration := ⟨"2px solid rgb(1,/**/ 2, 3)".toList, true⟩

/-- An important border with a call that holds a comment and a blank: both stores set the same names, and the
    values agree once the trailing blanks are tidied. -/
theorem outlined_border_agrees_with_sides :
    (byBorder outlined).entries = [(Shorthand.border.name, outlined)] ∧
    ((bySides outlined).entries ~ sides.map fun c => ((Shorthand.borderSide c).name, outlined)) ∧
    ∃ t v, Edit.expandAll.after (byBorder outlined) = .ok t ∧ Edit.expandAll.after (bySides outlined) = .ok v ∧
      (∀ n, n ∈ t.names ↔ n ∈ v.names) ∧ (∀ n ∈ t.names, ∃ c, n ∈ (Shorthand.borderSide c).longhands) ∧
      ∀ n a b, t.get? n = some a → v.get? n = some b →
        a.important = true ∧ b.important = true ∧ parse a.value = tidy (parse b.value) ∧
          ((∀ c ∈ parse b.value, parse c.write = [c]) →
            parse a.value = (parse b.value).rdropWhile isWhitespace) := by
  have hs : (byBorder outlined).entries = [(Shorthand.border.name, outlined)] := by decide +kernel
  have hu : (bySides outlined).entries ~ sides.map fun c => ((Shorthand.borderSide c).name, outlined) :=
    .of_eq (by decide +kernel)
  exact ⟨hs, hu, border_agrees_with_sides hs hu⟩

/-- A border of a color alone, of which the comment holds a bracket: what is found ends with another comment, and
    there is a blank before it. -/
def bracketed : Declaration := ⟨"rgb(1,2,3/*(*/) /*)".toList, false⟩

/-- **The two ways do not agree in white space**, not even where each component is read again of its own text: the
    borders of the sides keep a blank behind a color that `border` drops. -/
theorem not_border_same_as_sides :
    ¬∀ (s u : Store) (d : Declaration), s.entries = [(Shorthand.border.name, d)] →
      (u.entries ~ sides.map fun c => ((Shorthand.borderSide c).name, d)) →
      ∃ t v, Edit.expandAll.after s = .ok t ∧ Edit.expandAll.after u = .ok v ∧
        (∀ n, n ∈ t.names ↔ n ∈ v.names) ∧ (∀ n ∈ t.names, ∃ c, n ∈ (Shorthand.borderSide c).longhands) ∧
        ∀ n a b, t.get? n = some a → v.get? n = some b →
          a.important = d.important ∧ b.important = d.important ∧
            ((∀ c ∈ parse b.value, parse c.write = [c]) → parse a.value = parse b.value) := by
  intro h
  obtain ⟨t, v, ht, hv, -, -, hsame⟩ := h (byBorder bracketed) (bySides bracketed) bracketed (by decide +kernel)
    (.of_eq (by decide +kernel))
  have hborder : (Edit.expandAll.after (byBorder bracketed)).toOption.bind (·.get? "border-top-color") =
      some ⟨"rgb(1,2,3)".toList, false⟩ := by decide +kernel
  have hsides : (Edit.expandAll.after (bySides bracketed)).toOption.bind (·.get? "border-top-color") =
      some bracketed := by decide +kernel
  rw [ht] at hborder
  rw [hv] at hsides
  have hcall : parse "rgb(1,2,3)".toList =
      [.function "rgb".toList [.number ['1'], .literal [','], .number ['2'], .literal [','], .number ['3']]] := by
    cbv
  -- The blank behind the call is not written again by the border, although each component by itself is read
  -- back.
  have hkept : parse bracketed.value =
      [.function "rgb".toList [.number ['1'], .literal [','], .number ['2'], .literal [','], .number ['3']],
        .whitespace [' ']] := by
    cbv
  have hagain : ∀ c ∈ parse bracketed.value, parse c.write = [c] := by
    rw [hkept]
    refine forall_mem_cons.mpr ⟨by cbv, forall_mem_singleton.mpr (by cbv)⟩
  have hparse := (hsame _ _ _ hborder hsides).2.2 hagain
  rw [hkept] at hparse
  exact absurd (congrArg length (hcall.symm.trans hparse)) (by decide)

end Cascade

end CssShorthand
