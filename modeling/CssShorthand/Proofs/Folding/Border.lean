/-
  A WHOLE BORDER, FOLDED AND EXPANDED AGAIN.

  A store that declares the width, the style and the color of all four sides of a border, and nothing
  else (`WholeBorder`), folds to three boxes, and on to `border` if each of them has one value for all
  sides.  Either way expansion leads back to the twelve longhands: from the boxes by the rule of the
  four sides (`exists_quietly_boxes`), and from `border` to the boxes by slicing
  (`exists_quietly_border`).  Nothing is said on the way (`refolded_border`).

  The store may have the twelve longhands in any order, so the statements are about permutations of entries.
  Folding goes in two steps, and expansion goes back in two: from four sides to a box and from three boxes
  to the border. Each step is an edit that is quiet, that is, succeeds without notices; quiet edits compose.
-/
import CssShorthand.Proofs.Cascade.Fresh
import CssShorthand.Proofs.Folding.Meaning
import CssShorthand.Proofs.Folding.Others
import CssShorthand.Proofs.Slice.Joined

namespace CssShorthand

open List

/-! ## The values of a border are kept

  Each of the twelve values fits its part; then a box of four of them is read back, and a border of three of
  them.
-/

namespace Folding

variable {w c st : Text}

/-- A plain value that is its own and only part and no keyword for every property is kept. -/
theorem kept_of_plain (hplain : ∀ x ∈ w, Text.isPlain x = true) (hsplit : Component.split w = [w])
    (hwide : Text.toString (Text.lower w) ∉ cssWideKeywords) : Kept w where
  solid := by
    refine ⟨hsplit, Component.faultless_of_plain hplain ?_⟩
    rintro rfl
    revert hsplit
    decide +kernel
  mark h := absurd (hplain _ h) (by decide)
  semicolon h := absurd (hplain _ h) (by decide)
  trim := Text.trim_of_forall fun x hx => Text.isBlank_of_isPlain (hplain x hx)
  keyword k hk := by
    rw [cssWideKeyword?_eq_none hsplit hwide] at hk
    contradiction

/-- A width is kept. -/
theorem kept_of_width (h : Part.width.Fits w) : Kept w :=
  kept_of_plain h.isPlain_width h.split_eq h.width_not_cssWide

/-- A style is kept. -/
theorem kept_of_style (h : Part.style.Fits st) : Kept st :=
  kept_of_plain h.isPlain_style h.split_eq h.style_not_cssWide

/-- What stands in a color: plain characters, a hash sign, and what is written between the brackets of a
    call. -/
theorem not_mem_of_fits (h : Part.color.Fits c) {x : Char} (hx : x ∉ ['#', '(', ')'])
    (hplain : Text.isPlain x = false) (hwritten : Color.isWritten x = false) : x ∉ c := by
  simp only [mem_cons, not_mem_nil, or_false, not_or] at hx
  obtain ⟨hhash, hopen, hclose⟩ := hx
  intro hmem
  rcases Color.cases_of_fits h with hall | ⟨name, inside, rfl, hname, hinside⟩
  · have := (hall x hmem).resolve_left hhash
    rw [hplain] at this
    contradiction
  · rcases mem_append.mp hmem with hmem | hmem
    · have := hname x hmem
      rw [hplain] at this
      contradiction
    · rcases mem_cons.mp hmem with hmem | hmem
      · exact hopen hmem
      · rcases mem_append.mp hmem with hmem | hmem
        · have := hinside x hmem
          rw [hwritten] at this
          contradiction
        · exact hclose (mem_singleton.mp hmem)

/-- A color is kept; its commas and blanks are inside of one component. -/
theorem kept_of_color (h : Part.color.Fits c) : Kept c := by
  obtain ⟨-, -, -, -, -, -, -, -, hfault⟩ := Color.exists_parse h.isColor
  refine ⟨⟨h.split_eq, hfault⟩, not_mem_of_fits h (by decide) (by decide) (by decide),
    not_mem_of_fits h (by decide) (by decide) (by decide),
    Pattern.trim_of_matches_colorLike h.matches_pattern, fun k hk => ?_⟩
  rw [Color.cssWideKeyword?_eq_none h.isColor] at hk
  contradiction

end Folding

namespace Edit

/-- Expanding a shorthand that is not declared does nothing. -/
theorem quietly_expand_of_not_mem {s : Store} {n : String} (htrim : trimName n = n) (h : n ∉ s.names) :
    Quietly (expand n) s s :=
  quietly_attempt (f := (·.expand n)) (Store.expand_of_not_mem htrim h)

end Edit

namespace Folding

open BoxShorthand (scope)

/-- The entry that a box is written as. -/
def written (v : BoxShorthand → Sides Text) (b : BoxShorthand) : String × Declaration :=
  (b.name, ⟨joined (v b).minimal, false⟩)

/-- The entries of the sides of a box. -/
def sideEntries (v : BoxShorthand → Sides Text) (b : BoxShorthand) : Entries Declaration :=
  (b.longhands.zip (v b)).map fun e => (e.1, ⟨e.2, false⟩)

theorem names_sideEntries (v : BoxShorthand → Sides Text) (b : BoxShorthand) :
    (sideEntries v b).names = b.longhands.toList := rfl

section Boxes

variable {v : BoxShorthand → Sides Text} {s : Store} {b : BoxShorthand} {bs : List BoxShorthand}
  {rest : Entries Declaration}

/-- The names of a store that consists of written boxes and other declarations. -/
theorem mem_names_written_iff (hs : s.entries ~ bs.map (written v) ++ rest) {n : String} :
    n ∈ s.names ↔ (∃ c ∈ bs, n = c.name) ∨ n ∈ rest.names := by
  rw [Store.names, Entries.names, (hs.map _).mem_iff]
  simp only [map_append, mem_append, mem_map, written, Entries.names]
  refine or_congr ⟨?_, ?_⟩ Iff.rfl
  · rintro ⟨x, ⟨c, hc, rfl⟩, rfl⟩
    exact ⟨c, hc, rfl⟩
  · rintro ⟨c, hc, rfl⟩
    exact ⟨_, ⟨c, hc, rfl⟩, rfl⟩

/-- A box that is not written stays so. -/
theorem quietly_box_of_not_mem (hb : b ∉ bs) (hs : s.entries ~ bs.map (written v) ++ rest)
    (hrest : b.name ∉ rest.names) : Edit.Quietly (Edit.expand b.name) s s := by
  refine Edit.quietly_expand_of_not_mem b.trimName_name fun hmem => ?_
  rcases (mem_names_written_iff hs).mp hmem with ⟨c, hc, hname⟩ | hmem
  · have hbc : b = c := BoxShorthand.eq_of_mem_scope (n := b.name) mem_cons_self (hname ▸ mem_cons_self)
    exact hb (hbc ▸ hc)
  · exact hrest hmem

/-- A box that is written is expanded to its sides, and nothing is said. -/
theorem exists_quietly_box (hkept : ∀ w ∈ (v b).toList, Kept w)
    (hs : s.entries ~ (b :: bs).map (written v) ++ rest) (hrest : ∀ n ∈ b.scope, n ∉ rest.names) :
    ∃ t, Edit.Quietly (Edit.expand b.name) s t ∧
      t.entries ~ bs.map (written v) ++ (sideEntries v b ++ rest) := by
  have hspread : spread (written v b) = sideEntries v b := spread_joined hkept
  have hnew : ∀ n ∈ (spread (written v b)).names, n ∉ s.names := by
    intro n hn hmem
    rw [hspread, names_sideEntries] at hn
    rcases (mem_names_written_iff hs).mp hmem with ⟨c, -, rfl⟩ | hmem
    · exact BoxShorthand.name_not_mem_longhands c b hn
    · exact hrest n (mem_cons_of_mem _ hn) hmem
  obtain ⟨t, ht, hentries⟩ := Store.exists_expand_of_new (.box b) hs (expandValue_joined hkept) hnew
  refine ⟨t, Edit.quietly_attempt (f := (·.expand b.name)) ht, hentries.trans ?_⟩
  show spread (written v b) ++ (bs.map (written v) ++ rest) ~ _
  rw [hspread]
  exact perm_append_comm_assoc _ _ _

/-- **Boxes that are written are expanded to their sides**, and nothing is said. -/
theorem exists_quietly_boxes {p : BoxShorthand → Bool} (hkept : ∀ b, p b = true → ∀ w ∈ (v b).toList, Kept w)
    (hbs : bs.Nodup) (hs : s.entries ~ (bs.filter p).map (written v) ++ rest)
    (hrest : ∀ b ∈ bs, ∀ n ∈ b.scope, n ∉ rest.names) :
    ∃ t, Edit.Quietly (bs.forM fun b => Edit.expand b.name) s t ∧
      t.entries ~ (bs.filter p).flatMap (sideEntries v) ++ rest := by
  induction bs generalizing s rest with
  | nil => exact ⟨s, Edit.quietly_pure s, hs⟩
  | cons b bs ih =>
    obtain ⟨hb, hbs⟩ := nodup_cons.mp hbs
    cases hp : p b with
    | false =>
      rw [filter_cons_of_neg (by simp [hp])] at hs ⊢
      obtain ⟨t, ht, hentries⟩ := ih hbs hs fun c hc => hrest c (mem_cons_of_mem _ hc)
      have hskip := quietly_box_of_not_mem (fun hmem => hb (mem_of_mem_filter hmem)) hs
        (hrest b mem_cons_self _ mem_cons_self)
      exact ⟨t, Edit.Quietly.forM_cons (e := fun b : BoxShorthand => Edit.expand b.name) hskip ht,
        hentries⟩
    | true =>
      rw [filter_cons_of_pos hp] at hs ⊢
      obtain ⟨u, hfirst, hu⟩ := exists_quietly_box (hkept b hp) hs (hrest b mem_cons_self)
      obtain ⟨t, ht, htentries⟩ := ih hbs hu fun c hc n hn hmem => by
        rw [Entries.names_append, names_sideEntries] at hmem
        rcases mem_append.mp hmem with hmem | hmem
        -- a side of `b`, and no name belongs to two boxes
        · exact hb (BoxShorthand.eq_of_mem_scope hn (mem_cons_of_mem _ hmem) ▸ hc)
        · exact hrest c (mem_cons_of_mem _ hc) n hn hmem
      refine ⟨t, Edit.Quietly.forM_cons (e := fun b : BoxShorthand => Edit.expand b.name) hfirst ht,
        htentries.trans ?_⟩
      rw [flatMap_cons, append_assoc]
      exact perm_append_comm_assoc _ _ _

end Boxes

/-- **A border that is written is expanded to its boxes**, and nothing is said. -/
theorem exists_quietly_border {w st c : Text} (hw : Part.width.Fits w) (hst : Part.style.Fits st)
    (hc : Part.color.Fits c) {s : Store}
    (hs : s.entries ~ [(Shorthand.border.name, ⟨joined [w, st, c], false⟩)]) :
    ∃ t, Edit.Quietly (Edit.expand Shorthand.border.name) s t ∧
      t.entries ~ [("border-width", ⟨w, false⟩), ("border-color", ⟨c, false⟩),
        ("border-style", ⟨st, false⟩)] := by
  have hsolid : ∀ v ∈ [w, st, c], Component.Solid v := by
    simp [(kept_of_width hw).solid, (kept_of_style hst).solid, (kept_of_color hc).solid]
  have hwide : cssWideKeyword? (joined [w, st, c]) = none := by
    have hnone : Component.soleKeyword? (Component.significant
        (Component.parse (joined [w, st, c]))) = none :=
      Component.soleKeyword?_join hsolid (by simp)
    rw [cssWideKeyword?, hnone]
  -- Three solid words are no keyword, so they are sliced; each is found by its own part.
  have hexpand : expandValue Shorthand.border.name (joined [w, st, c]) =
      .ok (.longhands [("border-width", w), ("border-color", c), ("border-style", st)] []) := by
    have hslice : slice (joined [w, st, c]) (Shorthand.parts .border) =
        ⟨[("-width", w), ("-color", c), ("-style", st)], []⟩ := Part.slice_join hw hst hc
    rw [expandValue, Shorthand.ofName?_name]
    simp only [Shorthand.expand, hwide, Shorthand.expandOwn, Expansion.ofSlices, hslice]
    rfl
  have hspread : spread (Shorthand.border.name, ⟨joined [w, st, c], false⟩) =
      [("border-width", ⟨w, false⟩), ("border-color", ⟨c, false⟩), ("border-style", ⟨st, false⟩)] := by
    rw [spread_of_ok (x := (Shorthand.border.name, ⟨joined [w, st, c], false⟩)) hexpand]
    refine declarationsOf_of_asIs fun e he => ?_
    simp only [mem_cons, not_mem_nil, or_false] at he
    rcases he with rfl | rfl | rfl
    · exact (kept_of_width hw).asIs
    · exact (kept_of_color hc).asIs
    · exact (kept_of_style hst).asIs
  obtain ⟨t, ht, hentries⟩ := Store.exists_expand_of_new _ hs hexpand fun n hn hmem => by
    rw [hspread] at hn
    have hborder : n = Shorthand.border.name := by
      rw [Store.names, Entries.names, (hs.map _).mem_iff] at hmem
      simpa using hmem
    subst hborder
    revert hn
    simp only [Entries.names, map_cons, map_nil]
    decide
  refine ⟨t, Edit.quietly_attempt (f := (·.expand Shorthand.border.name)) ht, ?_⟩
  rwa [hspread, append_nil] at hentries

end Folding

/-! ## The whole border

  From the condition on the store to what is folded, and from there back.
-/

namespace BoxShorthand

/-- The boxes that `border` is made of. -/
def ofBorder : List BoxShorthand := [.borderColor, .borderStyle, .borderWidth]

/-- The part of a border that the sides of a box are. -/
def part? : BoxShorthand → Option Part
  | .borderColor => some .color
  | .borderStyle => some .style
  | .borderWidth => some .width
  | .margin | .padding => none

/-- The boxes of a border are those that a part of its pattern belongs to. -/
theorem mem_ofBorder_iff {b : BoxShorthand} : b ∈ ofBorder ↔ ∃ p, b.part? = some p := by
  cases b <;> simp [ofBorder, part?]

end BoxShorthand

namespace Folding

open BoxShorthand (scope ofBorder)

/-- The store declares widths, styles and colors for all sides of a border and nothing else, in any
    order, none of them important. -/
structure WholeBorder (s : Store) : Prop where
  perm_names : s.names ~ ofBorder.flatMap fun b => b.longhands.toList
  not_important : ∀ x ∈ s.entries, x.2.important = false
  fits : ∀ b p, BoxShorthand.part? b = some p → ∀ n ∈ b.longhands.toList, ∀ d,
    (n, d) ∈ s.entries → p.Fits d.value

namespace WholeBorder

variable {s : Store}

/-- A whole border holds the four longhands of each of its boxes. -/
theorem exists_mem (h : WholeBorder s) {b : BoxShorthand} (hb : b ∈ ofBorder) {n : String}
    (hn : n ∈ b.longhands.toList) : ∃ w, (n, ⟨w, false⟩) ∈ s.entries := by
  have hmem : n ∈ s.names := h.perm_names.mem_iff.mpr (mem_flatMap.mpr ⟨b, hb, hn⟩)
  obtain ⟨⟨m, w, i⟩, hx, rfl⟩ := Entries.mem_names_iff.mp hmem
  obtain rfl : i = false := h.not_important _ hx
  exact ⟨w, hx⟩

/-- The boxes have four sides each, and the store has nothing but these. -/
theorem exists_sides (h : WholeBorder s) :
    ∃ v : BoxShorthand → Sides Text, (∀ b ∈ ofBorder, sides? b s = some (v b)) ∧
      s.entries ~ ofBorder.flatMap (sideEntries v) := by
  have hbox : ∀ b, ∃ v : Sides Text, b ∈ ofBorder → sides? b s = some v := by
    intro b
    by_cases hb : b ∈ ofBorder
    · have hplain : ∀ n ∈ b.longhands.toList, ∃ w, s.plain? n = some w := fun n hn => by
        obtain ⟨w, hw⟩ := h.exists_mem hb hn
        exact ⟨w, Store.plain?_eq_some_iff.mpr (Store.get?_of_mem hw)⟩
      obtain ⟨top, ht⟩ := hplain b.longhands.top (by simp [Sides.toList])
      obtain ⟨right, hr⟩ := hplain b.longhands.right (by simp [Sides.toList])
      obtain ⟨bottom, hbottom⟩ := hplain b.longhands.bottom (by simp [Sides.toList])
      obtain ⟨left, hl⟩ := hplain b.longhands.left (by simp [Sides.toList])
      exact ⟨⟨top, right, bottom, left⟩, fun _ => sides?_eq_some_iff.mpr ⟨ht, hr, hbottom, hl⟩⟩
    · exact ⟨⟨[], [], [], []⟩, fun hmem => absurd hmem hb⟩
  -- The store holds the twelve longhands and nothing else, so its entries are a permutation of theirs.
  choose v hv using hbox
  refine ⟨v, hv, Store.perm_of_subset h.perm_names fun x hx => ?_⟩
  obtain ⟨b, hb, hx⟩ := mem_flatMap.mp hx
  obtain ⟨⟨n, w⟩, hnw, rfl⟩ := mem_map.mp hx
  have hn : n ∈ b.longhands.toList := (of_mem_zip hnw).1
  rw [← Store.get?_eq_some_iff (b.trimName_longhand n hn), ← Store.plain?_eq_some_iff]
  obtain ⟨ht, hr, hbottom, hl⟩ := sides?_eq_some_iff.mp (hv b hb)
  simp only [Sides.zip, Sides.toList, zip_cons_cons, zip_nil_right, mem_cons, not_mem_nil, or_false,
    Prod.mk.injEq] at hnw
  rcases hnw with ⟨rfl, rfl⟩ | ⟨rfl, rfl⟩ | ⟨rfl, rfl⟩ | ⟨rfl, rfl⟩
  · exact ht
  · exact hr
  · exact hbottom
  · exact hl

/-- The values of the border are kept. -/
theorem kept (h : WholeBorder s) {v : BoxShorthand → Sides Text}
    (hs : s.entries ~ ofBorder.flatMap (sideEntries v)) {b : BoxShorthand} (hb : b ∈ ofBorder) :
    ∃ p, b.part? = some p ∧ ∀ w ∈ (v b).toList, p.Fits w ∧ Kept w := by
  obtain ⟨p, hp⟩ := BoxShorthand.mem_ofBorder_iff.mp hb
  refine ⟨p, hp, fun w hw => ?_⟩
  -- Every value stands for one of the four longhands, whose value fits the part of its box.
  obtain ⟨n, hn⟩ : ∃ n, (n, w) ∈ b.longhands.zip (v b) := by
    simp only [Sides.toList, mem_cons, not_mem_nil, or_false] at hw
    rcases hw with rfl | rfl | rfl | rfl
    · exact ⟨b.longhands.top, by simp [Sides.zip, Sides.toList]⟩
    · exact ⟨b.longhands.right, by simp [Sides.zip, Sides.toList]⟩
    · exact ⟨b.longhands.bottom, by simp [Sides.zip, Sides.toList]⟩
    · exact ⟨b.longhands.left, by simp [Sides.zip, Sides.toList]⟩
  have hmem : (n, (⟨w, false⟩ : Declaration)) ∈ s.entries :=
    hs.mem_iff.mpr (mem_flatMap.mpr ⟨b, hb, mem_map.mpr ⟨_, hn, rfl⟩⟩)
  have hfits := h.fits b p hp n (of_mem_zip hn).1 _ hmem
  refine ⟨hfits, ?_⟩
  cases b with
  | borderColor =>
    obtain rfl : Part.color = p := Option.some.inj hp
    exact kept_of_color hfits
  | borderStyle =>
    obtain rfl : Part.style = p := Option.some.inj hp
    exact kept_of_style hfits
  | borderWidth =>
    obtain rfl : Part.width = p := Option.some.inj hp
    exact kept_of_width hfits
  | _ => contradiction

/-- **The fold of the boxes** leaves the three boxes of the border. -/
theorem perm_foldBoxes (h : WholeBorder s) {v : BoxShorthand → Sides Text}
    (hv : ∀ b ∈ ofBorder, sides? b s = some (v b))
    (hs : s.entries ~ ofBorder.flatMap (sideEntries v)) :
    (foldBoxes s).1.entries ~ ofBorder.map (written v) := by
  have hdeclared : ∀ n, n ∈ s.names → ∃ b ∈ ofBorder, n ∈ b.longhands.toList := fun n hn =>
    mem_flatMap.mp (h.perm_names.mem_iff.mp hn)
  have hfolds : ∀ b w, sides? b s = some w → b ∈ ofBorder := by
    intro b w hw
    have htop := Store.plain?_eq_some_iff.mp (sides?_eq_some_iff.mp hw).1
    have hmem : b.longhands.top ∈ b.longhands.toList := by simp [Sides.toList]
    rw [Store.get?_eq_some_iff (b.trimName_longhand _ hmem)] at htop
    obtain ⟨c, hc, hctop⟩ := hdeclared _ (Entries.mem_names_of_mem htop)
    have hbc : b = c :=
      BoxShorthand.eq_of_mem_scope (mem_cons_of_mem _ hmem) (mem_cons_of_mem _ hctop)
    exact hbc ▸ hc
  have htext : ∀ b ∈ ofBorder, Value.declarationOfText? (joined (v b).minimal) false =
      some ⟨joined (v b).minimal, false⟩ := fun b hb => by
    obtain ⟨p, -, hkept⟩ := h.kept hs hb
    exact (AsIs.joined (minimal_ne_nil _) fun w hw =>
      (hkept w (Sides.minimal_subset _ hw)).2.asIs).declarationOfText? false
  have hwritten : (ofBorder.map (written v)).Nodup :=
    Nodup.of_map (fun x : String × Declaration => x.1) (show (ofBorder.map BoxShorthand.name).Nodup by decide)
  refine (perm_ext_iff_of_nodup (foldBoxes s).1.nodup_entries hwritten).mpr fun x => ?_
  rw [mem_map]
  constructor
  · -- A declaration after the folds is apart from all that is folded, or it was written for one of the boxes;
    -- of the first kind there is none.
    intro hx
    rcases apart_or_written hx with hapart | ⟨b, w, hw, hname, hdeclared⟩
    · have hold := (mem_foldBoxes_iff_of_apart hapart).mp hx
      obtain ⟨b, hb, hn⟩ := hdeclared _ (Entries.mem_names_of_mem hold)
      exact absurd (mem_cons_of_mem _ hn) (hapart b (by simp [folds, hv b hb]))
    · have hb := hfolds b w hw
      obtain rfl : v b = w := Option.some.inj ((hv b hb).symm.trans hw)
      rw [htext b hb] at hdeclared
      exact ⟨b, hb, Prod.ext hname.symm (Option.some.inj hdeclared)⟩
  · rintro ⟨b, hb, rfl⟩
    exact (mem_foldBoxes_iff_of_folds (hv b hb) mem_cons_self).mpr ⟨rfl, htext b hb⟩

end WholeBorder

/-- A value of one side is single if it is that of all sides. -/
theorem exists_eq_of_isSingle {v : Sides Text} (h : ∀ w ∈ v.toList, Kept w)
    (hsingle : Component.isSingle (joined v.minimal) = true) :
    ∃ w ∈ v.toList, v = ⟨w, w, w, w⟩ ∧ joined v.minimal = w := by
  have hsplit : Component.split (joined v.minimal) = v.minimal :=
    Component.split_join fun w hw => (h w (Sides.minimal_subset _ hw)).solid
  rw [Component.isSingle, hsplit, beq_iff_eq] at hsingle
  obtain ⟨w, hw⟩ := length_eq_one_iff.mp hsingle
  refine ⟨w, Sides.minimal_subset v (by simp [hw]), eq_of_minimal_eq hw, ?_⟩
  rw [hw]
  simp [joined, Text.join]

section Written

variable {s : Store} {v : BoxShorthand → Sides Text} (hs : s.entries ~ ofBorder.map (written v))

include hs

/-- A whole border holds nothing but these longhands, none of them important. -/
theorem exists_box_of_mem {n : String} {d : Declaration} (h : (n, d) ∈ s.entries) :
    ∃ b ∈ ofBorder, n = b.name ∧ d.important = false := by
  obtain ⟨b, hb, hbd⟩ := mem_map.mp (hs.mem_iff.mp h)
  obtain ⟨rfl, rfl⟩ := Prod.mk.inj hbd
  exact ⟨b, hb, rfl, rfl⟩

/-- A box is read off the store as it was written. -/
theorem plain?_written {b : BoxShorthand} (hb : b ∈ ofBorder) :
    s.plain? b.name = some (joined (v b).minimal) :=
  Store.plain?_eq_some_iff.mpr (Store.get?_of_mem (hs.mem_iff.mpr (mem_map.mpr ⟨b, hb, rfl⟩)))

/-- No box is important, so that nothing is said of any. -/
theorem snd_foldBorder : (foldBorder s).2 = [] := by
  have hsnd : (foldBorder s).2 = (allOf s borderBoxes "border").2 := by
    unfold foldBorder
    split
    · rename_i hall
      rw [hall]
      dsimp only
      split <;> rfl
    · rename_i hall
      rw [hall]
  rw [hsnd]
  refine allOf_snd_eq_nil "border" fun n hn d hd => ?_
  obtain ⟨-, -, -, hplain⟩ := exists_box_of_mem hs ((Store.get?_eq_some_iff (trimName_borderBoxes n hn)).mp hd)
  exact hplain

/-- The boxes are folded if the value of each is single, and no keyword that every property takes. -/
theorem borderText?_written {w st c : Text} (hw : joined (v .borderWidth).minimal = w)
    (hst : joined (v .borderStyle).minimal = st) (hc : joined (v .borderColor).minimal = c)
    (hsingle : ∀ b ∈ ofBorder, Component.isSingle (joined (v b).minimal) = true)
    (hwide : Text.toString (Text.lower w) ∉ cssWideKeywords) : borderText? s = some (joined [w, st, c]) := by
  have hshared : sharedKeyword? [w, st, c] = none := by simp [sharedKeyword?, hwide]
  have hsw := hsingle .borderWidth (by decide)
  have hss := hsingle .borderStyle (by decide)
  have hsc := hsingle .borderColor (by decide)
  have hwidth : s.plain? "border-width" = _ := plain?_written hs (b := .borderWidth) (by decide)
  have hstyle : s.plain? "border-style" = _ := plain?_written hs (b := .borderStyle) (by decide)
  have hcolor : s.plain? "border-color" = _ := plain?_written hs (b := .borderColor) (by decide)
  rw [hw] at hsw
  rw [hst] at hss
  rw [hc] at hsc
  rw [borderText?, hwidth, hstyle, hcolor, hw, hst, hc]
  simp [hsw, hss, hsc, hshared]

/-- If the value of one box is not single, they are not folded. -/
theorem borderText?_eq_none (h : ¬∀ b ∈ ofBorder, Component.isSingle (joined (v b).minimal) = true) :
    borderText? s = none := by
  have hwidth : s.plain? "border-width" = _ := plain?_written hs (b := .borderWidth) (by decide)
  have hstyle : s.plain? "border-style" = _ := plain?_written hs (b := .borderStyle) (by decide)
  have hcolor : s.plain? "border-color" = _ := plain?_written hs (b := .borderColor) (by decide)
  rw [borderText?, hwidth, hstyle, hcolor]
  dsimp only
  rw [if_neg]
  intro hall
  simp only [all_cons, all_nil, Bool.and_true, Bool.and_eq_true] at hall
  refine h fun b hb => ?_
  simp only [ofBorder, mem_cons, not_mem_nil, or_false] at hb
  rcases hb with rfl | rfl | rfl
  · exact hall.2.2
  · exact hall.2.1
  · exact hall.1

/-- Once the boxes are folded `border` alone is left. -/
theorem perm_write_border {text : Text} (htext : Value.declarationOfText? text false = some ⟨text, false⟩) :
    (write borderBoxes "border" text s).entries ~ [(Shorthand.border.name, ⟨text, false⟩)] := by
  refine (perm_ext_iff_of_nodup (Store.nodup_entries _) (nodup_singleton _)).mpr fun x => ?_
  refine (mem_write_iff trimName_borderBoxes Shorthand.border.trimName_name htext).trans ?_
  rw [mem_singleton]
  refine or_iff_left fun ⟨hx, _, hbox⟩ => hbox ?_
  obtain ⟨b, hb, hname, -⟩ := exists_box_of_mem hs hx
  exact hname ▸ (by decide : ∀ b ∈ ofBorder, b.name ∈ borderBoxes) b hb

end Written

/-- **The fold of the border** leaves the three boxes, or `border` if each has one value for all
    sides. -/
theorem foldBorder_cases {s : Store} {v : BoxShorthand → Sides Text}
    (hkept : ∀ b ∈ ofBorder, ∃ p, b.part? = some p ∧ ∀ w ∈ (v b).toList, p.Fits w ∧ Kept w)
    (hs : s.entries ~ ofBorder.map (written v)) :
    foldBorder s = (s, []) ∨ ∃ w st c t, Part.width.Fits w ∧ Part.style.Fits st ∧ Part.color.Fits c ∧
      v .borderWidth = ⟨w, w, w, w⟩ ∧ v .borderStyle = ⟨st, st, st, st⟩ ∧
      v .borderColor = ⟨c, c, c, c⟩ ∧ foldBorder s = (t, []) ∧
      t.entries ~ [(Shorthand.border.name, ⟨joined [w, st, c], false⟩)] := by
  have hfold := foldBorder_eq s
  -- A border is written if each box is a single component, that is, if its four sides are equal.
  by_cases hsingle : ∀ b ∈ ofBorder, Component.isSingle (joined (v b).minimal) = true
  · have hsame : ∀ b ∈ ofBorder, ∃ w p, b.part? = some p ∧ p.Fits w ∧ Kept w ∧
        v b = ⟨w, w, w, w⟩ ∧ joined (v b).minimal = w := by
      intro b hb
      obtain ⟨p, hp, hall⟩ := hkept b hb
      obtain ⟨w, hw, hsame, hjoined⟩ := exists_eq_of_isSingle (fun w hw => (hall w hw).2) (hsingle b hb)
      exact ⟨w, p, hp, (hall w hw).1, (hall w hw).2, hsame, hjoined⟩
    obtain ⟨w, p, hp, hw, hwkept, hvw, hjw⟩ := hsame .borderWidth (by decide)
    obtain rfl : Part.width = p := Option.some.inj hp
    obtain ⟨st, p, hp, hst, hstkept, hvst, hjst⟩ := hsame .borderStyle (by decide)
    obtain rfl : Part.style = p := Option.some.inj hp
    obtain ⟨c, p, hp, hc, hckept, hvc, hjc⟩ := hsame .borderColor (by decide)
    obtain rfl : Part.color = p := Option.some.inj hp
    have hkeptall : ∀ u ∈ [w, st, c], Kept u := by simp [hwkept, hstkept, hckept]
    have htext := (AsIs.joined (by simp) fun u hu => (hkeptall u hu).asIs).declarationOfText? false
    rw [borderText?_written hs hjw hjst hjc hsingle hw.width_not_cssWide] at hfold
    exact Or.inr ⟨w, st, c, write borderBoxes "border" (joined [w, st, c]) s, hw, hst, hc, hvw, hvst, hvc,
      Prod.ext hfold (snd_foldBorder hs), perm_write_border hs htext⟩
  · rw [borderText?_eq_none hs hsingle] at hfold
    exact Or.inl (Prod.ext hfold (snd_foldBorder hs))

/-- What is declared in a store of such entries. -/
theorem not_mem_names {s : Store} {l : Entries Declaration} {n : String} (hs : s.entries ~ l)
    (hn : n ∉ l.names) : n ∉ s.names := by
  rwa [Store.names, Entries.names, (hs.map _).mem_iff]

/-- A fold that gives no notice is quiet as an edit. -/
theorem quietly_fold {f : Store → Result} {s t : Store} (h : f s = (t, [])) :
    Edit.Quietly (Edit.fold f) s t :=
  Edit.quietly_attempt (f := fun s => .ok (f s)) (congrArg Except.ok h)

/-- Of a border nothing is folded but boxes and `border`. -/
theorem quietly_foldAll {s t u : Store} (hs : ∀ n ∈ backgroundLonghands, n ∉ s.names)
    (hboxes : foldBoxes s = (t, [])) (hborder : foldBorder t = (u, []))
    (hu : ∀ n ∈ fontLonghands ++ listStyleLonghands, n ∉ u.names) : Edit.Quietly Edit.foldAll s u := by
  have hback : foldBackground s = (s, []) := by
    have hnone : ∀ n ∈ backgroundLonghands, s.get? n = none := fun n hn =>
      Store.get?_of_not_mem (trimName_backgroundLonghands n hn) (hs n hn)
    rw [foldBackground, hnone _ (by decide)]
    exact foldAvailable_of_none _ hnone
  have hfont : foldFont u = (u, []) := by
    have hnone : ∀ n ∈ fontLonghands, u.get? n = none := fun n hn =>
      Store.get?_of_not_mem (Shorthand.font.trimName_longhand n hn) (hu n (mem_append_left _ hn))
    have hfirst : u.get? "font-style" = none := hnone _ (by decide)
    have hall : allOf u fontLonghands "font" = (none, []) := by
      unfold allOf
      rw [show fontLonghands = "font-style" :: fontLonghands.tail from rfl, mapM_cons, hfirst]
      rfl
    rw [foldFont, hall]
  have hlist : foldListStyle u = (u, []) := foldAvailable_of_none _ fun n hn =>
    Store.get?_of_not_mem (Shorthand.listStyle.trimName_longhand n hn) (hu n (mem_append_right _ hn))
  exact (quietly_fold hback).seq ((quietly_fold hboxes).seq ((quietly_fold hborder).seq
    ((quietly_fold hfont).seq (quietly_fold hlist))))

/-- **A whole border is expanded again** from the boxes or from `border`. -/
theorem exists_quietly_expandAll {s u : Store} {v : BoxShorthand → Sides Text}
    (hkept : ∀ b ∈ ofBorder, ∀ w ∈ (v b).toList, Kept w)
    (hborders : Edit.Quietly Edit.expandBorders s u) (hu : u.entries ~ ofBorder.map (written v)) :
    ∃ t, Edit.Quietly Edit.expandAll s t ∧ t.entries ~ ofBorder.flatMap (sideEntries v) := by
  have hfilter : BoxShorthand.all.filter (fun b => decide (b ∈ ofBorder)) = ofBorder := by decide
  have hwritten : u.entries ~
      (BoxShorthand.all.filter fun b => decide (b ∈ ofBorder)).map (written v) ++ [] := by
    rwa [hfilter, append_nil]
  obtain ⟨t, ht, hentries⟩ := exists_quietly_boxes
    (fun b hb => hkept b (of_decide_eq_true hb)) (by decide) hwritten
    fun _ _ _ _ h => by simp [Entries.names] at h
  rw [hfilter, append_nil] at hentries
  have hlate : ∀ sh : Shorthand, sh.name ∉ ofBorder.flatMap (fun b => b.longhands.toList) →
      Edit.Quietly (Edit.expand sh.name) t t := fun sh hsh =>
    Edit.quietly_expand_of_not_mem sh.trimName_name (not_mem_names hentries hsh)
  refine ⟨t, ?_, hentries⟩
  exact (hborders.seq (ht.transaction.seq ((hlate .font (by decide)).seq
    ((hlate .background (by decide)).seq (hlate .listStyle (by decide)))))).transaction

/-- **However far the fold of the border goes**, the expansion of borders leaves the three boxes. -/
theorem exists_quietly_expandBorders {s u : Store} {v : BoxShorthand → Sides Text}
    (hkept : ∀ b ∈ ofBorder, ∃ p, b.part? = some p ∧ ∀ w ∈ (v b).toList, p.Fits w ∧ Kept w)
    (hs : s.entries ~ ofBorder.map (written v)) (hfold : foldBorder s = (u, [])) :
    (∀ n ∈ fontLonghands ++ listStyleLonghands, n ∉ u.names) ∧
      ∃ u', Edit.Quietly Edit.expandBorders u u' ∧ u'.entries ~ ofBorder.map (written v) := by
  have hnone : ∀ {t : Store}, t.entries ~ ofBorder.map (written v) → ∀ sh ∈ Shorthand.borders,
      Edit.Quietly (Edit.expand sh.name) t t := fun ht sh hsh =>
    Edit.quietly_expand_of_not_mem sh.trimName_name (not_mem_names ht
      ((by decide : ∀ sh ∈ Shorthand.borders, sh.name ∉ ofBorder.map BoxShorthand.name) sh hsh))
  rcases foldBorder_cases hkept hs with hstay |
    ⟨w, st, c, t, hw, hst, hc, hvw, hvst, hvc, hwrite, ht⟩
  · -- The boxes are left, and `border` is not declared.
    obtain rfl : s = u := (Prod.mk.inj (hstay.symm.trans hfold)).1
    refine ⟨fun n hn => not_mem_names hs ((by decide : ∀ n ∈ fontLonghands ++ listStyleLonghands,
      n ∉ ofBorder.map BoxShorthand.name) n hn), s, ?_, hs⟩
    exact (Edit.quietly_forM fun sh hsh => hnone hs sh hsh).transaction
  · obtain rfl : t = u := (Prod.mk.inj (hwrite.symm.trans hfold)).1
    obtain ⟨u', hexpand, hu'⟩ := exists_quietly_border hw hst hc ht
    have hjoined : ∀ w : Text, joined (⟨w, w, w, w⟩ : Sides Text).minimal = w := fun w => by
      simp [Sides.minimal, joined, Text.join]
    have hperm : u'.entries ~ ofBorder.map (written v) := by
      refine hu'.trans ?_
      simp only [ofBorder, map_cons, map_nil, written, hvw, hvst, hvc, hjoined]
      exact (perm_append_singleton _ [_, _]).symm
    refine ⟨fun n hn => not_mem_names ht ((by decide : ∀ n ∈ fontLonghands ++ listStyleLonghands,
      n ∉ [Shorthand.border.name]) n hn), u', ?_, hperm⟩
    exact (Edit.Quietly.forM_cons (e := fun sh : Shorthand => Edit.expand sh.name) hexpand
      (Edit.quietly_forM fun sh hsh => hnone hperm sh (mem_cons_of_mem _ hsh))).transaction

/-- **Border folds and expands back through both levels.**  A store of the twelve longhands of a border,
    in any order and none of them important, is left with the same twelve declarations by folding and
    expanding all, whether or not the sides are the same, and nothing is said. -/
theorem refolded_border (s : Store) (said : List Notice) (h : WholeBorder s) :
    ∃ t, (Edit.foldAll >>= fun _ => Edit.expandAll).exec ⟨s, said⟩ = (.ok (), ⟨t, said⟩) ∧
      t.entries ~ s.entries := by
  obtain ⟨v, hv, hs⟩ := h.exists_sides
  have hparts : ∀ b ∈ ofBorder, _ := fun b hb => h.kept hs hb
  have hkept : ∀ b ∈ ofBorder, ∀ w ∈ (v b).toList, Kept w := fun b hb w hw => by
    obtain ⟨p, -, hall⟩ := hparts b hb
    exact (hall w hw).2
  have hlong : ∀ n ∈ backgroundLonghands, n ∉ s.names := fun n hn =>
    not_mem_names hs ((by decide : ∀ n ∈ backgroundLonghands,
      n ∉ ofBorder.flatMap fun b => b.longhands.toList) n hn)
  have hboxes := h.perm_foldBoxes hv hs
  have hsilent : foldBoxes s = ((foldBoxes s).1, []) := Prod.ext rfl <|
    foldBoxes_snd_eq_nil fun b n hn d hd =>
      h.not_important _ ((Store.get?_eq_some_iff (b.trimName_longhand n hn)).mp hd)
  have hborder : foldBorder (foldBoxes s).1 = ((foldBorder (foldBoxes s).1).1, []) :=
    Prod.ext rfl (snd_foldBorder hboxes)
  obtain ⟨hlate, u, hborders, hu⟩ := exists_quietly_expandBorders hparts hboxes hborder
  obtain ⟨t, ht, hentries⟩ := exists_quietly_expandAll hkept hborders hu
  have hfold := quietly_foldAll hlong hsilent hborder hlate
  exact ⟨t, hfold.seq ht said, hentries.trans hs.symm⟩

/-- A border with a color that has blanks in it, the same on all sides. -/
def framed : Store :=
  .ofList [("border-left-color", .text "rgb(1, 2, 3)".toList), ("border-top-width", .text "1px".toList),
    ("border-right-width", .text "1px".toList), ("border-bottom-width", .text "1px".toList),
    ("border-left-width", .text "1px".toList), ("border-top-style", .text "solid".toList),
    ("border-right-style", .text "solid".toList), ("border-bottom-style", .text "solid".toList),
    ("border-left-style", .text "solid".toList), ("border-top-color", .text "rgb(1, 2, 3)".toList),
    ("border-right-color", .text "rgb(1, 2, 3)".toList),
    ("border-bottom-color", .text "rgb(1, 2, 3)".toList)]

/-- A color that is a call, longhands in an order of their own: twelve declarations become a border and come
    back. -/
theorem framed_refolded : WholeBorder framed ∧
    ∃ t, (Edit.foldAll >>= fun _ => Edit.expandAll).exec ⟨framed, []⟩ = (.ok (), ⟨t, []⟩) ∧
      t.entries ~ framed.entries := by
  have hnames : framed.names ~ ofBorder.flatMap fun b => b.longhands.toList := by decide +kernel
  have hplain : ∀ x ∈ framed.entries, x.2.important = false := by decide +kernel
  have hall : ∀ b ∈ ofBorder, ∀ p ∈ b.part?.toList, ∀ x ∈ framed.entries, x.1 ∈ b.longhands.toList →
      [] ∈ p.pattern.ends x.2.value ∧ p.accepts x.2.value = true ∧
        Component.split x.2.value = [x.2.value] := by
    decide +kernel
  have hwhole : WholeBorder framed := ⟨hnames, hplain, fun b p hp n hn d hd => by
    obtain ⟨hmatch, haccepts, hsplit⟩ := hall b (BoxShorthand.mem_ofBorder_iff.mpr ⟨p, hp⟩) p
      (by simp [hp]) _ hd hn
    exact ⟨Pattern.nil_mem_ends_iff.mp hmatch, haccepts, hsplit⟩⟩
  exact ⟨hwhole, refolded_border framed [] hwhole⟩

end Folding

end CssShorthand
