/-
  FONTS ARE FOLDED AND EXPANDED AGAIN.

  The six longhands of a font are folded into one value and read from it again.  A style, a variant and a
  weight are left out of the value if they are `normal`, and only if they are written so; but whatever
  stands for `normal`, in any case, is read as a style.  So the same is got back exactly if no variant and
  no weight is `normal` in another case (`refolded_font_iff`).

  The value is read again by the grammar of a font. The fields in front of the size are read greedily, and
  each is read as the first kind that accepts it; so `NORMAL`, which is not left out, is read as a style
  whatever it was written for. `SpellsNormal` is this condition on the values, and it is an exact one.
-/
import CssShorthand.Proofs.Folding.Available
import CssShorthand.Proofs.Folding.Others
import CssShorthand.Proofs.Font.Reading

namespace CssShorthand

open List

open Component (Spelled)

/-- Where entries are what is plainly declared, their values are all that is. -/
theorem Store.mapM_plain?_names {s : Store} {es : List (String × Text)}
    (h : ∀ e ∈ es, s.plain? e.1 = some e.2) : (es.map (·.1)).mapM s.plain? = some (es.map (·.2)) := by
  induction es with
  | nil => rfl
  | cons e es ih =>
    rw [map_cons, mapM_cons, h e mem_cons_self, ih fun e he => h e (mem_cons_of_mem _ he)]
    rfl

namespace Folding

/-- A word without marks is declared as it is. -/
theorem AsIs.of_word {w : Text} (hne : w ≠ [])
    (h : ∀ c ∈ w, Text.isBlank c = false ∧ c ≠ '!' ∧ c ≠ ';') : AsIs w where
  mark hm := (h _ hm).2.1 rfl
  first := by
    obtain ⟨c, t, rfl⟩ := exists_cons_of_ne_nil hne
    exact ⟨c, t, rfl, (h c mem_cons_self).1⟩
  last := by
    obtain ⟨t, d, rfl⟩ := (eq_nil_or_concat w).resolve_left hne
    have hd := h d (by simp)
    exact ⟨t, d, by simp, hd.1, hd.2.2⟩

/-- The longhands of a font with these values. -/
def fontEntries (v : FontValues) (f : Text) : List (String × Text) :=
  fontLonghands.zip [v.style, v.variant, v.weight, v.size, v.lineHeight, f]

/-- A store that declares the six longhands of a font, none of them important: style, variant, weight,
    size and line height are single components of their kinds, written as they are read. -/
structure SomeFont (s : Store) (v : FontValues) (f : Text) : Prop where
  values : ∀ e ∈ fontEntries v f, s.get? e.1 = some ⟨e.2, false⟩
  style : ∃ d, Spelled v.style d ∧ d.isFontStyle = true
  variant : ∃ d, Spelled v.variant d ∧ d.isFontVariant = true
  weight : ∃ d, Spelled v.weight d ∧ d.isFontWeight = true
  size : ∃ d, Spelled v.size d ∧ d.isFontSize = true
  lineHeight : ∃ d, Spelled v.lineHeight d ∧ d.isLineHeight = true
  family : IsFamily f

end Folding

namespace OfFont

open Folding

variable {v : FontValues} {f : Text} {w : FontWords}

/-- The value of a longhand of a font is stored as it is. -/
theorem asIs_spelled {u : Text} {d : Component} (h : Spelled u d) (hd : Component.IsFontWord d) : AsIs u := by
  obtain ⟨hne, hchars⟩ := h.isMeasureChar hd
  refine .of_word hne fun c hc => ⟨Pattern.isBlank_of_isMeasureChar (hchars c hc), ?_, ?_⟩
  all_goals
    rintro rfl
    exact absurd (hchars _ hc) (by decide)

/-- A family is stored as it is, if it is closed and trimmed. -/
theorem asIs_family (h : IsFamily f) : AsIs f := by
  obtain ⟨hfirst, t, d, rfl, hd⟩ := Part.ends_of_collapse_eq h.ne_nil h.collapse_eq
  exact ⟨h.mark, hfirst, t, d, rfl, hd, fun hsemi => h.last (by simp [hsemi])⟩

/-- The text of a font is declared as it is. -/
theorem asIs_fontValue (h : OfFont v f w) : AsIs (fontValue v f) := by
  rw [h.fontValue_eq_joined]
  refine AsIs.joined (by simp) fun x hx => ?_
  rcases mem_append.mp hx with hx | hx
  · obtain ⟨y, hy, rfl⟩ := mem_map.mp hx
    obtain ⟨hspelled, hfont, -⟩ := h.of_mem_fieldsOf hy
    exact asIs_spelled hspelled hfont
  · simp only [mem_cons, not_mem_nil, or_false] at hx
    rcases hx with rfl | rfl
    · refine .of_word h.sizeText_ne_nil fun c hc => ?_
      rcases h.sizeText_chars c hc with hc | rfl
      · refine ⟨Pattern.isBlank_of_isMeasureChar hc, ?_, ?_⟩
        all_goals
          rintro rfl
          exact absurd hc (by decide)
      · decide
    · exact asIs_family h.family

/-- What a font is expanded into. -/
theorem expandValue_fontValue (h : OfFont v f w) : expandValue "font" (fontValue v f) =
    .ok (.longhands (fontEntries { FontValues.initial.setAll ((fieldsOf v w).map (·.2)) with
      size := v.size, lineHeight := v.lineHeight } f) []) := by
  have hwide : cssWideKeyword? (fontValue v f) = none := by
    rw [cssWideKeyword?, h.soleKeyword?_eq]
  have hown : expandValue "font" (fontValue v f) = Shorthand.font.expand (fontValue v f) := by
    rw [expandValue, show Shorthand.ofName? "font" = some .font from Shorthand.font.ofName?_name]
  rw [hown, Shorthand.expand, hwide]
  simp only [Shorthand.expandOwn, h.ofValue_eq]
  rfl

/-- All that is set before the size is declared as it is. -/
theorem asIs_setAll (h : OfFont v f w) (field : FontField) :
    AsIs (field.get (FontValues.initial.setAll ((fieldsOf v w).map (·.2)))) := by
  have hset : ∀ {u : FontValues} {x : Text} (g : FontField), (∀ field : FontField, AsIs (field.get u)) →
      AsIs x → ∀ field : FontField, AsIs (field.get (g.set x u)) := by
    intro u x g hu hx field
    by_cases hg : field = g
    · rwa [hg, FontField.get_set_self]
    · rw [FontField.get_set_of_ne hg]
      exact hu field
  have hsetWord : ∀ {u : FontValues} {x : Text} (g : FontField), (∀ field : FontField, AsIs (field.get u)) →
      AsIs x → ∀ field : FontField, AsIs (field.get (g.setWord x u)) := by
    intro u x g hu hx
    unfold FontField.setWord
    split_ifs
    · exact hu
    · exact hset .style hu hx
    · exact hset g hu hx
  have hnormal : AsIs normal := .of_plain (by decide) (all_eq_true.mp (by decide +kernel))
  rw [h.setAll_fieldsOf]
  refine hsetWord .weight (hsetWord .variant (hsetWord .style (fun field => ?_) ?_) ?_) ?_ field
  · cases field <;> exact hnormal
  · exact asIs_spelled h.style.1 (.of_isFontStyle h.style.2)
  · exact asIs_spelled h.variant.1 (.of_isFontVariant h.variant.2)
  · exact asIs_spelled h.weight.1 (.of_isFontWeight h.weight.2)

end OfFont

namespace Folding

variable {s : Store} {v u : FontValues} {f : Text}

/-- The values are the same if all their entries are. -/
theorem forall_mem_fontEntries_iff : (∀ e ∈ fontEntries u f, e ∈ fontEntries v f) ↔ u = v := by
  obtain ⟨_, _, _, _, _⟩ := u
  obtain ⟨_, _, _, _, _⟩ := v
  simp [fontEntries, fontLonghands, Shorthand.longhands, Shorthand.longhandOf]

/-- The text that is written for declared values that are not one keyword for every property. -/
theorem fontText?_of_values (hvalues : ∀ e ∈ fontEntries v f, s.get? e.1 = some ⟨e.2, false⟩)
    (hshared : sharedKeyword? [v.style, v.variant, v.weight, v.size, v.lineHeight, f] = none) :
    fontText? s = some (fontValue v f) := by
  have hplain : fontLonghands.mapM s.plain? = some [v.style, v.variant, v.weight, v.size, v.lineHeight, f] :=
    Store.mapM_plain?_names fun e he => Store.plain?_eq_some_iff.mpr (hvalues e he)
  rw [fontText?, hplain]
  simp only [hshared]
  rfl

namespace SomeFont

/-- That a store is such a store can be decided. -/
theorem of_decide (s : Store) (v : FontValues) (f : Text)
    (h : ((fontEntries v f).all (fun e => s.get? e.1 == some ⟨e.2, false⟩) &&
      [(v.style, Component.isFontStyle), (v.variant, Component.isFontVariant),
        (v.weight, Component.isFontWeight), (v.size, Component.isFontSize),
        (v.lineHeight, Component.isLineHeight)].all (fun x =>
          match Component.parse x.1 with
          | [d] => d.write == x.1 && x.2 d
          | _ => false) &&
      (!f.isEmpty && Component.writeList (Component.parse f) == f && Text.collapse f == f && !f.contains '!' &&
        f.getLast? != some ';' && f.head? != some '/')) = true) : SomeFont s v f := by
  simp only [Bool.and_eq_true, Bool.not_eq_true', beq_iff_eq, bne_iff_ne] at h
  obtain ⟨⟨hvalues, hwords⟩, ⟨⟨⟨⟨hne, hwrite⟩, hcollapse⟩, hmark⟩, hlast⟩, hfirst⟩ := h
  -- Each of the five values is parsed as one component, which is written back as it was.
  have hword : ∀ x ∈ [(v.style, Component.isFontStyle), (v.variant, Component.isFontVariant),
      (v.weight, Component.isFontWeight), (v.size, Component.isFontSize),
      (v.lineHeight, Component.isLineHeight)], ∃ d, Spelled x.1 d ∧ x.2 d = true := by
    intro x hx
    have hd := all_eq_true.mp hwords x hx
    split at hd
    · rename_i d hparse
      obtain ⟨hd, hp⟩ := Bool.and_eq_true_iff.mp hd
      exact ⟨d, ⟨hparse, beq_iff_eq.mp hd⟩, hp⟩
    · contradiction
  simp only [forall_mem_cons, not_mem_nil, false_imp_iff, implies_true, and_true] at hword
  obtain ⟨hstyle, hvariant, hweight, hsize, hheight⟩ := hword
  exact ⟨fun e he => beq_iff_eq.mp (all_eq_true.mp hvalues e he), hstyle, hvariant, hweight, hsize, hheight,
    isEmpty_eq_false_iff.mp hne, hwrite, hcollapse, by simpa using hmark, hlast, hfirst⟩

/-- Every font that is folded comes from values of the five longhands and a family. -/
theorem exists_ofFont (h : SomeFont s v f) : ∃ w, OfFont v f w := by
  obtain ⟨style, hstyle⟩ := h.style
  obtain ⟨variant, hvariant⟩ := h.variant
  obtain ⟨weight, hweight⟩ := h.weight
  obtain ⟨size, hsize⟩ := h.size
  obtain ⟨lineHeight, hlineHeight⟩ := h.lineHeight
  exact ⟨⟨style, variant, weight, size, lineHeight⟩, hstyle, hvariant, hweight, hsize, hlineHeight, h.family⟩

/-- What a store declares for a font. -/
theorem mem_fontEntries_iff (h : SomeFont s v f) {e : String × Text} : e ∈ fontEntries v f ↔
    e.1 ∈ fontLonghands ∧ s.get? e.1 = some ⟨e.2, false⟩ := by
  refine ⟨fun he => ⟨(of_mem_zip he).1, h.values e he⟩, fun ⟨hname, hget⟩ => ?_⟩
  have hnames : (fontEntries v f).map (·.1) = fontLonghands := rfl
  rw [← hnames] at hname
  obtain ⟨e', he', hname⟩ := mem_map.mp hname
  rw [← hname, h.values e' he'] at hget
  have hvalue : e'.2 = e.2 := congrArg Declaration.value (Option.some.inj hget)
  rwa [← Prod.ext hname hvalue]

/-- The text that is written for a font. -/
theorem fontText?_eq (h : SomeFont s v f) : fontText? s = some (fontValue v f) := by
  obtain ⟨w, hw⟩ := h.exists_ofFont
  have hletters : ∀ k ∈ fontStyles, Text.isHyphened (Text.ofString k) = true := by decide
  have hstyle := hw.style.1.mem_of_isKeywordOf hletters hw.style.2
  have hapart : ∀ k ∈ fontStyles, k ∉ cssWideKeywords := by decide
  exact fontText?_of_values h.values (by simp [sharedKeyword?, hapart _ hstyle])

end SomeFont

/-- **What a font of this store is expanded into**: what is read of the value that is written. -/
theorem SomeFont.exists_expand (h : SomeFont s v f) {w : FontWords} (hw : OfFont v f w)
    (hread : { FontValues.initial.setAll ((fieldsOf v w).map (·.2)) with
      size := v.size, lineHeight := v.lineHeight } = u) :
    ∃ t notices, (foldFont s).1.expand "font" = .ok (t, notices) ∧
      ∀ x, x ∈ t.entries ↔ (∃ e ∈ fontEntries u f, x = (e.1, ⟨e.2, false⟩)) ∨
        (x ∈ s.entries ∧ x.1 ≠ "font" ∧ x.1 ∉ fontLonghands) := by
  have hexpand : expandValue Shorthand.font.name (fontValue v f) = .ok (.longhands (fontEntries u f) []) := by
    rw [← hread]
    exact hw.expandValue_fontValue
  -- Whatever field a value was read for, it is stored as it is.
  have hasIs : ∀ e ∈ fontEntries u f, AsIs e.2 := by
    intro e he
    have hvalue := (of_mem_zip he).2
    simp only [← hread, mem_cons, not_mem_nil, or_false] at hvalue
    rcases hvalue with hvalue | hvalue | hvalue | hvalue | hvalue | hvalue <;> rw [hvalue]
    · exact hw.asIs_setAll .style
    · exact hw.asIs_setAll .variant
    · exact hw.asIs_setAll .weight
    · exact OfFont.asIs_spelled hw.size.1 (.of_isFontSize hw.size.2)
    · exact OfFont.asIs_spelled hw.lineHeight.1 (.of_isLineHeight hw.lineHeight.2)
    · exact OfFont.asIs_family hw.family
  have hfold : (foldFont s).1 = write fontLonghands Shorthand.font.name (fontValue v f) s := by
    rw [foldFont_eq, h.fontText?_eq]
    rfl
  obtain ⟨t, ht, hentries⟩ := mem_expand_write fontLonghands Shorthand.font.trimName_longhand
    hw.asIs_fontValue hexpand hasIs fun e he => Or.inr (of_mem_zip he).1
  exact ⟨t, _, hfold ▸ ht, hentries⟩

/-- What a store declares but for a font: the entries of its font, and what is none of them. -/
theorem SomeFont.mem_delete_iff (h : SomeFont s v f) {x : String × Declaration} :
    x ∈ (s.delete "font").entries ↔ (∃ e ∈ fontEntries v f, x = (e.1, ⟨e.2, false⟩)) ∨
      (x ∈ s.entries ∧ x.1 ≠ "font" ∧ x.1 ∉ fontLonghands) := by
  have hfont : "font" ∉ fontLonghands := by decide
  have htrim : trimName "font" = "font" := Shorthand.font.trimName_name
  rw [Store.delete, Entries.mem_erase_iff, htrim]
  constructor
  · rintro ⟨hx, hne⟩
    by_cases hname : x.1 ∈ fontLonghands
    · have hnames : (fontEntries v f).map (·.1) = fontLonghands := rfl
      obtain ⟨e, he, hname'⟩ := mem_map.mp (hnames ▸ hname)
      have hget := h.values e he
      rw [hname', Store.get?_of_mem hx] at hget
      exact Or.inl ⟨e, he, Prod.ext hname'.symm (Option.some.inj hget)⟩
    · exact Or.inr ⟨hx, hne, hname⟩
  · rintro (⟨e, he, rfl⟩ | ⟨hx, hne, -⟩)
    · obtain ⟨hname, hget⟩ := h.mem_fontEntries_iff.mp he
      exact ⟨(Store.get?_eq_some_iff (Shorthand.font.trimName_longhand _ hname)).mp hget,
        fun hfont' => hfont (hfont' ▸ hname)⟩
    · exact ⟨hx, hne⟩

/-- **A font is got back, if nothing in it is `normal` in another case.**  A store that declares the six
    longhands of a font, none of them important, is left with the same declarations by folding them and
    expanding them again, but for a font that it declared before, exactly if its variant and its weight are
    `normal` wherever they stand for it. -/
theorem refolded_font_iff (s : Store) (said : List Notice) (v : FontValues) (f : Text) (h : SomeFont s v f) :
    ∃ t said', (Edit.fold foldFont >>= fun _ => Edit.expandFont).exec ⟨s, said⟩ = (.ok (), ⟨t, said'⟩) ∧
      (t.entries ~ (s.delete "font").entries ↔ SpellsNormal v) := by
  obtain ⟨w, hw⟩ := h.exists_ofFont
  generalize hread : { FontValues.initial.setAll ((fieldsOf v w).map (·.2)) with
    size := v.size, lineHeight := v.lineHeight } = u
  obtain ⟨t, notices, ht, hentries⟩ := h.exists_expand hw hread
  refine ⟨t, _, Edit.exec_fold_expand (Prod.mk.eta (p := foldFont s)).symm ht said, ?_⟩
  have hread' : u = v ↔ SpellsNormal v := hread ▸ hw.setAll_fieldsOf_iff
  rw [← hread', ← forall_mem_fontEntries_iff (f := f)]
  constructor
  · intro hperm e he
    have hmem := hperm.mem_iff.mp ((hentries (e.1, ⟨e.2, false⟩)).mpr (Or.inl ⟨e, he, rfl⟩))
    exact h.mem_fontEntries_iff.mpr ⟨(of_mem_zip he).1, Store.get?_of_mem (Entries.mem_erase_iff.mp hmem).1⟩
  · intro hsame
    obtain rfl := forall_mem_fontEntries_iff.mp hsame
    exact (perm_ext_iff_of_nodup t.nodup_entries (s.delete "font").nodup_entries).mpr fun x =>
      (hentries x).trans h.mem_delete_iff.symm

/-- A store of these six longhands. -/
def fontStore (v : FontValues) (f : Text) : Store :=
  .ofList ((fontEntries v f).map fun e => (e.1, .text e.2))

/-- A font in which nothing is left out, with a style in capitals. -/
def slanted : FontValues :=
  ⟨"ITALIC".toList, "small-caps".toList, "700".toList, "12px".toList, "1.5".toList⟩

/-- Its family. -/
def openSans : Text := "\"Open Sans\", serif".toList

/-- A font with a keyword in capitals and a number for its weight, none of them `normal`: it is restored. -/
theorem slanted_refolded_font_iff : SomeFont (fontStore slanted openSans) slanted openSans ∧
    SpellsNormal slanted ∧
    ∃ t said', (Edit.fold foldFont >>= fun _ => Edit.expandFont).exec ⟨fontStore slanted openSans, []⟩ =
        (.ok (), ⟨t, said'⟩) ∧
      (t.entries ~ ((fontStore slanted openSans).delete "font").entries ↔ SpellsNormal slanted) := by
  have hsome := SomeFont.of_decide (fontStore slanted openSans) slanted openSans (by decide +kernel)
  exact ⟨hsome, by decide +kernel, refolded_font_iff _ [] slanted openSans hsome⟩

/-- An italic font with a variant in capitals. -/
def shouted : FontValues :=
  ⟨"italic".toList, "NORMAL".toList, "normal".toList, "12px".toList, "normal".toList⟩

/-- **A font need not be got back.**  The variant becomes the style. -/
theorem not_refolded_font :
    ¬∀ (s : Store) (said : List Notice) (v : FontValues) (f : Text), SomeFont s v f →
      ∃ t said', (Edit.fold foldFont >>= fun _ => Edit.expandFont).exec ⟨s, said⟩ = (.ok (), ⟨t, said'⟩) ∧
        ∀ e ∈ fontEntries v f, t.get? e.1 = some ⟨e.2, false⟩ := by
  intro h
  obtain ⟨t, said', hexec, hentries⟩ := h (fontStore shouted "serif".toList) [] shouted "serif".toList
    (SomeFont.of_decide _ _ _ (by decide +kernel))
  have hstyle : ((Edit.fold foldFont >>= fun _ => Edit.expandFont).exec
      ⟨fontStore shouted "serif".toList, []⟩).2.store.get? "font-style" = some ⟨"NORMAL".toList, false⟩ := by
    decide +kernel
  rw [hexec, hentries ("font-style", "italic".toList) (by decide +kernel)] at hstyle
  exact absurd hstyle (by decide)

end Folding

end CssShorthand
