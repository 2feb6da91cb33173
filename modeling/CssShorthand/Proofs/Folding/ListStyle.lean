/-
  LIST STYLES ARE FOLDED AND EXPANDED AGAIN.

  Type, position and image of a list style, at least two of them, are folded into one value and sliced
  again.  An image may have blanks in it, and between blanks it may say what is a type or a position:
  the same is got back exactly if no word of the image says what is not declared
  (`refolded_listStyle_iff`).  `none` is such a word: it is an image and a type.

  Two things can go wrong. A keyword may be found within the image, which has its words searched like any
  other text; and `none` may be taken for the one or the other. `SaysMore` is the condition under which one
  of them happens, stated on the values that are folded. It is decided by looking at the words of the image.
-/
import CssShorthand.Proofs.Folding.Available
import CssShorthand.Proofs.Slice.ListStyle

namespace CssShorthand

open List

namespace Folding

open CssShorthand.Part (listType listPosition listImage)
open Slices (OfListStyle)

/-- No part of a list style stands behind a slash. -/
theorem followsSlash_of_mem_listStyle {p : Part} (hp : p ∈ Part.listStyle) : p.followsSlash = false := by
  have hall : ∀ p ∈ Part.listStyle, p.followsSlash = false := by decide
  exact hall p hp

/-- What a part of a list style matches is declared as it is, if there are no marks in it. -/
theorem AsIs.of_listStyle {p : Part} (hp : p ∈ Part.listStyle) {v : Text} (h : Pattern.Matches p.pattern v)
    (hmark : '!' ∉ v) : AsIs v := by
  simp only [Part.listStyle_eq, mem_cons, not_mem_nil, or_false] at hp
  rcases hp with rfl | rfl | rfl
  · exact .of_keyword (Pattern.usesPlain_keyword (by decide +kernel)) (by decide) h
  · exact .of_keyword (Pattern.usesPlain_keyword (by decide +kernel)) (by decide) h
  · exact .of_image (Pattern.matches_image_of_listImage h) hmark

/-- A store of longhands of `list-style`, at least two of them and none important, each with a value that
    its part of a list style matches. -/
structure SomeListStyle (s : Store) : Prop where
  names : s.names ⊆ listStyleLonghands
  two : 2 ≤ s.size
  not_important : ∀ x ∈ s.entries, x.2.important = false
  matches_pattern : ∀ p ∈ Part.listStyle, ∀ d, s.get? ("list-style" ++ p.suffix) = some d →
    Pattern.Matches p.pattern d.value
  mark : ∀ x ∈ s.entries, '!' ∉ x.2.value

variable {s : Store} {v : Text}

namespace SomeListStyle

/-- That a store is such a store can be decided. -/
theorem of_decide (s : Store)
    (h : (s.names.all listStyleLonghands.contains && decide (2 ≤ s.size) &&
      s.entries.all (fun x => !x.2.important && !x.2.value.contains '!') &&
      Part.listStyle.all fun p => (s.get? ("list-style" ++ p.suffix)).all fun d =>
        (p.pattern.ends d.value).contains []) = true) : SomeListStyle s := by
  simp only [Bool.and_eq_true, all_eq_true, decide_eq_true_eq, contains_iff_mem, Bool.not_eq_true',
    Option.all_eq_true] at h
  obtain ⟨⟨⟨hnames, htwo⟩, hentries⟩, hmatches⟩ := h
  exact ⟨hnames, htwo, fun x hx => (hentries x hx).1,
    fun p hp d hd => Pattern.nil_mem_ends_iff.mp (hmatches p hp d hd),
    fun x hx hm => by simpa [hm] using (hentries x hx).2⟩

/-- The three values. -/
theorem ofListStyle (h : SomeListStyle s) : OfListStyle (s.plain? "list-style-type")
    (s.plain? "list-style-position") (s.plain? "list-style-image") where
  type _ hu := h.matches_pattern listType (by simp [Part.listStyle_eq]) _ (Store.plain?_eq_some_iff.mp hu)
  position _ hu := h.matches_pattern listPosition (by simp [Part.listStyle_eq]) _ (Store.plain?_eq_some_iff.mp hu)
  image _ hu := h.matches_pattern listImage (by simp [Part.listStyle_eq]) _ (Store.plain?_eq_some_iff.mp hu)

/-- A list style that is folded has two longhands or more. -/
theorem length_plainEntries (h : SomeListStyle s) : 2 ≤ (s.plainEntries listStyleLonghands).length :=
  h.two.trans (Store.size_le_length_plainEntries h.names h.not_important)

/-- The values in the order in which they are joined. -/
theorem values_eq (s : Store) : (s.plainEntries listStyleLonghands).map (·.2) =
    (s.plain? "list-style-type").toList ++ ((s.plain? "list-style-position").toList ++
      (s.plain? "list-style-image").toList) := by
  simp only [listStyleLonghands, Store.map_plainEntries_cons]
  simp [Store.plainEntries]

/-- The image is not alone. -/
theorem type_or_position (h : SomeListStyle s) : s.plain? "list-style-type" = none →
    s.plain? "list-style-position" ≠ none := by
  intro htype hposition
  have hlength := h.length_plainEntries
  rw [← length_map (f := fun x : String × Text => x.2), values_eq, htype, hposition] at hlength
  exact absurd hlength (by cases s.plain? "list-style-image" <;> simp)

/-- The first of the values is a type or a position. -/
theorem exists_first (h : SomeListStyle s) : ∃ v vs, (s.plainEntries listStyleLonghands).map (·.2) = v :: vs ∧
    ∃ ks ∈ [listStyleTypes, listStylePositions], Pattern.Matches (.keyword ks) v := by
  rw [values_eq]
  cases htype : s.plain? "list-style-type" with
  | some v => exact ⟨v, _, rfl, listStyleTypes, by simp, h.ofListStyle.type v htype⟩
  | none =>
    obtain ⟨v, hposition⟩ := Option.ne_none_iff_exists'.mp (h.type_or_position htype)
    rw [hposition]
    exact ⟨v, _, rfl, listStylePositions, by simp, h.ofListStyle.position v hposition⟩

/-- The values of a list style are stored as they are. -/
theorem asIs_value (h : SomeListStyle s) : ∀ x ∈ s.plainEntries listStyleLonghands, AsIs x.2 := by
  have hpart : ∀ n ∈ listStyleLonghands, ∃ p ∈ Part.listStyle, "list-style" ++ p.suffix = n := by decide
  intro x hx
  obtain ⟨hname, hget⟩ := Store.mem_plainEntries_iff.mp hx
  obtain ⟨n, v⟩ := x
  obtain ⟨p, hp, rfl⟩ := hpart n hname
  have hmem := (Store.get?_eq_some_iff (Shorthand.listStyle.trimName_longhand _ hname)).mp hget
  exact .of_listStyle hp (h.matches_pattern p hp _ hget) (h.mark _ hmem)

/-- No type and no position is a keyword for every property. -/
theorem leads {ks : List String} (hks : ks ∈ [listStyleTypes, listStylePositions])
    (hv : Pattern.Matches (.keyword ks) v) : Leads v := by
  have hall : ∀ ks ∈ [listStyleTypes, listStylePositions], "" ∉ ks ∧
      (∀ k ∈ ks, Pattern.isName k.toList = true) ∧ ∀ k ∈ ks, ∀ k' ∈ cssWideKeywords,
        (Text.ofString k).map Text.foldCase ≠ (Text.ofString k').map Text.foldCase := by
    decide +kernel
  obtain ⟨hempty, hname, hapart⟩ := hall ks hks
  have hleads := Leads.of_name (Part.ne_nil_of_matches_keyword hempty hv)
    (hv.forall_mem (Pattern.usesName_keyword hname)) (Or.inl rfl) (Pattern.lower_not_mem_of_matches hapart hv)
  rwa [append_nil] at hleads

/-- **What a list style of this store is expanded into**: what is sliced from the joined values. -/
theorem exists_expand (h : SomeListStyle s) :
    ∃ slices t notices, slice (joined ((s.plainEntries listStyleLonghands).map (·.2))) Part.listStyle = slices ∧
      (foldListStyle s).1.expand "list-style" = .ok (t, notices) ∧
      ∀ x, x ∈ t.entries ↔
        ∃ e ∈ slices.entries Shorthand.listStyle.longhandOf, x = (e.1, ⟨e.2, false⟩) := by
  obtain ⟨v, vs, hvalues, ks, hks, hv⟩ := h.exists_first
  have hasIs : ∀ w ∈ v :: vs, AsIs w := fun w hw => by
    rw [← hvalues] at hw
    obtain ⟨x, hx, rfl⟩ := mem_map.mp hw
    exact h.asIs_value x hx
  have hall := Store.names_subset_plainEntries h.names h.not_important
  obtain ⟨t, hexpand, hentries⟩ := mem_expand_joined .listStyle (fun _ => rfl)
    Shorthand.listStyle.nodup_longhands Shorthand.listStyle.trimName_longhand
    (fun hm => absurd (h.names hm) (by decide)) h.length_plainEntries hvalues (leads hks hv) hasIs
    (fun e he => by
      obtain ⟨p, hp, -, hfound⟩ := Slices.found_of_mem_entries he
      have hmark : '!' ∉ e.2 := fun hm =>
        (hfound.mem_or_eq _ hm).elim (AsIs.joined (cons_ne_nil _ _) hasIs).mark (by decide)
      exact .of_listStyle hp (hfound.matches_pattern (followsSlash_of_mem_listStyle hp)) hmark)
    fun e _ => or_iff_not_imp_left.mpr fun hm => hall (not_not.mp hm)
  refine ⟨_, t, _, rfl, hexpand, fun x => (hentries x).trans ?_⟩
  rw [hvalues]
  exact or_iff_left fun hx => hx.2 (hall (Entries.mem_names_of_mem hx.1))

/-- What such a store declares is the plain values of the longhands. -/
theorem mem_entries_iff (h : SomeListStyle s) {x : String × Declaration} :
    x ∈ s.entries ↔ ∃ e ∈ s.plainEntries listStyleLonghands, x = (e.1, ⟨e.2, false⟩) := by
  constructor
  · intro hx
    have hplain := h.not_important x hx
    obtain ⟨n, v, i⟩ := x
    obtain rfl : i = false := hplain
    exact ⟨(n, v), Store.mem_plainEntries_iff.mpr
      ⟨h.names (Entries.mem_names_of_mem hx), Store.get?_of_mem hx⟩, rfl⟩
  · rintro ⟨e, he, rfl⟩
    obtain ⟨hname, hget⟩ := Store.mem_plainEntries_iff.mp he
    exact (Store.get?_eq_some_iff (Shorthand.listStyle.trimName_longhand _ hname)).mp hget

end SomeListStyle

/-- The image of a list style says what is not declared: between its blanks stands a type, and none is
    declared, or a position, and none is declared. -/
def SaysMore (s : Store) : Prop :=
  ∃ image ∈ s.plain? "list-style-image", ∃ w ∈ Text.words image,
    s.plain? "list-style-type" = none ∧ Pattern.Matches (.keyword listStyleTypes) w ∨
    s.plain? "list-style-position" = none ∧ Pattern.Matches (.keyword listStylePositions) w

/-- **A list style is got back, if its image says no more than an image.**  A store of longhands of
    `list-style`, at least two of them and none important, is left with the same declarations by folding
    them and expanding them again exactly if no word of the image says a type or a position that is not
    declared. -/
theorem refolded_listStyle_iff (s : Store) (said : List Notice) (h : SomeListStyle s) :
    ∃ t said', (Edit.fold foldListStyle >>= fun _ => Edit.expandListStyle).exec ⟨s, said⟩ =
        (.ok (), ⟨t, said'⟩) ∧
      (t.entries ~ s.entries ↔ ¬SaysMore s) := by
  obtain ⟨slices, t, notices, hslice, hexpand, hentries⟩ := h.exists_expand
  rw [SomeListStyle.values_eq] at hslice
  refine ⟨t, _, Edit.exec_fold_expand (Prod.mk.eta (p := foldListStyle s)).symm hexpand said, ?_⟩
  have hof := h.ofListStyle
  constructor
  · -- A longhand that was not declared is declared now.
    rintro hperm ⟨image, himage, w, hw, hmore⟩
    have hdeclared : ∀ x ∈ Shorthand.listStyle.longhandOf, (slices.get? x.1).isSome = true →
        s.plain? x.2 ≠ none := by
      intro x hx hsome hnone
      obtain ⟨text, htext⟩ := Option.isSome_iff_exists.mp hsome
      have hmem := (hentries (x.2, ⟨text, false⟩)).mpr
        ⟨(x.2, text), Slices.mem_entries_iff.mpr ⟨x, hx, htext, rfl⟩, rfl⟩
      have hget := Store.get?_of_mem (hperm.mem_iff.mp hmem)
      rw [Store.plain?_eq_some_iff.mpr hget] at hnone
      contradiction
    rcases hmore with ⟨hnone, hm⟩ | ⟨hnone, hm⟩
    · exact hdeclared ("-type", "list-style-type") (by decide)
        (hslice ▸ OfListStyle.isSome_get?_type himage hw hm) hnone
    · have htype := Option.isSome_iff_ne_none.mpr fun htype => h.type_or_position htype hnone
      rw [hnone] at hof hslice
      exact hdeclared ("-position", "list-style-position") (by decide)
        (hslice ▸ hof.isSome_get?_position htype himage hw hm) hnone
  · intro hless
    obtain ⟨_, hslices, htype, hposition, himage, -⟩ := hof.slice_joined
      (fun hnone u hu w hw hm => hless ⟨u, hu, w, hw, Or.inl ⟨hnone, hm⟩⟩)
      (fun hnone u hu w hw hm => hless ⟨u, hu, w, hw, Or.inr ⟨hnone, hm⟩⟩)
    obtain rfl := hslice.symm.trans hslices
    have hsame : slices.entries Shorthand.listStyle.longhandOf = s.plainEntries listStyleLonghands :=
      Slices.entries_eq_plainEntries fun x hx => by
        simp only [Shorthand.longhandOf, mem_cons, not_mem_nil, or_false] at hx
        rcases hx with rfl | rfl | rfl
        · exact htype
        · exact hposition
        · exact himage
    refine (perm_ext_iff_of_nodup t.nodup_entries s.nodup_entries).mpr fun x => ?_
    rw [hentries, hsame, h.mem_entries_iff]

/-- A mark and an image with a word that is a mark. -/
def pictured : Store :=
  .ofList [("list-style-image", .text "url(\"my disc icon.png\")".toList),
    ("list-style-type", .text "circle".toList)]

/-- A url that holds the keyword of a type, beside a type of its own: the type is found at its own place, and
    the store is restored. -/
theorem pictured_refolded_listStyle_iff : SomeListStyle pictured ∧ ¬SaysMore pictured ∧
    ∃ t said', (Edit.fold foldListStyle >>= fun _ => Edit.expandListStyle).exec ⟨pictured, []⟩ =
        (.ok (), ⟨t, said'⟩) ∧
      (t.entries ~ pictured.entries ↔ ¬SaysMore pictured) := by
  have hsome := SomeListStyle.of_decide pictured (by decide +kernel)
  refine ⟨hsome, ?_, refolded_listStyle_iff pictured [] hsome⟩
  rintro ⟨image, himage, w, hw, ⟨hnone, -⟩ | ⟨-, hm⟩⟩
  · exact absurd hnone (by decide +kernel)
  · have hno : ∀ image ∈ pictured.plain? "list-style-image", ∀ w ∈ Text.words image,
        [] ∉ (Pattern.keyword listStylePositions).ends w := by
      decide +kernel
    exact hno image himage w hw (Pattern.nil_mem_ends_iff.mpr hm)

/-- The same image with a position. -/
def placed : Store :=
  .ofList [("list-style-image", .text "url(\"my disc icon.png\")".toList),
    ("list-style-position", .text "inside".toList)]

/-- **A list style need not be got back.**  The word in the image becomes the mark. -/
theorem not_refolded_listStyle :
    ¬∀ (s : Store) (said : List Notice), SomeListStyle s →
      ∃ t said', (Edit.fold foldListStyle >>= fun _ => Edit.expandListStyle).exec ⟨s, said⟩ =
          (.ok (), ⟨t, said'⟩) ∧ t.entries ~ s.entries := by
  intro h
  obtain ⟨t, said', hexec, hperm⟩ := h placed [] (SomeListStyle.of_decide placed (by decide +kernel))
  have hmark : "list-style-type" ∈
      ((Edit.fold foldListStyle >>= fun _ => Edit.expandListStyle).exec ⟨placed, []⟩).2.store.names := by
    decide +kernel
  have hnone : "list-style-type" ∉ placed.names := by decide +kernel
  rw [hexec] at hmark
  exact hnone ((hperm.map _).mem_iff.mp hmark)

end Folding

end CssShorthand
