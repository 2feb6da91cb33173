/-
  A BACKGROUND IS FOLDED AND EXPANDED AGAIN.

  Color, image, repetition, position, size and attachment of a background are folded, as many of them as
  are declared and not important, and are got back from the value that they were joined to
  (`refolded_background`).  A size is folded behind a position: the initial one, if none is declared,
  and that is declared afterwards.

  The route: 1. what a value of each longhand may be (`SomeBackground`), as a condition that is computed for
  a given store. 2. The values that are joined are those of the longhands, the size with its slash in front
  and the position before it (`values_eq`). 3. Slicing the joined text gives them back (`exists_slices`,
  from `OfBackground.slice_joined`). 4. So expanding the folded store gives the longhands that were taken
  out, and the position if it was added (`mem_expand`); if there was too little to fold, the store is as it
  was.
-/
import CssShorthand.Proofs.Folding.Available
import CssShorthand.Proofs.Folding.Others
import CssShorthand.Proofs.Slice.Background

namespace CssShorthand

open List

namespace Folding

open CssShorthand.Part (backgroundImage attachment repetition backgroundPosition)
open Slices (OfBackground pieces)

/-! ## Values that are declared as they are

  Lists, slashes, colors and images are stored as they are sliced.
-/

namespace AsIs

variable {v : Text}

/-- A list of words is declared as it is. -/
theorem of_listOf {q : Pattern} {n : Nat} (hq : q.OfWords) (hchars : Pattern.Uses Pattern.IsMeasureChar q)
    (h : Pattern.Matches (.listOf n q) v) : AsIs v where
  mark hm := by
    have huses : Pattern.Uses (fun c => Pattern.IsMeasureChar c ∨ Text.isBlank c = true) (.listOf n q) :=
      Pattern.uses_listOf (hchars.mono fun _ => Or.inl) fun _ => Or.inr
    exact absurd (h.forall_mem huses '!' hm) (by decide)
  first := Part.exists_cons_of_matches_listOf hq h
  last := by
    obtain ⟨x, w, rfl, hw⟩ := Pattern.exists_append_of_matches_listOf h
    obtain ⟨y, d, rfl⟩ := (eq_nil_or_concat w).resolve_left (hq w hw).1
    have hd := hw.forall_mem hchars d (by simp)
    refine ⟨x ++ y, d, by simp, Pattern.isBlank_of_isMeasureChar hd, ?_⟩
    rintro rfl
    exact absurd hd (by decide)

/-- A value with a slash before it is declared as it is. -/
theorem slashed (h : AsIs v) : AsIs ('/' :: ' ' :: v) where
  mark := by simpa using h.mark
  first := ⟨'/', _, rfl, by decide⟩
  last := by
    obtain ⟨t, d, rfl, hd⟩ := h.last
    exact ⟨'/' :: ' ' :: t, d, rfl, hd⟩

/-- What may be a color is declared as it is, if there are no marks in it. -/
theorem of_colorLike (h : Pattern.Matches .colorLike v) (hmark : '!' ∉ v) : AsIs v where
  mark := hmark
  first := Part.isWord_color.starts v h
  last := by
    rcases Pattern.cases_of_matches_colorLike h with ⟨n, inside, rfl, -⟩ | ⟨digits, rfl, hdigits, -⟩ |
      ⟨hne, hchars⟩
    · exact ⟨n ++ '(' :: inside, ')', by simp, by decide, by decide⟩
    · rcases eq_nil_or_concat digits with rfl | ⟨t, d, rfl⟩
      · exact ⟨[], '#', rfl, by decide, by decide⟩
      · obtain ⟨x, e, hlast, he⟩ := Text.exists_concat_of_plain (by simp) hdigits
        exact ⟨'#' :: x, e, by rw [hlast]; rfl, he⟩
    · exact Text.exists_concat_of_plain hne fun c hc => (hchars c hc).1

/-- What a part of a background matches is declared as it is, if there are no marks in it. -/
theorem of_background {p : Part} (hp : p ∈ Part.background) (h : Pattern.Matches p.pattern v) (hmark : '!' ∉ v) :
    AsIs v := by
  simp only [Part.background_eq, mem_cons, not_mem_nil, or_false] at hp
  rcases hp with rfl | rfl | rfl | rfl | rfl | rfl
  · exact .of_image h hmark
  · exact .of_keyword Part.usesPlain_attachments (by decide) h
  · exact .of_listOf Part.ofWords_repeats (Part.usesPlain_repeats.mono fun _ => Or.inl) h
  · exact .of_colorLike h hmark
  · exact .of_listOf Part.ofWords_sizes (Pattern.uses_measure Part.usesPlain_sizes) h
  · exact .of_listOf Part.ofWords_positions (Pattern.uses_measure Part.usesPlain_positions) h

end AsIs

/-! ## The values that are folded

  What the store declares, what is joined, and the relation of the two.
-/

/-- A store without `background`, in which the longhands of `background` have values that their parts of a
    background match, without marks and comments. -/
structure SomeBackground (s : Store) : Prop where
  new : "background" ∉ s.names
  matches_pattern : ∀ p ∈ Part.background, ∀ d, s.get? ("background" ++ p.suffix) = some d →
    Pattern.Matches p.pattern d.value ∧ p.accepts d.value = true
  mark : ∀ p ∈ Part.background, ∀ d, s.get? ("background" ++ p.suffix) = some d →
    '!' ∉ d.value ∧ ¬['/', '*'] <:+: d.value

/-- That a store is such a store can be decided. -/
theorem SomeBackground.of_decide (s : Store)
    (h : (!s.names.contains "background" && Part.background.all fun p =>
      (s.get? ("background" ++ p.suffix)).all fun d => (p.pattern.ends d.value).contains [] &&
        p.accepts d.value && !d.value.contains '!' && !decide (['/', '*'] <:+: d.value)) = true) :
    SomeBackground s := by
  simp only [Bool.and_eq_true, all_eq_true, contains_iff_mem, Bool.not_eq_true', Option.all_eq_true,
    decide_eq_false_iff_not] at h
  obtain ⟨hnew, hall⟩ := h
  refine ⟨fun hm => by simp [hm] at hnew, fun p hp d hd => ?_, fun p hp d hd => ?_⟩
  · obtain ⟨⟨⟨hends, haccepts⟩, -⟩, -⟩ := hall p hp d hd
    exact ⟨Pattern.nil_mem_ends_iff.mp hends, haccepts⟩
  · obtain ⟨⟨-, hmark⟩, hcomment⟩ := hall p hp d hd
    exact ⟨fun hm => by simp [hm] at hmark, hcomment⟩

/-- The value of a longhand of `background` that is folded: before a size that is folded stands a
    position. -/
def foldedValue? (s : Store) (n : String) : Option Text :=
  if n ∈ backgroundNames s then
    if n = "background-position" ∧ (s.plain? "background-size").isSome ∧ s.get? n = none then
      some initialPosition
    else s.plain? n
  else none

/-- The part that is folded: the value, and before a size a slash. -/
def foldedPart? (s : Store) (n : String) : Option Text :=
  if n = "background-size" then Slices.slashed (foldedValue? s n) else foldedValue? s n

variable {s t : Store} {n : String} {u : Text}

/-- What the folded background says of a longhand: its own value, or the initial position when only the size
    was given. -/
theorem foldedValue?_eq_some : foldedValue? s n = some u ↔ n ∈ backgroundNames s ∧
    (s.get? n = some ⟨u, false⟩ ∨ n = "background-position" ∧ (s.plain? "background-size").isSome ∧
      s.get? n = none ∧ u = initialPosition) := by
  unfold foldedValue?
  split
  · rename_i hn
    simp only [hn, true_and]
    split
    · rename_i h
      obtain ⟨rfl, hsize, hnone⟩ := h
      simp [hsize, hnone, eq_comm]
    · rename_i h
      rw [Store.plain?_eq_some_iff]
      exact (or_iff_left fun ⟨hname, hsize, hnone, _⟩ => h ⟨hname, hsize, hnone⟩).symm
  · rename_i hn
    simp [hn]

/-- Every longhand takes part but the size, when an important position would have to stand before it. -/
theorem mem_backgroundNames_iff : n ∈ backgroundNames s ↔ n ∈ backgroundLonghands ∧
    ¬(n = "background-size" ∧ (s.plain? "background-size").isSome ∧ positionKept s = true) := by
  unfold backgroundNames
  by_cases hsize : (s.plain? "background-size").isSome = true ∧ positionKept s = true
  · simp [hsize]
  · rw [if_neg (by simpa using hsize)]
    simp [hsize]

/-- Before a size that is folded stands a position. -/
theorem isSome_foldedValue?_position (h : (foldedValue? s "background-size").isSome = true) :
    (foldedValue? s "background-position").isSome = true := by
  obtain ⟨size, hsize⟩ := Option.isSome_iff_exists.mp h
  obtain ⟨hmem, hget | ⟨hname, -⟩⟩ := foldedValue?_eq_some.mp hsize
  · have hplain := Store.plain?_eq_some_iff.mpr hget
    have hkept : positionKept s = false := by
      simpa [hplain] using (mem_backgroundNames_iff.mp hmem).2
    have hposition : "background-position" ∈ backgroundNames s :=
      mem_backgroundNames_iff.mpr ⟨by decide, fun h => absurd h.1 (by decide)⟩
    refine Option.isSome_iff_exists.mpr ?_
    cases hget' : s.get? "background-position" with
    | none => exact ⟨_, foldedValue?_eq_some.mpr ⟨hposition, Or.inr ⟨rfl, by simp [hplain], hget', rfl⟩⟩⟩
    | some d =>
      have hd : d.important = false := by simpa [positionKept, hget'] using hkept
      exact ⟨d.value, foldedValue?_eq_some.mpr ⟨hposition, Or.inl (by rw [hget', ← hd])⟩⟩
  · exact absurd hname (by decide)

namespace SomeBackground

/-- **The values that are folded** are those of a background. -/
theorem ofBackground (h : SomeBackground s) : OfBackground (foldedValue? s "background-color")
    (foldedValue? s "background-image") (foldedValue? s "background-repeat")
    (foldedValue? s "background-position") (foldedValue? s "background-size")
    (foldedValue? s "background-attachment") := by
  have hother : ∀ n u, n ≠ "background-position" → foldedValue? s n = some u → s.get? n = some ⟨u, false⟩ :=
    fun n u hn hu => (foldedValue?_eq_some.mp hu).2.resolve_right fun hposition => hn hposition.1
  refine ⟨fun u hu => ?_, fun u hu => ?_, fun u hu => ?_, fun u hu => ?_, fun u hu => ?_, fun u hu => ?_⟩
  · have hget := hother "background-color" u (by decide) hu
    obtain ⟨hm, hcolor⟩ := h.matches_pattern .color (by simp [Part.background_eq]) _ hget
    have hno := (h.mark .color (by simp [Part.background_eq]) _ hget).2
    exact ⟨hm, hcolor, Color.form_of_isColor hm hcolor hno⟩
  · exact (h.matches_pattern backgroundImage (by simp [Part.background_eq]) _
      (hother "background-image" u (by decide) hu)).1
  · exact (h.matches_pattern repetition (by simp [Part.background_eq]) _
      (hother "background-repeat" u (by decide) hu)).1
  · obtain ⟨-, hget | ⟨-, -, -, rfl⟩⟩ := foldedValue?_eq_some.mp hu
    · exact (h.matches_pattern backgroundPosition (by simp [Part.background_eq]) _ hget).1
    · exact Pattern.nil_mem_ends_iff.mp (by decide +kernel)
  · exact (h.matches_pattern .size (by simp [Part.background_eq]) _
      (hother "background-size" u (by decide) hu)).1
  · exact (h.matches_pattern attachment (by simp [Part.background_eq]) _
      (hother "background-attachment" u (by decide) hu)).1

/-- The values that are folded are declared as they are. -/
theorem asIs (h : SomeBackground s) (hu : foldedValue? s n = some u) : AsIs u := by
  have hpart : ∀ n ∈ backgroundLonghands, ∃ p ∈ Part.background, "background" ++ p.suffix = n := by decide
  obtain ⟨hn, hvalue⟩ := foldedValue?_eq_some.mp hu
  rcases hvalue with hget | ⟨-, -, -, rfl⟩
  · obtain ⟨p, hp, rfl⟩ := hpart n (backgroundNames_subset s hn)
    exact .of_background hp (h.matches_pattern p hp _ hget).1 (h.mark p hp _ hget).1
  · have hmatches : Pattern.Matches backgroundPosition.pattern initialPosition :=
      Pattern.nil_mem_ends_iff.mp (by decide +kernel)
    exact .of_background (by simp [Part.background_eq]) hmatches (by decide)

/-- The store from which the parts are taken has no `background` either. -/
theorem new_prepared (h : SomeBackground s) (ht : Prepared s t) : "background" ∉ t.names := by
  intro hm
  obtain ⟨⟨m, d⟩, hd, hname⟩ := Entries.mem_names_iff.mp hm
  obtain rfl : m = "background" := hname
  have hget := ht.get?_of_not_mem _ trimName_background fun hmem =>
    absurd (backgroundNames_subset s hmem) (by decide)
  rw [Store.get?_of_mem hd, Store.get?_of_not_mem trimName_background h.new] at hget
  contradiction

/-- A part as it is folded: the size with a slash before it. -/
theorem plain?_prepared (h : SomeBackground s) (ht : Prepared s t) (hn : n ∈ backgroundNames s) :
    t.plain? n = foldedPart? s n := by
  rw [ht.plain?_eq n hn, backgroundPart?, foldedPart?]
  split
  · rename_i hname
    subst hname
    have hfolded : foldedValue? s "background-size" = s.plain? "background-size" := by
      rw [foldedValue?, if_pos hn, if_neg fun h => absurd h.1 (by decide)]
    rw [hfolded]
    cases hsize : s.plain? "background-size" with
    | none => rfl
    | some u =>
      have hown : Text.toString (Text.lower u) ∉ cssWideKeywords := by
        cases h.ofBackground.size u (hfolded.trans hsize) with
        | seq hw _ =>
          exact (Pattern.leads_of_matches_measure Part.usesPlain_sizes (by decide) (by decide +kernel) hw).own
      have hshared : sharedKeyword? [u] = none := by simp [sharedKeyword?, hown]
      simp [slashed, hshared, Slices.slashed]
  · rw [foldedValue?, if_pos hn]

/-- The texts in the order in which they are joined. -/
theorem values_eq (h : SomeBackground s) (ht : Prepared s t) :
    (t.plainEntries (backgroundNames s)).map (·.2) = pieces (foldedValue? s "background-color")
      (foldedValue? s "background-image") (foldedValue? s "background-repeat")
      (foldedValue? s "background-position") (Slices.slashed (foldedValue? s "background-size"))
      (foldedValue? s "background-attachment") := by
  have hplain : (t.plainEntries (backgroundNames s)).map (·.2) =
      (backgroundNames s).filterMap (foldedPart? s) := by
    rw [Store.plainEntries, map_filterMap]
    exact filterMap_congr fun n hn => by simp [h.plain?_prepared ht hn]
  -- The size that is left out has no part.
  have hall : (backgroundNames s).filterMap (foldedPart? s) =
      backgroundLonghands.filterMap (foldedPart? s) := by
    by_cases hkept : ((s.plain? "background-size").isSome && positionKept s) = true
    · have hnone : foldedPart? s "background-size" = none := by
        simp [foldedPart?, foldedValue?, backgroundNames, hkept, Slices.slashed]
      rw [backgroundNames, if_pos hkept, filterMap_filter]
      refine filterMap_congr fun n _ => ?_
      by_cases hname : n = "background-size"
      · simp [hname, hnone]
      · simp [hname]
    · rw [backgroundNames, if_neg hkept]
  have hcons : ∀ n l, filterMap (foldedPart? s) (n :: l) =
      (foldedPart? s n).toList ++ filterMap (foldedPart? s) l := by
    intro n l
    rw [filterMap_cons]
    cases foldedPart? s n <;> rfl
  rw [hplain, hall, backgroundLonghands, pieces]
  simp only [hcons, filterMap_nil, append_nil]
  rfl

end SomeBackground

/-! ## What is got back

  Membership in the store after the round trip, for any name, in terms of the store before.
-/

/-- What expansion declares, and what was not folded, is what was declared, and the initial position where
    a size needs one. -/
theorem restored_iff {x : String × Declaration} :
    ((x.2.important = false ∧ foldedValue? s x.1 = some x.2.value) ∨
        x ∈ s.entries ∧ (x.1 ∉ backgroundNames s ∨ x.2.important = true)) ↔
      x ∈ s.entries ∨ (x = ("background-position", ⟨initialPosition, false⟩) ∧
        (s.plain? "background-size").isSome ∧ "background-position" ∉ s.names) := by
  obtain ⟨n, v, i⟩ := x
  -- The position always takes part, so a missing one is added exactly when there is a size.
  have hposition : "background-position" ∈ backgroundNames s :=
    mem_backgroundNames_iff.mpr ⟨by decide, fun h => absurd h.1 (by decide)⟩
  have htrim : trimName "background-position" = "background-position" :=
    trimName_backgroundLonghands _ (by decide)
  constructor
  · rintro (⟨rfl, hvalue⟩ | ⟨hmem, -⟩)
    · obtain ⟨hn, hget | ⟨rfl, hsize, hnone, rfl⟩⟩ := foldedValue?_eq_some.mp hvalue
      · exact Or.inl ((Store.get?_eq_some_iff
          (trimName_backgroundLonghands n (backgroundNames_subset s hn))).mp hget)
      · refine Or.inr ⟨rfl, hsize, fun hmem => ?_⟩
        obtain ⟨⟨m, d⟩, hd, hname⟩ := Entries.mem_names_iff.mp hmem
        obtain rfl : m = "background-position" := hname
        rw [Store.get?_of_mem hd] at hnone
        contradiction
    · exact Or.inl hmem
  · rintro (hmem | ⟨heq, hsize, hnew⟩)
    · by_cases hn : n ∈ backgroundNames s
      · cases i with
        | true => exact Or.inr ⟨hmem, Or.inr rfl⟩
        | false => exact Or.inl ⟨rfl, foldedValue?_eq_some.mpr ⟨hn, Or.inl (Store.get?_of_mem hmem)⟩⟩
      · exact Or.inr ⟨hmem, Or.inl hn⟩
    · obtain ⟨rfl, rfl, rfl⟩ : n = "background-position" ∧ v = initialPosition ∧ i = false := by
        simpa using heq
      exact Or.inl ⟨rfl, foldedValue?_eq_some.mpr
        ⟨hposition, Or.inr ⟨rfl, hsize, Store.get?_of_not_mem htrim hnew, rfl⟩⟩⟩

/-- What is not folded is as it was. -/
theorem mem_entries_of_prepared (ht : Prepared s t) {x : String × Declaration} :
    (x ∈ t.entries ∧ x.1 ∉ (t.plainEntries (backgroundNames s)).names) ↔
      x ∈ s.entries ∧ (x.1 ∉ backgroundNames s ∨ x.2.important = true) := by
  obtain ⟨n, d⟩ := x
  by_cases hn : trimName n = n
  · -- A prepared name that is not plain is important, and those the preparation does not touch.
    have hplain : t.get? n = some d → (n ∈ (t.plainEntries (backgroundNames s)).names ↔
        n ∈ backgroundNames s ∧ d.important = false) := by
      intro hget
      rw [Store.mem_names_plainEntries]
      simp [Store.plain?, hget]
    rw [← Store.get?_eq_some_iff hn, ← Store.get?_eq_some_iff hn]
    constructor
    · rintro ⟨hget, hnot⟩
      rw [hplain hget] at hnot
      by_cases hmem : n ∈ backgroundNames s
      · have hd : d.important = true := by simpa [hmem] using hnot
        exact ⟨(ht.get?_important n d hn hd).mp hget, Or.inr hd⟩
      · exact ⟨ht.get?_of_not_mem n hn hmem ▸ hget, Or.inl hmem⟩
    · rintro ⟨hget, hor⟩
      have hsame : t.get? n = some d := hor.elim (fun hmem => (ht.get?_of_not_mem n hn hmem).trans hget)
        fun hd => (ht.get?_important n d hn hd).mpr hget
      refine ⟨hsame, fun hm => ?_⟩
      obtain ⟨hmem, hd⟩ := (hplain hsame).mp hm
      exact hor.elim (fun h => h hmem) fun h => by simp [hd] at h
  · exact iff_of_false (fun h => hn (t.trimName_of_mem n (Entries.mem_names_of_mem h.1)))
      fun h => hn (s.trimName_of_mem n (Entries.mem_names_of_mem h.1))

/-- What a fold of what is there says, if it says anything. -/
theorem notice_foldAvailable {names : List String} {shorthand : String} {m : Notice}
    (hm : m ∈ (foldAvailable names shorthand s).2) : ∃ n, m = .keptOut n shorthand := by
  have hkept : (foldAvailable names shorthand s).2 = keptOut s names shorthand := by
    dsimp only [foldAvailable]
    split <;> rfl
  rw [hkept] at hm
  obtain ⟨n, -, hn⟩ := mem_filterMap.mp hm
  split at hn
  · split at hn
    · exact ⟨n, (Option.some.inj hn).symm⟩
    · contradiction
  · contradiction

/-- What a fold of the background says, if it says anything. -/
theorem notice_foldBackground {m : Notice} (hm : m ∈ (foldBackground s).2) :
    m = .keptSize ∨ ∃ n, m = .keptOut n "background" := by
  unfold foldBackground at hm
  split at hm
  · exact Or.inr (notice_foldAvailable hm)
  · split at hm
    · exact Or.inr (notice_foldAvailable hm)
    · split at hm
      · exact Or.inr (notice_foldAvailable hm)
      · split at hm
        · exact (mem_cons.mp hm).imp_right notice_foldAvailable
        · exact Or.inr (notice_foldAvailable hm)

namespace SomeBackground

/-- The values that are folded are found again in the text that they are joined to. -/
theorem exists_slices (h : SomeBackground s) (ht : Prepared s t) :
    ∃ slices, slice (joined ((t.plainEntries (backgroundNames s)).map (·.2))) Shorthand.background.parts =
        slices ∧ slices.remaining = [] ∧
      ∀ e, e ∈ slices.entries Shorthand.background.longhandOf ↔ foldedValue? s e.1 = some e.2 := by
  obtain ⟨slices, hslices, hcolor, himage, hrepeat, hposition, hsize, hattachment, hleft⟩ :=
    h.ofBackground.slice_joined
  refine ⟨slices, by rw [h.values_eq ht]; exact hslices, hleft, fun e => ?_⟩
  have hsame : ∀ x ∈ Shorthand.background.longhandOf, slices.get? x.1 = foldedValue? s x.2 := by
    intro x hx
    simp only [Shorthand.longhandOf, mem_cons, not_mem_nil, or_false] at hx
    rcases hx with rfl | rfl | rfl | rfl | rfl | rfl <;> assumption
  rw [Slices.mem_entries_iff]
  constructor
  · rintro ⟨x, hx, hget, hname⟩
    rw [hname, ← hsame x hx, hget]
  · intro hvalue
    have hmem : e.1 ∈ Shorthand.background.longhands :=
      backgroundNames_subset s (foldedValue?_eq_some.mp hvalue).1
    obtain ⟨x, hx, hname⟩ := mem_map.mp hmem
    exact ⟨x, hx, (hsame x hx).trans (hname ▸ hvalue), hname.symm⟩

/-- The parts that are joined are declared as they are. -/
theorem asIs_of_mem_values (h : SomeBackground s) (ht : Prepared s t)
    (hu : u ∈ (t.plainEntries (backgroundNames s)).map (·.2)) : AsIs u := by
  rw [h.values_eq ht] at hu
  rcases Slices.mem_pieces.mp hu with hu | hu | hu | hu | hu | hu
  · exact h.asIs hu
  · exact h.asIs hu
  · exact h.asIs hu
  · exact h.asIs hu
  · obtain ⟨size, hsize, rfl⟩ := Option.map_eq_some_iff.mp hu
    exact (h.asIs hsize).slashed
  · exact h.asIs hu

/-- What is folded is taken out of the prepared store. -/
theorem mem_names_of_foldedValue? (h : SomeBackground s) (ht : Prepared s t) (hu : foldedValue? s n = some u) :
    n ∈ (t.plainEntries (backgroundNames s)).names := by
  have hmem := (foldedValue?_eq_some.mp hu).1
  refine Store.mem_names_plainEntries.mpr ⟨hmem, ?_⟩
  rw [h.plain?_prepared ht hmem, foldedPart?, hu]
  split
  · exact ⟨_, rfl⟩
  · exact ⟨_, rfl⟩

/-- **Several values are folded and got back.** -/
theorem mem_expand (h : SomeBackground s) (ht : Prepared s t)
    (hlength : 2 ≤ (t.plainEntries (backgroundNames s)).length) :
    ∃ u, (foldAvailable (backgroundNames s) "background" t).1.expand "background" = .ok (u, []) ∧
      ∀ x, x ∈ u.entries ↔ (x.2.important = false ∧ foldedValue? s x.1 = some x.2.value) ∨
        x ∈ s.entries ∧ (x.1 ∉ backgroundNames s ∨ x.2.important = true) := by
  obtain ⟨slices, hslice, hleft, hentry⟩ := h.exists_slices ht
  have hasIs := fun w => h.asIs_of_mem_values ht (u := w)
  obtain ⟨v, vs, hcons⟩ : ∃ v vs, (t.plainEntries (backgroundNames s)).map (·.2) = v :: vs :=
    exists_cons_of_ne_nil fun hnil => by
      have hlen := congrArg length hnil
      rw [length_map, length_nil] at hlen
      omega
  -- The first value leads: it is not a size, whose slash would not be read without something before it.
  have hleads : Leads v :=
    h.ofBackground.leads isSome_foldedValue?_position ((h.values_eq ht).symm.trans hcons)
  rw [hcons] at hslice hasIs
  obtain ⟨u, hexpand, hentries⟩ := mem_expand_joined .background (fun _ => rfl)
    (nodup_backgroundNames s) (fun m hm => trimName_backgroundLonghands m (backgroundNames_subset s hm))
    (h.new_prepared ht) hlength hcons hleads hasIs
    (fun e he => h.asIs ((hentry e).mp (hslice ▸ he)))
    fun e he => Or.inr (h.mem_names_of_foldedValue? ht ((hentry e).mp (hslice ▸ he)))
  rw [hslice] at hexpand hentries
  have hquiet : Expansion.notices "background" (joined (v :: vs))
      (.ofSlices Shorthand.background.longhandOf slices) = [] := by
    simp [Expansion.notices, Expansion.ofSlices, hleft]
  refine ⟨u, hquiet ▸ hexpand, fun x => (hentries x).trans (or_congr ?_ (mem_entries_of_prepared ht))⟩
  constructor
  · rintro ⟨e, he, rfl⟩
    exact ⟨rfl, (hentry e).mp he⟩
  · rintro ⟨hplain, hvalue⟩
    obtain ⟨n, v, i⟩ := x
    obtain rfl : i = false := hplain
    exact ⟨(n, v), (hentry _).mpr hvalue, rfl⟩

end SomeBackground

/-- **A single value is not folded**, and so no size. -/
theorem SomeBackground.mem_unfolded (h : SomeBackground s) (ht : Prepared s t)
    (hlength : ¬2 ≤ (t.plainEntries (backgroundNames s)).length) (x : String × Declaration) :
    x ∈ t.entries ↔ (x.2.important = false ∧ foldedValue? s x.1 = some x.2.value) ∨
      x ∈ s.entries ∧ (x.1 ∉ backgroundNames s ∨ x.2.important = true) := by
  -- With a size there would be a position as well, and so two entries.
  have hsize : foldedValue? s "background-size" = none := by
    by_contra hsize
    obtain ⟨size, hsize⟩ := Option.ne_none_iff_exists'.mp hsize
    obtain ⟨position, hposition⟩ := Option.isSome_iff_exists.mp
      (isSome_foldedValue?_position (Option.isSome_iff_exists.mpr ⟨size, hsize⟩))
    rw [← length_map (f := fun x : String × Text => x.2), h.values_eq ht, hsize, hposition] at hlength
    exact hlength (by simp [pieces, Slices.slashed]; omega)
  have hplain : ∀ n ∈ backgroundNames s, t.plain? n = foldedValue? s n := by
    intro n hn
    rw [h.plain?_prepared ht hn, foldedPart?]
    split
    · rename_i hname
      simp [hname, hsize, Slices.slashed]
    · rfl
  obtain ⟨n, v, i⟩ := x
  rw [← mem_entries_of_prepared ht]
  constructor
  · intro hmem
    by_cases hn : n ∈ (t.plainEntries (backgroundNames s)).names
    · obtain ⟨hn, w, hw⟩ := Store.mem_names_plainEntries.mp hn
      have hget := Store.plain?_eq_some_iff.mp hw
      rw [Store.get?_of_mem hmem] at hget
      obtain ⟨rfl, rfl⟩ : v = w ∧ i = false := by simpa using hget
      exact Or.inl ⟨rfl, (hplain n hn).symm.trans hw⟩
    · exact Or.inr ⟨hmem, hn⟩
  · rintro (⟨rfl, hvalue⟩ | ⟨hmem, -⟩)
    · have hn := (foldedValue?_eq_some.mp hvalue).1
      exact (Store.get?_eq_some_iff (trimName_backgroundLonghands n (backgroundNames_subset s hn))).mp
        (Store.plain?_eq_some_iff.mp ((hplain n hn).trans hvalue))
    · exact hmem

/-- **A background is got back.**  A store without `background`, in which the longhands of `background`
    have values that their parts of a background match, without marks and comments, is left with the same
    declarations by folding them and expanding them again, important or not.  Nothing is said to be
    unknown.  Only the initial position may be new: it is if a size is folded without one. -/
theorem refolded_background (s : Store) (said : List Notice) (h : SomeBackground s) :
    ∃ t notices, (Edit.fold foldBackground >>= fun _ => Edit.expandBackground).exec ⟨s, said⟩ =
        (.ok (), ⟨t, said ++ notices⟩) ∧
      (∀ ignored name value, Notice.unknownComponent ignored name value ∉ notices) ∧
      ∀ x, x ∈ t.entries ↔ x ∈ s.entries ∨ (x = ("background-position", ⟨initialPosition, false⟩) ∧
        (s.plain? "background-size").isSome ∧ "background-position" ∉ s.names) := by
  obtain ⟨t, ht, hfold⟩ := foldBackground_eq s
  have hresult : ∃ u, (foldBackground s).1.expand "background" = .ok (u, []) ∧
      ∀ x, x ∈ u.entries ↔ (x.2.important = false ∧ foldedValue? s x.1 = some x.2.value) ∨
        x ∈ s.entries ∧ (x.1 ∉ backgroundNames s ∨ x.2.important = true) := by
    rw [hfold]
    by_cases hlength : 2 ≤ (t.plainEntries (backgroundNames s)).length
    · exact h.mem_expand ht hlength
    · have hkept : (foldAvailable (backgroundNames s) "background" t).1 = t := by
        rw [foldAvailable_eq (nodup_backgroundNames s), partsText?, if_pos (Nat.not_le.mp hlength)]
      rw [hkept]
      exact ⟨t, Store.expand_of_not_mem trimName_background (h.new_prepared ht), h.mem_unfolded ht hlength⟩
  obtain ⟨u, hexpand, hentries⟩ := hresult
  refine ⟨u, (foldBackground s).2, ?_, fun ignored name value hm => ?_, fun x => (hentries x).trans restored_iff⟩
  · have hexec := Edit.exec_fold_expand (Prod.mk.eta (p := foldBackground s)).symm hexpand said
    rw [append_nil] at hexec
    exact hexec
  · rcases notice_foldBackground hm with hm | ⟨n, hm⟩ <;> contradiction

/-- A background with an image that says what is not declared, with a size that no position stands
    before, and with an attachment that is important. -/
def covered : Store :=
  .ofList [("background-size", .text "50% auto".toList), ("background-color", .text "RGB(255, 0, 0)".toList),
    ("color", .text "red".toList), ("background-attachment", .text "fixed !important".toList),
    ("background-image", .text "url(\"a repeat-x top.png\")".toList)]

/-- A color written as a call, a url that names a position, a size without a position, an important longhand
    and a property of another kind: refolding restores all five and adds the initial position. -/
theorem covered_refolded_background : SomeBackground covered ∧
    ∃ t notices, (Edit.fold foldBackground >>= fun _ => Edit.expandBackground).exec ⟨covered, []⟩ =
        (.ok (), ⟨t, [] ++ notices⟩) ∧
      (∀ ignored name value, Notice.unknownComponent ignored name value ∉ notices) ∧
      ∀ x, x ∈ t.entries ↔ x ∈ covered.entries ∨
        (x = ("background-position", ⟨initialPosition, false⟩) ∧
          (covered.plain? "background-size").isSome ∧ "background-position" ∉ covered.names) := by
  have hsome := SomeBackground.of_decide covered (by decide +kernel)
  exact ⟨hsome, refolded_background covered [] hsome⟩

end Folding

end CssShorthand
