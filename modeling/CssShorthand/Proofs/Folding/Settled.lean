/-
  FOLDING AGAIN CHANGES NOTHING.

  Each fold is a pass with a target and sources, and what it writes depends on the sources only
  (`Pass`).  Of a pass we need three facts: with nothing to write it leaves the store as it is, its
  sources say whether there is something to write, and once it is done there is nothing left to write
  (`Pass.Once`).

  1. Each of the passes is such a pass (`once_of_mem_passes`).
  2. No pass reads or writes the sources of one before it (`pairwise_apart_passes`), so that what one
     pass has finished stays finished (`text?_run`).  The boxes come before the border that they are the
     sources of.
  3. After all passes nothing is left to write for any of them, and a second run leaves the store as it
     is: the main statement is `foldAll_idempotent`.
-/
import CssShorthand.Proofs.Folding.Importance

namespace CssShorthand

namespace Folding

/-- A fold, the name that it writes, the names that it reads, and the text that it writes, if it does. -/
structure Pass where
  fold : Store → Result
  target : String
  sources : List String
  text? : Store → Option Text

namespace Pass

/-- A pass that is done for good when it is done. -/
structure Once (p : Pass) : Prop where
  frame : Frame p.fold p.target p.sources
  trimName_source : ∀ n ∈ p.sources, trimName n = n
  eq_self : ∀ s, p.text? s = none → (p.fold s).1 = s
  congr : ∀ s t, (∀ n ∈ p.sources, s.get? n = t.get? n) → p.text? s = p.text? t
  text?_fold : ∀ s, p.text? (p.fold s).1 = none

/-- The second pass leaves the sources of the first alone. -/
def Apart (p q : Pass) : Prop := ∀ n ∈ p.sources, n ≠ q.target ∧ n ∉ q.sources

/-- The store after several passes. -/
def run (ps : List Pass) (s : Store) : Store := ps.foldl (fun s p => (p.fold s).1) s

variable {p q : Pass} {ps : List Pass} {s : Store}

/-- A pass with other sources does not undo what is done. -/
theorem Once.text?_fold_of_apart (hp : p.Once) (hq : q.Once) (h : p.Apart q) (hnone : p.text? s = none) :
    p.text? (q.fold s).1 = none := by
  rw [← hnone]
  refine hp.congr _ _ fun n hn => ?_
  exact hq.frame.get?_of_not_mem s n (hp.trimName_source n hn) (h n hn).1 (h n hn).2

/-- A pass that has nothing to write has nothing to write after others that are apart from it. By induction on
    these. -/
theorem Once.text?_run_of_apart (hp : p.Once) (hps : ∀ q ∈ ps, q.Once ∧ p.Apart q)
    (hnone : p.text? s = none) : p.text? (run ps s) = none := by
  induction ps generalizing s with
  | nil => exact hnone
  | cons q ps ih =>
    obtain ⟨hq, hapart⟩ := hps q List.mem_cons_self
    exact ih (fun r hr => hps r (List.mem_cons_of_mem _ hr)) (hp.text?_fold_of_apart hq hapart hnone)

/-- After a run none of its passes has anything left to write. -/
theorem text?_run (hps : ∀ p ∈ ps, p.Once) (hapart : ps.Pairwise Apart) :
    ∀ p ∈ ps, p.text? (run ps s) = none := by
  induction ps generalizing s with
  | nil => exact nofun
  | cons q ps ih =>
    obtain ⟨hq, hapart⟩ := List.pairwise_cons.mp hapart
    have hlater := fun p hp => hps p (List.mem_cons_of_mem _ hp)
    intro p hp
    rcases List.mem_cons.mp hp with rfl | hp
    · have hp := hps p List.mem_cons_self
      show p.text? (run ps (p.fold s).1) = none
      exact hp.text?_run_of_apart (fun r hr => ⟨hlater r hr, hq r hr⟩) (hp.text?_fold s)
    · exact ih hlater hapart p hp

/-- A run with nothing to write leaves the store as it is. -/
theorem run_eq_self (hps : ∀ p ∈ ps, p.Once) (hnone : ∀ p ∈ ps, p.text? s = none) : run ps s = s := by
  induction ps with
  | nil => rfl
  | cons p ps ih =>
    have hfold := (hps p List.mem_cons_self).eq_self s (hnone p List.mem_cons_self)
    show run ps (p.fold s).1 = s
    rw [hfold]
    exact ih (fun q hq => hps q (List.mem_cons_of_mem _ hq)) fun q hq =>
      hnone q (List.mem_cons_of_mem _ hq)

/-- **A second run changes nothing.** -/
theorem run_run (hps : ∀ p ∈ ps, p.Once) (hapart : ps.Pairwise Apart) (s : Store) :
    run ps (run ps s) = run ps s :=
  run_eq_self hps (text?_run hps hapart)

end Pass

/-! ## The passes

  The program as a list of passes, and that they are in the right order.
-/

section

variable {s t : Store} {names : List String} {n target : String}

/-- What is plainly declared of some names depends on these names. -/
theorem plainEntries_congr (h : ∀ n ∈ names, s.get? n = t.get? n) :
    s.plainEntries names = t.plainEntries names :=
  List.filterMap_congr fun n hn => by rw [plain?_congr (h n hn)]

/-- Plain values are what the lookups say. -/
theorem mapM_plain?_congr (h : ∀ n ∈ names, s.get? n = t.get? n) :
    names.mapM s.plain? = names.mapM t.plain? := by
  induction names with
  | nil => rfl
  | cons n names ih =>
    rw [List.mapM_cons, List.mapM_cons, plain?_congr (h n List.mem_cons_self),
      ih fun m hm => h m (List.mem_cons_of_mem _ hm)]

/-- Nothing is plainly declared of names that are taken out. -/
theorem plain?_write_of_mem {v : Text} (s : Store) (hnames : ∀ m ∈ names, trimName m = m)
    (htarget : trimName target = target) (hn : n ∈ names) (hne : n ≠ target) :
    (write names target v s).plain? n = none := by
  rw [Store.plain?, get?_write s hnames htarget (hnames n hn), if_neg (Ne.symm hne), if_pos hn]

/-- A fold of what is there takes out all that was plainly declared, or nothing. -/
theorem plain?_foldAvailable_of_mem (hnodup : names.Nodup) (hnames : ∀ m ∈ names, trimName m = m)
    (htarget : trimName target = target) (s : Store) (hn : n ∈ names) (hne : n ≠ target) :
    (foldAvailable names target s).1.plain? n =
      if (partsText? names.length (s.plainEntries names)).isSome then none else s.plain? n := by
  have hget := get?_foldAvailable_of_mem hnodup hnames htarget s hn hne
  split_ifs with htext
  · cases hv : s.plain? n with
    | none =>
      rw [if_neg (by simp [hv])] at hget
      rw [plain?_congr hget, hv]
    | some v =>
      rw [if_pos ⟨htext, by simp [hv]⟩] at hget
      rw [Store.plain?, hget]
  · exact plain?_congr (hget.trans (if_neg fun h => htext h.1))

end

/-- The fold of a box. -/
def boxPass (b : BoxShorthand) : Pass :=
  ⟨foldBox b, b.name, b.longhands.toList, fun s => (sides? b s).map fun v => joined v.minimal⟩

/-- All folds, in their order. -/
def passes : List Pass :=
  ⟨foldBackground, "background", backgroundLonghands, backgroundText?⟩ ::
    (BoxShorthand.all.map boxPass ++
      [⟨foldBorder, "border", borderBoxes, borderText?⟩, ⟨foldFont, "font", fontLonghands, fontText?⟩,
        ⟨foldListStyle, "list-style", listStyleLonghands,
          fun s => partsText? listStyleLonghands.length (s.plainEntries listStyleLonghands)⟩])

/-- Folding everything is the run of the passes. -/
theorem foldedAll_eq_run (s : Store) : foldedAll s = Pass.run passes s := by
  rw [foldedAll, foldBoxes_eq]
  rfl

/-- No pass reads or writes the sources of one before it. -/
theorem pairwise_apart_passes : passes.Pairwise Pass.Apart := by
  have h : (passes.map fun p => (p.target, p.sources)).Pairwise fun a b =>
      ∀ n ∈ a.2, n ≠ b.1 ∧ n ∉ b.2 := by
    decide
  rw [List.pairwise_map] at h
  exact h

/-! ## Each pass is done for good

  One lemma for each kind of pass, by its description as a frame and a text.
-/

section

variable {s : Store} (h : (backgroundText? s).isSome)

include h

/-- Once the background is folded, nothing is plainly declared of its parts. -/
theorem plain?_foldBackground_of_mem {n : String} (hn : n ∈ backgroundNames s) :
    (foldBackground s).1.plain? n = none := by
  obtain ⟨t, ht, hfold⟩ := foldBackground_eq s
  have hnames := backgroundNames_subset s
  have hne : n ≠ "background" := fun h => absurd (hnames (h ▸ hn)) (by decide)
  rw [hfold, plain?_foldAvailable_of_mem (nodup_backgroundNames s)
    (fun m hm => trimName_backgroundLonghands m (hnames hm)) trimName_background t hn hne,
    ht.plainEntries_eq]
  exact if_pos h

/-- What is declared of a size and a position afterwards: an important position, and the size that stays
    with it; or no size. -/
theorem foldBackground_size :
    ((∃ d, (foldBackground s).1.get? "background-position" = some d ∧ d.important = true) ∧
        positionKept s = true ∧
        (foldBackground s).1.get? "background-size" = s.get? "background-size") ∨
      (foldBackground s).1.plain? "background-size" = none ∧ backgroundNames s = backgroundLonghands := by
  by_cases hkept : (s.plain? "background-size").isSome && positionKept s
  · refine Or.inl ?_
    obtain ⟨t, ht, hfold⟩ := foldBackground_eq s
    obtain ⟨-, hposition⟩ := Bool.and_eq_true _ _ ▸ hkept
    obtain ⟨d, hd, himp⟩ : ∃ d, s.get? "background-position" = some d ∧ d.important = true := by
      simpa [positionKept, Option.any_eq_true] using hposition
    refine ⟨⟨d, (frame_foldBackground.get?_important s _ d (trimName_backgroundLonghands _ (by decide))
      (by decide) himp).mpr hd, himp⟩, hposition, ?_⟩
    have hout : "background-size" ∉ backgroundNames s := by
      rw [backgroundNames, if_pos hkept]
      decide
    have htrim := trimName_backgroundLonghands "background-size" (by decide)
    rw [hfold, (frame_foldAvailable (nodup_backgroundNames s) (fun m hm =>
      trimName_backgroundLonghands m (backgroundNames_subset s hm)) trimName_background).get?_of_not_mem t
      _ htrim (by decide) hout, ht.get?_of_not_mem _ htrim hout]
  · have hnames : backgroundNames s = backgroundLonghands := by rw [backgroundNames, if_neg hkept]
    exact Or.inr ⟨plain?_foldBackground_of_mem h (hnames ▸ by decide), hnames⟩

/-- Once the background is folded, none of its parts is left. -/
theorem backgroundPart?_foldBackground :
    backgroundNames (foldBackground s).1 = backgroundNames s ∧
      ∀ n ∈ backgroundNames s, backgroundPart? (foldBackground s).1 n = none := by
  have hpart : ∀ n ∈ backgroundNames s, (n = "background-position" →
      ((foldBackground s).1.plain? "background-size").isSome →
        (foldBackground s).1.get? n ≠ none) → backgroundPart? (foldBackground s).1 n = none := by
    intro n hn hposition
    rw [backgroundPart?, plain?_foldBackground_of_mem h hn]
    split_ifs with hsize hpos
    · rfl
    · exact absurd hpos.2.2 (hposition hpos.1 hpos.2.1)
    · rfl
  rcases foldBackground_size h with ⟨⟨d, hd, himp⟩, hkept, hsize⟩ | ⟨hnone, hnames⟩
  · have hkept' : positionKept (foldBackground s).1 = true := by simp [positionKept, hd, himp]
    refine ⟨?_, fun n hn => hpart n hn fun hn' _ => by rw [hn', hd]; exact Option.some_ne_none _⟩
    rw [backgroundNames, backgroundNames, plain?_congr hsize, hkept', hkept]
  · refine ⟨?_, fun n hn => hpart n hn fun _ hsize => by simp [hnone] at hsize⟩
    rw [hnames, backgroundNames, hnone]
    rfl

end

/-- The background is folded once: its longhands are gone afterwards, but for those that are important. -/
theorem once_background : Pass.Once ⟨foldBackground, "background", backgroundLonghands, backgroundText?⟩ where
  frame := frame_foldBackground
  trimName_source := trimName_backgroundLonghands
  eq_self _ := foldBackground_eq_self
  congr s t h := by
    have hsize := h "background-size" (by decide)
    have hposition := h "background-position" (by decide)
    have hnames : backgroundNames s = backgroundNames t := by
      rw [backgroundNames, backgroundNames, plain?_congr hsize, positionKept, positionKept, hposition]
    have hparts : ∀ n ∈ backgroundLonghands, backgroundPart? s n = backgroundPart? t n := fun n hn => by
      rw [backgroundPart?, backgroundPart?, plain?_congr (h n hn), plain?_congr hsize, h n hn]
    show backgroundText? s = backgroundText? t
    rw [backgroundText?, backgroundText?, hnames]
    congr 1
    exact List.filterMap_congr fun n hn => by rw [hparts n (backgroundNames_subset t hn)]
  text?_fold s := by
    show backgroundText? (foldBackground s).1 = none
    cases htext : backgroundText? s with
    | none => rw [foldBackground_eq_self htext, htext]
    | some v =>
      -- No longhand that took part is plain after the fold.
      obtain ⟨hnames, hnone⟩ := backgroundPart?_foldBackground (s := s) (by rw [htext]; rfl)
      have hparts : ((backgroundNames s).filterMap fun n =>
          (backgroundPart? (foldBackground s).1 n).map (n, ·)) = [] :=
        List.filterMap_eq_nil_iff.mpr fun n hn => by rw [hnone n hn, Option.map_none]
      rw [backgroundText?, hnames, hparts]
      rfl

/-- A box is folded once: its longhands are gone afterwards. -/
theorem once_box (b : BoxShorthand) : (boxPass b).Once where
  frame := frame_foldBox b
  trimName_source := b.trimName_longhand
  eq_self s h := by
    have hnone : sides? b s = none := Option.map_eq_none_iff.mp h
    show (foldBox b s).1 = s
    rw [foldBox_eq, hnone]
  congr s t h := by
    show (sides? b s).map _ = (sides? b t).map _
    rw [sides?_congr h]
  text?_fold s := by
    refine Option.map_eq_none_iff.mpr ?_
    show sides? b (foldBox b s).1 = none
    cases hv : sides? b s with
    | none =>
      rw [foldBox_eq, hv]
      exact hv
    | some v =>
      have htop : (foldBox b s).1.plain? b.longhands.top = none := by
        rw [Store.plain?, get?_foldBox_longhand b s (by simp [Sides.toList]), hv]
        rfl
      simp [sides?, htop]

/-- A border is folded once: its boxes are gone afterwards. -/
theorem once_border : Pass.Once ⟨foldBorder, "border", borderBoxes, borderText?⟩ where
  frame := frame_foldBorder
  trimName_source := trimName_borderBoxes
  eq_self s h := by
    show (foldBorder s).1 = s
    have h : borderText? s = none := h
    rw [foldBorder_eq, h]
  congr s t h := by
    show borderText? s = borderText? t
    rw [borderText?, borderText?, plain?_congr (h "border-width" (by decide)),
      plain?_congr (h "border-style" (by decide)), plain?_congr (h "border-color" (by decide))]
  text?_fold s := by
    show borderText? (foldBorder s).1 = none
    rw [foldBorder_eq]
    cases hv : borderText? s with
    | none => exact hv
    | some v =>
      have hwidth : (write borderBoxes "border" v s).plain? "border-width" = none :=
        plain?_write_of_mem s trimName_borderBoxes Shorthand.border.trimName_name (by decide) (by decide)
      simp [borderText?, hwidth]

/-- A font is folded once: its longhands are gone afterwards. -/
theorem once_font : Pass.Once ⟨foldFont, "font", fontLonghands, fontText?⟩ where
  frame := frame_foldFont
  trimName_source := Shorthand.font.trimName_longhand
  eq_self s h := by
    show (foldFont s).1 = s
    have h : fontText? s = none := h
    rw [foldFont_eq, h]
  congr s t h := by
    show fontText? s = fontText? t
    rw [fontText?, fontText?, mapM_plain?_congr h]
  text?_fold s := by
    show fontText? (foldFont s).1 = none
    rw [foldFont_eq]
    cases hv : fontText? s with
    | none => exact hv
    | some v =>
      -- One longhand that is gone is enough for the font not to be folded again.
      have hstyle : (write fontLonghands "font" v s).plain? "font-style" = none :=
        plain?_write_of_mem s Shorthand.font.trimName_longhand Shorthand.font.trimName_name (by decide)
          (by decide)
      cases hvs : fontLonghands.mapM (write fontLonghands "font" v s).plain? with
      | none => simp [fontText?, hvs]
      | some vs =>
        obtain ⟨w, hw⟩ := mapM_plain?_eq_some hvs "font-style" (by decide)
        rw [hstyle] at hw
        contradiction

/-- A fold of what is there leaves nothing to fold. -/
theorem once_available {names : List String} {target : String} (hnodup : names.Nodup)
    (hnames : ∀ m ∈ names, trimName m = m) (htarget : trimName target = target) (hne : target ∉ names) :
    Pass.Once ⟨foldAvailable names target, target, names,
      fun s => partsText? names.length (s.plainEntries names)⟩ where
  frame := frame_foldAvailable hnodup hnames htarget
  trimName_source := hnames
  eq_self s h := by
    have h : partsText? names.length (s.plainEntries names) = none := h
    rw [foldAvailable_eq hnodup, h]
  congr s t h := by
    show partsText? names.length (s.plainEntries names) = partsText? names.length (t.plainEntries names)
    rw [plainEntries_congr h]
  text?_fold s := by
    show partsText? names.length ((foldAvailable names target s).1.plainEntries names) = none
    cases htext : partsText? names.length (s.plainEntries names) with
    | none =>
      rw [foldAvailable_eq hnodup, htext]
      exact htext
    | some v =>
      -- None of the names is plain after the fold.
      have hempty : (foldAvailable names target s).1.plainEntries names = [] :=
        List.filterMap_eq_nil_iff.mpr fun n hn => by
          rw [plain?_foldAvailable_of_mem hnodup hnames htarget s hn fun h => hne (h ▸ hn), htext]
          rfl
      rw [hempty]
      rfl

/-- Every pass is folded once. -/
theorem once_of_mem_passes : ∀ p ∈ passes, p.Once := by
  intro p hp
  simp only [passes, List.mem_cons, List.mem_append, List.mem_map, List.not_mem_nil, or_false] at hp
  rcases hp with rfl | ⟨b, -, rfl⟩ | rfl | rfl | rfl
  · exact once_background
  · exact once_box b
  · exact once_border
  · exact once_font
  · exact once_available Shorthand.listStyle.nodup_longhands Shorthand.listStyle.trimName_longhand
      Shorthand.listStyle.trimName_name (by decide)

/-- **Folding is idempotent.**  It always succeeds, and what it leaves it leaves again as it is. -/
theorem foldAll_idempotent (s : Store) :
    ∃ t, Edit.foldAll.after s = .ok t ∧ Edit.foldAll.after t = .ok t := by
  refine ⟨foldedAll s, after_foldAll s, ?_⟩
  rw [after_foldAll, foldedAll_eq_run, foldedAll_eq_run,
    Pass.run_run once_of_mem_passes pairwise_apart_passes]

end Folding

end CssShorthand
