/-
  WHAT STANDS IN A STORE ONCE ALL IS FOLDED.

  In a store of longhands that are not important (`Unfolded`), folding all leaves declarations that were
  there, and shorthands that were written (`Unfolded.declared_or_written`).

    1.  Where a shorthand is written its longhands are gone, and where `border` is written so are its
        boxes.  So no two declarations can set the same name (`Unfolded.separate`), and each sets what it
        sets on its own.
    2.  What is written holds no mark and is not important (`Unfolded.unmarked`).
-/
import CssShorthand.Proofs.Folding.Available
import CssShorthand.Proofs.Folding.Folded
import CssShorthand.Proofs.Folding.Meaning
import CssShorthand.Proofs.Slice.Words

namespace CssShorthand

open List

open Cascade (Separate)

/-! ## Values without marks

  A mark in a written text would make the declaration important; the values have none, and joining them adds
  blanks and keywords only.
-/

namespace Cleaning

/-- Dropping a semicolon adds no character. -/
theorem mem_of_mem_dropSemicolon {t : Text} {c : Char} (h : c ∈ dropSemicolon t) : c ∈ t := by
  unfold dropSemicolon at h
  split at h
  · rename_i r hr
    have hmem : c ∈ ';' :: r := mem_cons_of_mem _ ((dropWhile_suffix _).subset (mem_reverse.mp h))
    rw [← hr] at hmem
    exact mem_reverse.mp ((dropWhile_suffix _).subset hmem)
  · exact h

/-- **A text without marks** declares a value without marks, and is important only as the caller says. -/
theorem declarationOfText?_of_not_mem {t : Text} (h : '!' ∉ t) {important : Bool} {d : Declaration}
    (hd : Value.declarationOfText? t important = some d) : d.important = important ∧ '!' ∉ d.value := by
  have hdrop : '!' ∉ dropSemicolon t := fun hm => h (mem_of_mem_dropSemicolon hm)
  have hclean : clean t = (Text.trim (dropSemicolon t), false) := by
    rw [clean, replaceMarks_of_not_mem hdrop]
  rw [Value.declarationOfText?, hclean] at hd
  split at hd
  · contradiction
  · obtain rfl := Option.some.inj hd
    exact ⟨Bool.or_false important, fun hm => hdrop (Text.mem_of_mem_trim hm)⟩

end Cleaning

namespace Folding

variable {s : Store} {n : String} {v w : Text} {ws : List Text} {x : String × Declaration} {c : Char}

/-- Joining adds blanks only. -/
theorem not_mem_joined (hc : c ≠ ' ') (h : ∀ w ∈ ws, c ∉ w) : c ∉ joined ws := by
  induction ws with
  | nil => simp [joined, Text.join]
  | cons w ws ih =>
    have hw := h w mem_cons_self
    cases ws with
    | nil => rwa [joined_singleton]
    | cons v ws =>
      rw [joined_cons_cons, mem_append, mem_cons, not_or, not_or]
      exact ⟨hw, hc, ih fun x hx => h x (mem_cons_of_mem _ hx)⟩

/-- A shared keyword is one of the table, and none of these has a mark. -/
theorem not_mem_sharedKeyword (hk : sharedKeyword? ws = some v) : '!' ∉ v := by
  have hplain : ∀ k ∈ cssWideKeywords, '!' ∉ k.toList := by decide
  unfold sharedKeyword? at hk
  split at hk
  · contradiction
  · dsimp only at hk
    split at hk
    · rename_i hshared
      rw [Bool.and_eq_true, contains_iff_mem] at hshared
      have hmem := hplain _ hshared.1
      rwa [Option.some.inj hk, Text.toString, String.toList_ofList] at hmem
    · contradiction

/-- What is written for several values is a keyword or what they are together. -/
theorem not_mem_getD (hv : '!' ∉ v) : '!' ∉ (sharedKeyword? ws).getD v := by
  cases hk : sharedKeyword? ws with
  | none => exact hv
  | some k => exact not_mem_sharedKeyword hk

/-- The text of parts is made of their values, or a shared keyword. -/
theorem not_mem_partsText {total : Nat} {found : Entries Text} (h : ∀ e ∈ found, '!' ∉ e.2)
    (hv : partsText? total found = some v) : '!' ∉ v := by
  have hvalues : ∀ w ∈ found.map (·.2), '!' ∉ w := by
    intro w hw
    obtain ⟨e, he, rfl⟩ := mem_map.mp hw
    exact h e he
  have hjoined : '!' ∉ joined (found.map (·.2)) := not_mem_joined (by decide) hvalues
  unfold partsText? at hv
  split at hv
  · contradiction
  · obtain rfl := Option.some.inj hv
    split
    · exact not_mem_getD hjoined
    · exact hjoined

/-- The text of a font is made of the values of its longhands, blanks and a slash. -/
theorem not_mem_fontValue {u : FontValues} (h : ∀ x ∈ [u.style, u.variant, u.weight, u.size, u.lineHeight, w],
    '!' ∉ x) : '!' ∉ fontValue u w := by
  simp only [mem_cons, not_mem_nil, or_false, forall_eq_or_imp, forall_eq] at h
  obtain ⟨hstyle, hvariant, hweight, hsize, hheight, hfamily⟩ := h
  rw [fontValue, Text.collapse]
  refine not_mem_joined (by decide) fun x hx hmem => ?_
  obtain ⟨-, -, a, b, hab, -⟩ := Text.mem_words_iff.mp hx
  refine absurd (by rw [hab]; simp [hmem]) (not_mem_joined (c := '!') (by decide) fun y hy => ?_)
  simp only [mem_append, mem_filter, mem_cons, not_mem_nil, or_false] at hy
  rcases hy with ⟨rfl | rfl | rfl, -⟩ | rfl | rfl
  · exact hstyle
  · exact hvariant
  · exact hweight
  · split
    · exact hsize
    · simp [hsize, hheight]
  · exact hfamily

namespace Unfolded

/-- In a store of longhands no value has a mark. -/
theorem not_mem_plain? (h : Unfolded s) (htrim : trimName n = n) (hv : s.plain? n = some v) : '!' ∉ v :=
  h.mark _ ((Store.get?_eq_some_iff htrim).mp (Store.plain?_eq_some_iff.mp hv))

/-- No mark gets into the text of a box. -/
theorem not_mem_sides? (h : Unfolded s) {b : BoxShorthand} {sides : Sides Text} (hv : sides? b s = some sides) :
    '!' ∉ joined sides.minimal := by
  obtain ⟨htop, hright, hbottom, hleft⟩ := sides?_eq_some_iff.mp hv
  have htrim := b.trimName_longhand
  simp only [Sides.toList, mem_cons, not_mem_nil, or_false, forall_eq_or_imp, forall_eq] at htrim
  refine not_mem_joined (by decide) fun w hw => ?_
  have hmem := Sides.minimal_subset _ hw
  simp only [Sides.toList, mem_cons, not_mem_nil, or_false] at hmem
  rcases hmem with rfl | rfl | rfl | rfl
  · exact h.not_mem_plain? htrim.1 htop
  · exact h.not_mem_plain? htrim.2.1 hright
  · exact h.not_mem_plain? htrim.2.2.1 hbottom
  · exact h.not_mem_plain? htrim.2.2.2 hleft

/-- No mark gets into the plain entries. -/
theorem not_mem_plainEntries (h : Unfolded s) {names : List String} (htrim : ∀ m ∈ names, trimName m = m) :
    ∀ e ∈ s.plainEntries names, '!' ∉ e.2 := by
  intro e he
  obtain ⟨hname, hget⟩ := Store.mem_plainEntries_iff.mp he
  exact h.not_mem_plain? (htrim _ hname) (Store.plain?_eq_some_iff.mpr hget)

/-- What a longhand brings into a background: a size behind its slash, the position that it stands at, or
    what is declared. -/
theorem not_mem_backgroundPart? (h : Unfolded s) (hn : n ∈ backgroundLonghands)
    (hv : backgroundPart? s n = some v) : '!' ∉ v := by
  have htrim := trimName_backgroundLonghands n hn
  unfold backgroundPart? at hv
  split at hv
  · obtain ⟨size, hsize, rfl⟩ := Option.map_eq_some_iff.mp hv
    have hsize := h.not_mem_plain? htrim hsize
    unfold slashed
    split
    · exact hsize
    · simp [hsize]
  · split at hv
    · obtain rfl := Option.some.inj hv
      exact (by decide : '!' ∉ initialPosition)
    · exact h.not_mem_plain? htrim hv

/-- What stands for a box once the boxes are folded. -/
theorem not_mem_plain?_foldBoxes (h : Unfolded s) (b : BoxShorthand)
    (hv : (foldBoxes (foldBackground s).1).1.plain? b.name = some v) : '!' ∉ v := by
  have hget := Store.plain?_eq_some_iff.mp hv
  rw [h.get?_foldBoxes] at hget
  obtain ⟨text, htext, hdeclared⟩ := Option.bind_eq_some_iff.mp hget
  obtain ⟨sides, hsides, rfl⟩ := Option.map_eq_some_iff.mp htext
  exact (Cleaning.declarationOfText?_of_not_mem (h.not_mem_sides? hsides) hdeclared).2

/-- No mark gets into the text of the border, which is made of what was written for the boxes. -/
theorem not_mem_borderText? (h : Unfolded s)
    (hv : borderText? (foldBoxes (foldBackground s).1).1 = some v) : '!' ∉ v := by
  simp only [borderText?] at hv
  split at hv
  · rename_i width style color hwidth hstyle hcolor
    split at hv
    · obtain rfl := Option.some.inj hv
      refine not_mem_getD (not_mem_joined (by decide) ?_)
      simp only [mem_cons, not_mem_nil, or_false, forall_eq_or_imp, forall_eq]
      exact ⟨h.not_mem_plain?_foldBoxes .borderWidth hwidth,
        h.not_mem_plain?_foldBoxes .borderStyle hstyle,
        h.not_mem_plain?_foldBoxes .borderColor hcolor⟩
    · contradiction
  · contradiction

/-- No mark gets into the text of a font. -/
theorem not_mem_fontText? (h : Unfolded s) (hv : fontText? s = some v) : '!' ∉ v := by
  unfold fontText? at hv
  split at hv
  · rename_i style variant weight size lineHeight family hvalues
    obtain rfl := Option.some.inj hv
    refine not_mem_getD (not_mem_fontValue fun x hx => ?_)
    obtain ⟨n, hn, hplain⟩ := (exists_of_mapM_eq_some hvalues).2 x hx
    exact h.not_mem_plain? (Shorthand.font.trimName_longhand n hn) hplain
  · contradiction

/-- **What is written holds no mark.** -/
theorem not_mem_foldText? (h : Unfolded s) {sh : Shorthand} (hv : foldText? s sh = some v) : '!' ∉ v := by
  cases sh with
  | background =>
    refine not_mem_partsText (fun e he => ?_) hv
    obtain ⟨m, hm, hpart⟩ := mem_filterMap.mp he
    obtain ⟨w, hw, rfl⟩ := Option.map_eq_some_iff.mp hpart
    exact h.not_mem_backgroundPart? (backgroundNames_subset s hm) hw
  | box b =>
    obtain ⟨sides, hsides, rfl⟩ := Option.map_eq_some_iff.mp hv
    exact h.not_mem_sides? hsides
  | border => exact h.not_mem_borderText? hv
  | borderSide _ => contradiction
  | font => exact h.not_mem_fontText? hv
  | listStyle =>
    exact not_mem_partsText (h.not_mem_plainEntries Shorthand.listStyle.trimName_longhand) hv

end Unfolded

/-! ## What stands in the folded store

  Entry by entry: where it comes from, that it is not important, and that no two entries set the same name.
-/

/-- The shorthands that are folded from longhands. -/
def ofLonghands : List Shorthand := .background :: BoxShorthand.all.map .box ++ [.font, .listStyle]

/-- The shorthands that longhands are folded to are neither the border nor one of its sides. -/
theorem ne_of_mem_ofLonghands {sh : Shorthand} (hsh : sh ∈ ofLonghands) :
    sh ≠ .border ∧ ∀ side, sh ≠ .borderSide side := by
  constructor
  · rintro rfl
    exact absurd hsh (by decide)
  · rintro side rfl
    exact absurd hsh (by cases side <;> decide)

/-- What is written is one of these, or `border`. -/
theorem cases_of_foldText? {sh : Shorthand} (h : (foldText? s sh).isSome) : sh ∈ ofLonghands ∨ sh = .border := by
  cases sh with
  | box b => exact Or.inl (by cases b <;> decide)
  | border => exact Or.inr rfl
  | borderSide side => contradiction
  | _ => exact Or.inl (by decide)

namespace Unfolded

/-- **A declaration was there, or it was written.** -/
theorem declared_or_written (h : Unfolded s) (hx : x ∈ (foldedAll s).entries) :
    Shorthand.ofName? x.1 = none ∧ x ∈ s.entries ∨
      ∃ sh v, x.1 = sh.name ∧ foldText? s sh = some v ∧ Value.declarationOfText? v false = some x.2 ∧
        ¬(sh.name ∈ borderBoxes ∧ (foldText? s .border).isSome) := by
  obtain ⟨n, d⟩ := x
  have htrim : trimName n = n := (foldedAll s).trimName_of_mem n (Entries.mem_names_of_mem hx)
  have hget := (Store.get?_eq_some_iff htrim).mpr hx
  -- A shorthand can only have been written; anything else was there, or its group was not folded.
  cases hname : Shorthand.ofName? n with
  | some sh =>
    obtain rfl : sh.name = n := by simpa using find?_some hname
    rw [h.get?_foldedAll_name] at hget
    split at hget
    · cases hget
    · rename_i hkept
      obtain ⟨v, hv, hd⟩ := Option.bind_eq_some_iff.mp hget
      exact Or.inr ⟨sh, v, rfl, hv, hd, hkept⟩
  | none =>
    refine Or.inl ⟨rfl, (Store.get?_eq_some_iff htrim).mp ?_⟩
    by_cases hmem : n ∈ folded
    · have hall : ∀ m ∈ folded, Shorthand.ofName? m = none → ∃ sh ∈ ofLonghands, m ∈ sh.longhands := by
        decide +kernel
      obtain ⟨sh, hsh, hn⟩ := hall n hmem hname
      obtain ⟨hborder, hside⟩ := ne_of_mem_ofLonghands hsh
      rw [h.get?_foldedAll_longhand hn hside hborder] at hget
      split at hget
      · cases hget
      · exact hget
    · rwa [get?_foldedAll_of_not_mem htrim hmem] at hget

/-- **No declaration holds a mark or is important.** -/
theorem unmarked (h : Unfolded s) (hx : x ∈ (foldedAll s).entries) :
    x.2.important = false ∧ '!' ∉ x.2.value := by
  rcases h.declared_or_written hx with ⟨-, hx⟩ | ⟨sh, v, -, hv, hd, -⟩
  · exact ⟨h.plain x hx, h.mark x hx⟩
  · exact Cleaning.declarationOfText?_of_not_mem (h.not_mem_foldText? hv) hd

/-- Where `border` is written its boxes were written before. -/
theorem isSome_foldText?_box (h : Unfolded s) (hborder : (foldText? s .border).isSome) {b : BoxShorthand}
    (hb : b.name ∈ borderBoxes) : (foldText? s (.box b)).isSome := by
  have hplain : ((foldBoxes (foldBackground s).1).1.plain? b.name).isSome := by
    simp only [foldText?, borderText?] at hborder
    split at hborder
    · rename_i hwidth hstyle hcolor
      simp only [borderBoxes, mem_cons, not_mem_nil, or_false] at hb
      rcases hb with hb | hb | hb
      · rw [hb, hwidth]
        rfl
      · rw [hb, hstyle]
        rfl
      · rw [hb, hcolor]
        rfl
    · contradiction
  by_contra hnone
  rw [Option.not_isSome_iff_eq_none] at hnone
  rw [Store.plain?, h.get?_foldBoxes, hnone] at hplain
  contradiction

/-- The longhands of what is written are gone, on both levels. -/
theorem get?_foldedAll_of_mem_cover (h : Unfolded s) {sh : Shorthand} (hsh : (foldText? s sh).isSome)
    (hn : n ∈ Shorthand.cover sh.name) (hname : Shorthand.ofName? n = none) : (foldedAll s).get? n = none := by
  have hlonghand : ∀ sh ∈ ofLonghands, ∀ n ∈ Shorthand.cover sh.name, Shorthand.ofName? n = none →
      n ∈ sh.longhands := by
    decide +kernel
  have hside : ∀ n ∈ Shorthand.cover Shorthand.border.name, Shorthand.ofName? n = none →
      ∃ b ∈ BoxShorthand.all, b.name ∈ borderBoxes ∧ n ∈ (Shorthand.box b).longhands := by
    decide +kernel
  rcases cases_of_foldText? hsh with hmem | rfl
  · obtain ⟨hborder, hside⟩ := ne_of_mem_ofLonghands hmem
    rw [h.get?_foldedAll_longhand (hlonghand sh hmem n hn hname) hside hborder, if_pos hsh]
  · obtain ⟨b, -, hb, hn⟩ := hside n hn hname
    rw [h.get?_foldedAll_longhand hn (by simp) (by simp), if_pos (h.isSome_foldText?_box hsh hb)]

/-- **No two declarations can set the same name.** -/
theorem separate (h : Unfolded s) : Separate (foldedAll s) := by
  have hapart : ∀ a ∈ .border :: ofLonghands, ∀ b ∈ .border :: ofLonghands, ∀ k ∈ Shorthand.cover a.name,
      k ∈ Shorthand.cover b.name → a = b ∨ a = .border ∧ b.name ∈ borderBoxes ∨
        b = .border ∧ a.name ∈ borderBoxes := by
    decide +kernel
  have hwritten : ∀ {sh : Shorthand} {v : Text}, foldText? s sh = some v →
      (foldText? s sh).isSome ∧ sh ∈ .border :: ofLonghands := by
    intro sh v hv
    have hsome : (foldText? s sh).isSome := by rw [hv]; rfl
    exact ⟨hsome, mem_cons.mpr (cases_of_foldText? hsome).symm⟩
  have hgone : ∀ {x : String × Declaration} {sh : Shorthand}, x ∈ (foldedAll s).entries →
      Shorthand.ofName? x.1 = none → (foldText? s sh).isSome → x.1 ∉ Shorthand.cover sh.name := by
    intro x sh hx hname hsh hmem
    have hnone := h.get?_foldedAll_of_mem_cover hsh hmem hname
    rw [Store.get?_of_mem hx] at hnone
    cases hnone
  -- Two names that cover the same one: two longhands are equal, a longhand was folded into the shorthand, and
  -- two shorthands are the border and one of its boxes, which is gone then.
  intro m hm n hn k hkm hkn
  obtain ⟨x, hx, rfl⟩ := Entries.mem_names_iff.mp hm
  obtain ⟨y, hy, rfl⟩ := Entries.mem_names_iff.mp hn
  rcases h.declared_or_written hx with ⟨hxname, -⟩ | ⟨a, v, hxa, hv, -, hxkept⟩
  · obtain rfl := Shorthand.eq_of_mem_cover hxname hkm
    rcases h.declared_or_written hy with ⟨hyname, -⟩ | ⟨b, w, hyb, hw, -, -⟩
    · exact Shorthand.eq_of_mem_cover hyname hkn
    · exact absurd (hyb ▸ hkn) (hgone hx hxname (hwritten hw).1)
  · rcases h.declared_or_written hy with ⟨hyname, -⟩ | ⟨b, w, hyb, hw, -, hykept⟩
    · obtain rfl := Shorthand.eq_of_mem_cover hyname hkn
      exact absurd (hxa ▸ hkm) (hgone hy hyname (hwritten hv).1)
    · obtain ⟨hasome, ha⟩ := hwritten hv
      obtain ⟨hbsome, hb⟩ := hwritten hw
      rcases hapart a ha b hb k (hxa ▸ hkm) (hyb ▸ hkn) with rfl | ⟨rfl, hbox⟩ | ⟨rfl, hbox⟩
      · rw [hxa, hyb]
      · exact absurd ⟨hbox, hasome⟩ hykept
      · exact absurd ⟨hbox, hbsome⟩ hxkept

end Unfolded

end Folding

end CssShorthand
