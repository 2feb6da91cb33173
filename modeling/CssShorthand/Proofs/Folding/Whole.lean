/-
  THE BACKGROUND IS FOLDED AS A WHOLE OR NOT AT ALL.

  The fold of the background writes into the store before it looks at what there is to fold: it declares
  a position, and puts a slash before the size.  `foldable` are the longhands that may be folded, as they
  are declared before.

  1. A text with two characters that are no blanks declares something, since at most one of them is
     dropped as a semicolon (`exists_declarationOfText?`); so what two values are folded into is always
     declared (`exists_declaration_of_partsText?`).
  2. Where a size is folded, a position is folded too, so that the fold goes through whenever the store
     was written to (`two_le_length_iff`).
  3. Either `foldable` is taken out and `background` declared, or the store is as it was
     (`names_foldBackground`, `foldBackground_of_few`).  All else is as it was
     (`get?_foldBackground_of_not_foldable`).

  The headline is `foldBackground_whole`.
-/
import CssShorthand.Proofs.Edit.Outcome
import CssShorthand.Proofs.Folding.Background
import CssShorthand.Proofs.Folding.Places
import CssShorthand.Proofs.Folding.Remains

namespace CssShorthand

open List

/-! ## Texts that declare something

  Cleaning drops one semicolon at most, and no other character that is not blank, if there is no mark.
-/

namespace Cleaning

open Text (inked inked_reverse inked_trimStart inked_trim)

/-- At most one character that is no blank is dropped at the end. -/
theorem length_inked_dropSemicolon (t : Text) :
    (inked t).length ≤ (inked (dropSemicolon t)).length + 1 := by
  unfold dropSemicolon
  split
  · rename_i r hr
    have hreverse : (inked t).length = (inked (';' :: r)).length := by
      rw [← hr, ← length_reverse, ← inked_reverse]
      exact congrArg length (inked_trimStart t.reverse).symm
    have hrest : (inked (r.dropWhile Text.isBlank).reverse).length = (inked r).length := by
      rw [inked_reverse, length_reverse]
      exact congrArg length (inked_trimStart r)
    have hcons : inked (';' :: r) = ';' :: inked r := filter_cons_of_pos (by decide)
    rw [hreverse, hrest, hcons, length_cons]
  · exact Nat.le_succ _

/-- A text without marks, with two characters that are no blanks, declares something. -/
theorem exists_declarationOfText? {t : Text} (hmark : '!' ∉ t) (h : 2 ≤ (inked t).length) :
    ∃ v, Value.declarationOfText? t false = some ⟨v, false⟩ := by
  have hne : (clean t).1 ≠ [] := by
    intro hnil
    have hclean : clean t = (Text.trim (dropSemicolon t), false) := by
      rw [clean, replaceMarks_of_not_mem fun hm => hmark (mem_of_mem_dropSemicolon hm)]
    have hdropped := length_inked_dropSemicolon t
    have hblank : Text.trim (dropSemicolon t) = [] := by rwa [hclean] at hnil
    rw [← inked_trim (dropSemicolon t), hblank] at hdropped
    exact absurd (h.trans hdropped) (by decide)
  obtain ⟨d, hd⟩ : ∃ d, Value.declarationOfText? t false = some d := by
    simp [Value.declarationOfText?, hne]
  have himportant := (declarationOfText?_of_not_mem hmark hd).1
  exact ⟨d.value, hd.trans (by rw [← himportant])⟩

end Cleaning

namespace Folding

open Text (inked inked_append)

/-! ## What is folded is declared

  Joining two values gives two characters that are not blank, and so does a keyword.
-/

/-- Joined values have as many characters that are no blanks as there are values. -/
theorem length_le_length_inked_joined {ws : List Text} (h : ∀ w ∈ ws, inked w ≠ []) :
    ws.length ≤ (inked (joined ws)).length := by
  induction ws with
  | nil => exact Nat.zero_le _
  | cons w ws ih =>
    have hw := length_pos_iff.mpr (h w mem_cons_self)
    have hws := ih fun v hv => h v (mem_cons_of_mem _ hv)
    cases ws with
    | nil => rwa [joined_singleton]
    | cons v ws =>
      have hspace : inked (' ' :: joined (v :: ws)) = inked (joined (v :: ws)) :=
        filter_cons_of_neg (by decide)
      rw [joined_cons_cons, inked_append, hspace, length_append, length_cons]
      omega

/-- The keywords of every property are longer than one character. -/
theorem two_le_length_inked_sharedKeyword {ws : List Text} {k : Text} (hk : sharedKeyword? ws = some k) :
    2 ≤ (inked k).length := by
  have hlong : ∀ k ∈ cssWideKeywords, 2 ≤ (inked k.toList).length := by decide
  unfold sharedKeyword? at hk
  split at hk
  · contradiction
  · dsimp only at hk
    split at hk
    · rename_i hshared
      rw [Bool.and_eq_true, contains_iff_mem] at hshared
      have hlength := hlong _ hshared.1
      rwa [Option.some.inj hk, Text.toString, String.toList_ofList] at hlength
    · contradiction

/-- What values that are not blank, without marks, are folded into is declared, and not important. -/
theorem exists_declaration_of_partsText? {total : Nat} {found : Entries Text} {text : Text}
    (h : ∀ x ∈ found, inked x.2 ≠ [] ∧ '!' ∉ x.2) (htext : partsText? total found = some text) :
    ∃ v, Value.declarationOfText? text false = some ⟨v, false⟩ := by
  unfold partsText? at htext
  split at htext
  · contradiction
  · rename_i hlength
    have hvalues : ∀ w ∈ found.map (·.2), inked w ≠ [] ∧ '!' ∉ w := forall_mem_map.mpr h
    have hjoined : '!' ∉ joined (found.map (·.2)) := not_mem_joined (by decide) fun w hw => (hvalues w hw).2
    have hinked := length_le_length_inked_joined fun w hw => (hvalues w hw).1
    rw [length_map] at hinked
    have hjoined2 : 2 ≤ (inked (joined (found.map (·.2)))).length := by omega
    obtain rfl := Option.some.inj htext
    -- all parts share a keyword, or they are joined
    split
    · refine Cleaning.exists_declarationOfText? (not_mem_getD hjoined) ?_
      cases hk : sharedKeyword? (found.map (·.2)) with
      | none => exact hjoined2
      | some k => exact two_le_length_inked_sharedKeyword hk
    · exact Cleaning.exists_declarationOfText? hjoined hjoined2

/-! ## The longhands that are folded

  From the names to the entries that are read in the prepared store.
-/

/-- The longhands of `background` that are declared and not important, the size only if it can follow a
    position that is not important. -/
def foldable (s : Store) : List String :=
  backgroundLonghands.filter fun n =>
    (s.plain? n).isSome && !(n == "background-size" && positionKept s)

variable {s t : Store} {n : String}

/-- Foldable are the plain longhands, but for a size behind an important position. -/
theorem mem_foldable_iff : n ∈ foldable s ↔ n ∈ backgroundLonghands ∧ (s.plain? n).isSome = true ∧
    (n = "background-size" → positionKept s = false) := by
  simp [foldable, imp_iff_not_or]

/-- No longhand is foldable twice. -/
theorem nodup_foldable (s : Store) : (foldable s).Nodup := nodup_backgroundLonghands.filter _

/-- No name has two plain entries. -/
theorem nodup_names_plainEntries {names : List String} (h : names.Nodup) (s : Store) :
    (s.plainEntries names).names.Nodup :=
  h.sublist (s.names_plainEntries_sublist names)

/-- The names of the parts that are folded: those that may be folded, and the position of a size where none
    was declared. -/
theorem mem_names_prepared_iff (ht : Prepared s t) :
    n ∈ (t.plainEntries (backgroundNames s)).names ↔ n ∈ foldable s ∨
      n = "background-position" ∧ (s.plain? "background-size").isSome = true ∧ s.get? n = none := by
  have hpart : n ∈ backgroundNames s → ((∃ v, t.plain? n = some v) ↔ (backgroundPart? s n).isSome = true) :=
    fun hn => by rw [ht.plain?_eq n hn, Option.isSome_iff_exists]
  rw [Store.mem_names_plainEntries, and_congr_right hpart, mem_backgroundNames_iff, mem_foldable_iff,
    backgroundPart?]
  by_cases hsize : n = "background-size"
  · -- the size is folded if it is declared and may follow its position
    subst hsize
    have hname : "background-size" ≠ "background-position" := by decide
    simp only [if_true, Option.isSome_map, hname, false_and, or_false, true_and, true_imp_iff]
    cases positionKept s <;> simp
  · by_cases hposition : n = "background-position" ∧ (s.plain? "background-size").isSome = true ∧ s.get? n = none
    · have hmem : n ∈ backgroundLonghands := hposition.1 ▸ by decide
      rw [if_neg hsize, if_pos hposition]
      exact iff_of_true ⟨⟨hmem, fun h => hsize h.1⟩, rfl⟩ (Or.inr hposition)
    · rw [if_neg hsize, if_neg hposition]
      simp [hsize, hposition]

/-- At least two parts are folded if at least two longhands may be folded, or a size. -/
theorem two_le_length_iff (ht : Prepared s t) :
    2 ≤ (t.plainEntries (backgroundNames s)).length ↔
      2 ≤ (foldable s).length ∨ "background-size" ∈ foldable s := by
  have hlength : (t.plainEntries (backgroundNames s)).names.length = (t.plainEntries (backgroundNames s)).length :=
    length_map ..
  have hnodup := nodup_names_plainEntries (nodup_backgroundNames s) t
  have hfound := fun n => mem_names_prepared_iff (n := n) ht
  rw [← hlength]
  generalize (t.plainEntries (backgroundNames s)).names = found at hnodup hfound
  by_cases hsize : "background-size" ∈ foldable s
  · -- with the size goes a position, declared or not
    have hplain := (mem_foldable_iff.mp hsize).2.1
    have hposition : "background-position" ∈ found := by
      rw [hfound]
      cases hget : s.get? "background-position" with
      | none => exact Or.inr ⟨rfl, hplain, rfl⟩
      | some d =>
        have hd : d.important = false := by
          simpa [positionKept, hget] using (mem_foldable_iff.mp hsize).2.2 rfl
        exact Or.inl (mem_foldable_iff.mpr ⟨by decide, by simp [Store.plain?, hget, hd], by simp⟩)
    have hboth : ["background-position", "background-size"] ⊆ found := by
      simp [hposition, (hfound _).mpr (Or.inl hsize)]
    exact iff_of_true ((by decide : ["background-position", "background-size"].Nodup).subperm hboth).length_le
      (Or.inr hsize)
  · have hsame : found ~ foldable s := (perm_ext_iff_of_nodup hnodup (nodup_foldable s)).mpr fun n => by
      rw [hfound]
      refine or_iff_left ?_
      rintro ⟨rfl, hplain, hnone⟩
      exact hsize (mem_foldable_iff.mpr ⟨by decide, hplain, by simp [positionKept, hnone]⟩)
    rw [hsame.length_eq, or_iff_left hsize]

/-! ## What the fold does

  The four parts of the statement: what is gone, what is written, what stays, and in which order.
-/

/-- Fewer than two longhands, none of them the size: nothing is done. -/
theorem foldBackground_of_few (h : ¬(2 ≤ (foldable s).length ∨ "background-size" ∈ foldable s)) :
    (foldBackground s).1 = s := by
  obtain ⟨t, ht, hfold, hprepared⟩ := exists_prepared s
  have hnothing : ¬((s.plain? "background-size").isSome = true ∧ positionKept s = false) := fun hsize =>
    h (Or.inr (mem_foldable_iff.mpr ⟨by decide, hsize.1, by simp [hsize.2]⟩))
  rw [if_neg hnothing] at hprepared
  have hnone : partsText? (backgroundNames s).length (t.plainEntries (backgroundNames s)) = none := by
    rw [partsText?, if_pos (Nat.not_le.mp (mt (two_le_length_iff ht).mp h))]
  rw [hfold, foldAvailable_eq (nodup_backgroundNames s), hnone, hprepared]

section

variable (hs : ∀ e ∈ s.entries, Text.trim e.2.value ≠ [] ∧ '!' ∉ e.2.value)

include hs

/-- The parts that are folded are not blank and have no marks, as the declared values. -/
theorem inked_of_mem_prepared (ht : Prepared s t) {x : String × Text}
    (hx : x ∈ t.plainEntries (backgroundNames s)) : inked x.2 ≠ [] ∧ '!' ∉ x.2 := by
  obtain ⟨hname, hget⟩ := Store.mem_plainEntries_iff.mp hx
  have htrim := trimName_backgroundLonghands x.1 (backgroundNames_subset s hname)
  have hdeclared : ∀ v, s.plain? x.1 = some v → inked v ≠ [] ∧ '!' ∉ v := by
    intro v hv
    obtain ⟨hink, hmark⟩ := hs _ ((Store.get?_eq_some_iff htrim).mp (Store.plain?_eq_some_iff.mp hv))
    exact ⟨Text.inked_ne_nil hink, hmark⟩
  have hpart := ht.plain?_eq x.1 hname
  rw [Store.plain?_eq_some_iff.mpr hget, backgroundPart?] at hpart
  split at hpart
  · -- the size, perhaps with a slash before it
    obtain ⟨size, hsize, hslashed⟩ := Option.map_eq_some_iff.mp hpart.symm
    obtain ⟨hink, hmark⟩ := hdeclared size hsize
    rw [← hslashed, slashed]
    split
    · exact ⟨hink, hmark⟩
    · refine ⟨?_, by simpa using hmark⟩
      rw [inked_append]
      exact append_ne_nil_of_right_ne_nil _ hink
  · split at hpart
    · rw [Option.some.inj hpart]
      decide
    · exact hdeclared x.2 hpart.symm

/-- The store once several parts are folded: the names that are left keep their order, and `background` is
    declared. -/
theorem names_foldBackground (h : 2 ≤ (foldable s).length ∨ "background-size" ∈ foldable s) :
    (foldBackground s).1.names =
        s.names.filter (· ∉ foldable s) ++ (if "background" ∈ s.names then [] else ["background"]) ∧
      ∃ v, (foldBackground s).1.get? "background" = some ⟨v, false⟩ := by
  obtain ⟨t, ht, hfold, hprepared⟩ := exists_prepared s
  obtain ⟨text, htext⟩ : ∃ text, partsText? (backgroundNames s).length
      (t.plainEntries (backgroundNames s)) = some text := by
    rw [partsText?, if_neg (Nat.not_lt.mpr ((two_le_length_iff ht).mpr h))]
    exact ⟨_, rfl⟩
  obtain ⟨v, hv⟩ := exists_declaration_of_partsText? (fun x hx => inked_of_mem_prepared hs ht hx) htext
  have hlong : ∀ m ∈ (t.plainEntries (backgroundNames s)).names, trimName m = m := fun m hm =>
    trimName_backgroundLonghands m (backgroundNames_subset s (Store.mem_names_plainEntries.mp hm).1)
  have hnot : "background" ∉ (t.plainEntries (backgroundNames s)).names := fun hm =>
    absurd (backgroundNames_subset s (Store.mem_names_plainEntries.mp hm).1) (by decide)
  rw [hfold, foldAvailable_eq (nodup_backgroundNames s), htext]
  refine ⟨?_, v, by rw [get?_write t hlong trimName_background trimName_background, if_pos rfl, hv]⟩
  dsimp only
  rw [names_write hlong trimName_background hnot hv]
  -- what is taken out of the names before is what may be folded
  have hfound : ∀ n ∈ s.names,
      n ∈ (t.plainEntries (backgroundNames s)).names ↔ n ∈ foldable s := by
    intro n hn
    rw [mem_names_prepared_iff ht]
    refine or_iff_left fun hnone => ?_
    have htrim := s.trimName_of_mem n hn
    rw [Store.get?, htrim] at hnone
    exact Entries.find?_eq_none_iff.mp hnone.2.2 hn
  have hfilter : s.names.filter (· ∉ (t.plainEntries (backgroundNames s)).names) =
      s.names.filter (· ∉ foldable s) := filter_congr fun n hn => by simp only [hfound n hn]
  split at hprepared
  · rename_i hsize
    have hposition : "background-position" ∉ s.names →
        "background-position" ∈ (t.plainEntries (backgroundNames s)).names := fun hnew =>
      (mem_names_prepared_iff ht).mpr (Or.inr ⟨rfl, hsize.1,
        Store.get?_of_not_mem (trimName_backgroundLonghands _ (by decide)) hnew⟩)
    rw [hprepared, filter_append, hfilter]
    by_cases hold : "background-position" ∈ s.names
    · simp [hold]
    · simp [hold, hposition hold]
  · rw [hprepared] at hfilter ⊢
    rw [hfilter]

/-- Once several parts are folded, of the other names those are left that may not be folded. -/
theorem mem_names_foldBackground_iff (h : 2 ≤ (foldable s).length ∨ "background-size" ∈ foldable s)
    (hne : n ≠ "background") : n ∈ (foldBackground s).1.names ↔ n ∈ s.names ∧ n ∉ foldable s := by
  have hnew : n ∉ (if "background" ∈ s.names then [] else ["background"]) := by split <;> simp [hne]
  rw [(names_foldBackground hs h).1, mem_append, or_iff_left hnew, mem_filter, decide_eq_true_iff]

/-- They are in the order in which they were. -/
theorem filter_names_foldBackground (h : 2 ≤ (foldable s).length ∨ "background-size" ∈ foldable s) :
    ((foldBackground s).1.names.filter fun n => n ∉ foldable s ∧ n ≠ "background") =
      s.names.filter fun n => n ∉ foldable s ∧ n ≠ "background" := by
  have hlast : (if "background" ∈ s.names then [] else ["background"]).filter
      (fun n => decide (n ∉ foldable s ∧ n ≠ "background")) = [] := by
    split <;> simp
  rw [(names_foldBackground hs h).1, filter_append, filter_filter, hlast, append_nil]
  exact filter_congr fun n _ => by by_cases hn : n ∈ foldable s <;> simp [hn]

end

/-- A name that is plain neither before nor after is looked up as before, as long as the important
    declarations are kept. -/
theorem get?_eq_of_plain?_eq_none (ht : t.plain? n = none) (hs : s.plain? n = none)
    (h : ∀ d : Declaration, d.important = true → (t.get? n = some d ↔ s.get? n = some d)) :
    t.get? n = s.get? n := by
  have himportant : ∀ {u : Store} {d : Declaration}, u.plain? n = none → u.get? n = some d →
      d.important = true := by
    intro u d hu hd
    rw [Store.plain?, hd] at hu
    simpa using hu
  refine Option.ext fun d => ⟨fun hd => ?_, fun hd => ?_⟩
  · exact (h d (himportant ht hd)).mp hd
  · exact (h d (himportant hs hd)).mpr hd

/-- **What is not folded** is declared as it was. -/
theorem get?_foldBackground_of_not_foldable (htrim : trimName n = n) (hn : n ∉ foldable s)
    (hne : n ≠ "background") : (foldBackground s).1.get? n = s.get? n := by
  by_cases h : 2 ≤ (foldable s).length ∨ "background-size" ∈ foldable s
  · obtain ⟨t, ht, hfold, -⟩ := exists_prepared s
    have hlong : ∀ m ∈ (t.plainEntries (backgroundNames s)).names, trimName m = m := fun m hm =>
      trimName_backgroundLonghands m (backgroundNames_subset s (Store.mem_names_plainEntries.mp hm).1)
    rw [hfold, foldAvailable_eq (nodup_backgroundNames s), partsText?,
      if_neg (Nat.not_lt.mpr ((two_le_length_iff ht).mpr h))]
    dsimp only
    rw [get?_write t hlong trimName_background htrim, if_neg (Ne.symm hne)]
    by_cases hfound : n ∈ (t.plainEntries (backgroundNames s)).names
    · -- the position of a size, which was not declared
      obtain ⟨-, -, hnone⟩ := ((mem_names_prepared_iff ht).mp hfound).resolve_left hn
      rw [if_pos hfound, hnone]
    · rw [if_neg hfound]
      by_cases hname : n ∈ backgroundNames s
      · -- it is important, or it is not declared
        have hafter : t.plain? n = none := Option.eq_none_iff_forall_ne_some.mpr fun v hv =>
          hfound (Store.mem_names_plainEntries.mpr ⟨hname, v, hv⟩)
        have hbefore : s.plain? n = none := by
          by_contra hplain
          have hsome := Option.isSome_iff_ne_none.mpr hplain
          obtain ⟨hmem, hsize⟩ := mem_backgroundNames_iff.mp hname
          refine hn (mem_foldable_iff.mpr ⟨hmem, hsome, ?_⟩)
          rintro rfl
          simpa [hsome] using hsize
        exact get?_eq_of_plain?_eq_none hafter hbefore fun d hd => ht.get?_important n d htrim hd
      · exact ht.get?_of_not_mem n htrim hname
  · rw [foldBackground_of_few h]

/-- What is not foldable stays, and nothing is added to it. -/
theorem mem_foldBackground_iff {d : Declaration} (hn : n ∉ foldable s) (hne : n ≠ "background") :
    (n, d) ∈ (foldBackground s).1.entries ↔ (n, d) ∈ s.entries := by
  by_cases htrim : trimName n = n
  · rw [← Store.get?_eq_some_iff htrim, ← Store.get?_eq_some_iff htrim,
      get?_foldBackground_of_not_foldable htrim hn hne]
  · exact iff_of_false (fun hm => htrim (Store.trimName_of_mem _ n (Entries.mem_names_of_mem hm)))
      fun hm => htrim (s.trimName_of_mem n (Entries.mem_names_of_mem hm))

/-- **The background is folded as a whole or not at all.**  Let no declared value be blank or hold an
    exclamation mark.  Fewer than two longhands that may be folded, and no size: the store is as it was.
    Otherwise none of them is declared any more, and `background` is declared, not important.  In both cases
    all other declarations are as they were and in the order in which they were; a size that is declared
    has the value that it had, and a position that is declared was declared. -/
theorem foldBackground_whole (hs : ∀ e ∈ s.entries, Text.trim e.2.value ≠ [] ∧ '!' ∉ e.2.value) :
    ∃ t, (Edit.fold foldBackground).after s = .ok t ∧
      (if (foldable s).length < 2 ∧ "background-size" ∉ foldable s then t = s
        else (∀ n ∈ foldable s, n ∉ t.names) ∧ ∃ v, ("background", ⟨v, false⟩) ∈ t.entries) ∧
      (∀ n d, n ∉ foldable s → n ≠ "background" → ((n, d) ∈ t.entries ↔ (n, d) ∈ s.entries)) ∧
      (t.names.filter fun n => n ∉ foldable s ∧ n ≠ "background") =
        (s.names.filter fun n => n ∉ foldable s ∧ n ≠ "background") ∧
      (∀ d, ("background-size", d) ∈ t.entries → ("background-size", d) ∈ s.entries) ∧
      ("background-position" ∈ t.names → "background-position" ∈ s.names) := by
  have hafter : (Edit.fold foldBackground).after s = .ok (foldBackground s).1 :=
    (Edit.does_attempt fun s => .ok (foldBackground s)).after_eq s
  refine ⟨_, hafter, ?_⟩
  by_cases h : (foldable s).length < 2 ∧ "background-size" ∉ foldable s
  · have hsame := foldBackground_of_few (s := s) (by rw [not_or, Nat.not_le]; exact h)
    rw [if_pos h, hsame]
    exact ⟨rfl, fun _ _ _ _ => Iff.rfl, rfl, fun _ => id, id⟩
  · have hfolds : 2 ≤ (foldable s).length ∨ "background-size" ∈ foldable s := by
      rwa [← Nat.not_lt, or_iff_not_and_not, not_not]
    obtain ⟨-, v, hv⟩ := names_foldBackground hs hfolds
    -- After the fold no foldable longhand is left; the rest of the statement follows from that.
    have hnone : ∀ n ∈ foldable s, n ∉ (foldBackground s).1.names := by
      intro n hn hm
      have hne : n ≠ "background" := fun hname =>
        absurd (hname ▸ (mem_foldable_iff.mp hn).1 : "background" ∈ backgroundLonghands) (by decide)
      exact ((mem_names_foldBackground_iff hs hfolds hne).mp hm).2 hn
    rw [if_neg h]
    refine ⟨⟨hnone, v, (Store.get?_eq_some_iff trimName_background).mp hv⟩,
      fun n d hn hne => mem_foldBackground_iff hn hne, filter_names_foldBackground hs hfolds, fun d hd => ?_,
      fun hm => ((mem_names_foldBackground_iff hs hfolds (by decide)).mp hm).1⟩
    have hname : "background-size" ≠ "background" := by decide
    exact (mem_foldBackground_iff (fun hn => hnone _ hn (Entries.mem_names_of_mem hd)) hname).mp hd

/-- A size alone among other declarations, and an important color. -/
def sized : Store :=
  .ofList [("margin", .text "1px".toList), ("background-color", .text "red !important".toList),
    ("background-size", .text "2px".toList), ("padding", .text "3px".toList)]

/-- A size alone, beside an important color and two other shorthands: the size is folded with the initial
    position, and the others stay in their order. -/
theorem sized_foldBackground_whole :
    (∀ e ∈ sized.entries, Text.trim e.2.value ≠ [] ∧ '!' ∉ e.2.value) ∧
    ∃ t, (Edit.fold foldBackground).after sized = .ok t ∧
      (if (foldable sized).length < 2 ∧ "background-size" ∉ foldable sized then t = sized
        else (∀ n ∈ foldable sized, n ∉ t.names) ∧ ∃ v, ("background", ⟨v, false⟩) ∈ t.entries) ∧
      (∀ n d, n ∉ foldable sized → n ≠ "background" → ((n, d) ∈ t.entries ↔ (n, d) ∈ sized.entries)) ∧
      (t.names.filter fun n => n ∉ foldable sized ∧ n ≠ "background") =
        (sized.names.filter fun n => n ∉ foldable sized ∧ n ≠ "background") ∧
      (∀ d, ("background-size", d) ∈ t.entries → ("background-size", d) ∈ sized.entries) ∧
      ("background-position" ∈ t.names → "background-position" ∈ sized.names) := by
  have hs : ∀ e ∈ sized.entries, Text.trim e.2.value ≠ [] ∧ '!' ∉ e.2.value := by decide +kernel
  exact ⟨hs, foldBackground_whole hs⟩

end Folding

end CssShorthand
