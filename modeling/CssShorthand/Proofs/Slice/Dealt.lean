/-
  SLICING DROPS NO TEXT.

  A list is dealt into piles (`Dealt`) when its elements go to the piles one after the other, in their
  order: each pile is a part of the list, and each element is on one pile.

    1.  What stands together in a list can be put on a pile of its own (`Dealt.insert`), and the piles can
        stand in any order (`Dealt.perm`).
    2.  Where a part is taken out of a value, the characters that are no blanks are those that are left,
        those of the part, and the slash before it (`dealt_takePart`).
    3.  So they are, part by part, in the end as well (`dealt_takeParts`), and writing what is left with
        single spaces takes nothing from it (`Text.inked_collapse`).
    4.  The longhands of a sliced value get what was found, in an order of their own
        (`Slices.exists_ofSlices`), and the warning says what was left.

  The headline is `slice_dealt`.
-/
import CssShorthand.Expansion
import CssShorthand.Proofs.Slice.Uncut

namespace CssShorthand

open List

/-! ## Dealing

  The relation is a shuffle of several lists: it keeps the order within each pile, which a permutation of
  characters would not.
-/

section Dealing

variable {α : Type} {l a b : List α} {ps qs : List (List α)}

/-- The list is dealt into the piles: each of its elements goes to one of them, in order.  So each pile is
    a subsequence of the list, and no two of them share an element. -/
inductive Dealt : List α → List (List α) → Prop
  | nil {ps : List (List α)} (h : ∀ p ∈ ps, p = []) : Dealt [] ps
  | cons (before : List (List α)) {x : α} {l p : List α} {after : List (List α)}
      (h : Dealt l (before ++ p :: after)) : Dealt (x :: l) (before ++ (x :: p) :: after)

namespace Dealt

/-- The order of the piles plays no role. -/
theorem perm (h : Dealt l ps) (hperm : ps ~ qs) : Dealt l qs := by
  induction h generalizing qs with
  | nil h => exact .nil fun p hp => h p (hperm.mem_iff.mpr hp)
  | @cons before x l p after _ ih =>
    -- the pile of the first element stands among the others at another place
    obtain ⟨before', after', rfl⟩ := append_of_mem (hperm.subset (mem_append_right _ mem_cons_self))
    have hothers : before ++ after ~ before' ++ after' :=
      (perm_middle.symm.trans (hperm.trans perm_middle)).cons_inv
    exact .cons before' (ih (perm_middle.trans ((hothers.cons p).trans perm_middle.symm)))

/-- An empty text may be among those that are dealt out. -/
theorem nil_cons (h : Dealt l ps) : Dealt l ([] :: ps) := by
  induction h with
  | nil h => exact .nil (forall_mem_cons.mpr ⟨rfl, h⟩)
  | cons before _ ih => exact .cons ([] :: before) ih

/-- What stands in front of a list goes on a pile of its own. -/
theorem append_cons (h : Dealt l ps) (m : List α) : Dealt (m ++ l) (m :: ps) := by
  induction m with
  | nil => exact h.nil_cons
  | cons x m ih => exact .cons [] ih

/-- **What stands together in a list goes on a pile of its own**, if the rest is dealt. -/
theorem insert (m : List α) (h : Dealt (a ++ b) ps) : Dealt (a ++ (m ++ b)) (m :: ps) := by
  induction a generalizing ps with
  | nil => exact h.append_cons m
  | cons x a ih =>
    -- what stands before goes where it went, behind one pile more
    cases h with
    | cons before h => exact .cons (m :: before) (ih h)

end Dealt

end Dealing

/-! ## The characters of words

  Collapsing drops blanks and nothing else.
-/

namespace Text

/-- The words of a text hold its characters that are no blanks. -/
theorem flatten_words (t : Text) : (words t).flatten = inked t := by
  induction t with
  | nil => rfl
  | cons c t ih =>
    have hextend : ∀ ws : List Text, (extendFirst c ws).flatten = c :: ws.flatten := by
      intro ws
      cases ws <;> rfl
    rw [words]
    cases hc : isBlank c with
    | true =>
      have hskip : inked (c :: t) = inked t := filter_cons_of_neg (by simp [hc])
      rw [hskip, ← ih]
      rfl
    | false =>
      have hcons : inked (c :: t) = c :: inked t := filter_cons_of_pos (by simp [hc])
      rw [hcons, ← ih]
      cases atBreak t with
      | true => rfl
      | false => exact hextend (words t)

/-- Collapsing moves white space only. -/
theorem inked_collapse (t : Text) : inked (collapse t) = inked t := by
  rw [← flatten_words, Part.words_collapse, flatten_words]

end Text

/-! ## Taking the parts out

  A step moves one stretch of the value to a pile. The slash of a size goes to a pile of its own, since it
  is neither stored nor left.
-/

namespace Slices

open Text (inked inked_append inked_trim)

variable {p : Part} {ps table : List Part} {v rest text : Text} {piles : List Text}
  {found : List (String × Text)} {names : List (String × String)} {keys : List String}

/-- **A part is taken out**: the characters of the value are dealt to the part, to the slash that it stands
    after, and to the piles of what is left. -/
theorem dealt_takePart (htake : takePart v p = (some text, rest)) (h : Dealt (inked rest) piles) :
    Dealt (inked v) (inked text :: (slash p ++ piles)) := by
  unfold takePart at htake
  split at htake
  · rename_i place hplace
    obtain ⟨hv, hmatches, -⟩ := Part.matches_of_locate hplace
    obtain ⟨htext, rfl⟩ := Prod.mk.inj htake
    obtain rfl := Option.some.inj htext
    have hrest : inked (place.before ++ ' ' :: place.after) = inked place.before ++ inked place.after :=
      inked_append ..
    rw [hrest] at h
    rw [hv, inked_append, inked_append, append_assoc]
    cases hslash : p.followsSlash with
    | false => simpa [Part.content, slash, hslash] using h.insert (inked place.text)
    | true =>
      -- the slash is one of the characters, and goes on a pile of its own
      obtain ⟨b, u, ht, -⟩ := Part.exists_of_matches_slashed hslash hmatches
      generalize b ++ u = t at ht
      have hcontent : inked (p.content place.text) = inked t := by
        simp [Part.content, hslash, ht, inked_trim]
      have htext : inked place.text = ['/'] ++ inked t := by
        rw [ht]
        rfl
      rw [hcontent, htext, append_assoc]
      have hpiles : Dealt _ (['/'] :: inked t :: piles) := (h.insert (inked t)).insert ['/']
      simpa [slash, hslash] using hpiles.perm (Perm.swap ..)
  · simp at htake

/-- A part that finds nothing leaves the value as it was, its white space included. -/
theorem rest_of_takePart (htake : takePart v p = (none, rest)) : rest = v := by
  unfold takePart at htake
  split at htake
  · simp at htake
  · exact (Prod.mk.inj htake).2.symm

/-- **Part by part the characters are dealt** to what is found, to what is left, and to the slash. -/
theorem dealt_takeParts (hslash : ∀ p ∈ ps, p.followsSlash = (p.suffix == "-size"))
    (hnodup : (ps.map (·.suffix)).Nodup) (v : Text) :
    Dealt (inked v) ((takeParts v ps).1.map (fun f => inked f.2) ++
      inked (takeParts v ps).2 :: sizeSlash (takeParts v ps).1) := by
  induction ps generalizing v with
  | nil => simpa [takeParts, sizeSlash] using (Dealt.nil (forall_mem_nil _)).append_cons (inked v)
  | cons p ps ih =>
    rw [map_cons, nodup_cons] at hnodup
    have hlater := ih (fun q hq => hslash q (mem_cons_of_mem _ hq)) hnodup.2
    rw [takeParts]
    cases htake : takePart v p with
    | mk here rest =>
      cases here with
      | none =>
        rw [← rest_of_takePart htake]
        exact hlater rest
      | some text =>
        have hdealt := dealt_takePart htake (hlater rest)
        dsimp only
        rw [sizeSlash_cons text (hslash p mem_cons_self) hnodup.1, map_cons, cons_append]
        refine hdealt.perm (Perm.cons _ ?_)
        calc slash p ++ (_ ++ inked _ :: sizeSlash _)
          _ ~ _ ++ (slash p ++ inked _ :: sizeSlash _) := perm_append_comm_assoc ..
          _ ~ _ ++ inked _ :: (slash p ++ sizeSlash _) := perm_middle.append_left _

/-! ## What becomes of what is found

  From what is found to what is stored: each suffix of the table is the suffix of one longhand, so nothing
  is overwritten on the way.
-/

/-- What is found stands in the order of the table. -/
theorem sublist_takeParts (v : Text) (ps : List Part) :
    (takeParts v ps).1.map (·.1) <+ ps.map (·.suffix) := by
  induction ps generalizing v with
  | nil => exact .refl _
  | cons p ps ih =>
    rw [takeParts]
    cases (takePart v p).1 with
    | none => exact (ih _).cons _
    | some text => exact (ih _).cons_cons _

/-- Looked up in its own order, all that is found is met once. -/
theorem filterMap_lookup (hkeys : keys.Nodup) (h : found.map (·.1) <+ keys) :
    keys.filterMap (lookup · found) = found.map (·.2) := by
  induction keys generalizing found with
  | nil =>
    obtain rfl : found = [] := by simpa using h
    rfl
  | cons k keys ih =>
    obtain ⟨hk, hrest⟩ := nodup_cons.mp hkeys
    rcases sublist_cons_iff.mp h with hfound | ⟨ks, hks, hfound⟩
    · have hnone : found.lookup k = none := by
        rw [lookup_eq_none_iff]
        intro f hf
        exact bne_iff_ne.mpr fun heq => hk (hfound.subset (heq ▸ mem_map_of_mem hf))
      simp only [filterMap_cons, hnone]
      exact ih hrest hfound
    · obtain ⟨⟨key, text⟩, found, rfl, rfl, rfl⟩ := map_eq_cons_iff.mp hks
      have hlater : keys.filterMap (lookup · ((key, text) :: found)) = keys.filterMap (lookup · found) := by
        refine filterMap_congr fun j hj => ?_
        have hne : (j == key) = false := beq_false_of_ne fun heq => hk (heq ▸ hj)
        rw [lookup_cons, hne]
      simp only [filterMap_cons, lookup_cons_self, hlater, ih hrest hfound, map_cons]

/-- **All that is found goes to the longhands**, and what is left to none of them. -/
theorem exists_ofSlices (hnodup : (table.map (·.suffix)).Nodup)
    (hnames : names.map (·.1) ~ table.map (·.suffix)) (v : Text) :
    ∃ entries, Expansion.ofSlices names (slice v table) = .longhands entries (slice v table).remaining ∧
      entries.map (·.2) ~ (slice v table).found.map (·.2) := by
  refine ⟨_, rfl, ?_⟩
  have hvalues : (names.filterMap fun x => ((slice v table).get? x.1).map (x.2, ·)).map (·.2) =
      (names.map (·.1)).filterMap (slice v table).get? := by
    rw [map_filterMap, filterMap_map]
    refine filterMap_congr fun x _ => ?_
    rw [Option.map_map]
    exact Option.map_id'
  calc (names.filterMap fun x => ((slice v table).get? x.1).map (x.2, ·)).map (·.2)
    _ = (names.map (·.1)).filterMap (slice v table).get? := hvalues
    _ ~ (table.map (·.suffix)).filterMap (slice v table).get? := hnames.filterMap _
    _ = (slice v table).found.map (·.2) := filterMap_lookup hnodup (sublist_takeParts v table)

end Slices

/-- The shorthands whose values are sliced have a longhand for each part. -/
theorem Shorthand.perm_longhandOf {s : Shorthand}
    (hs : s.parts ∈ [Part.background, Part.border, Part.listStyle]) :
    s.longhandOf.map (·.1) ~ s.parts.map (·.suffix) ∧
      ∀ value, s.expandOwn value = .ok (.ofSlices s.longhandOf (slice value s.parts)) := by
  cases s with
  | box b => simp [parts, Part.background, Part.border, Part.listStyle] at hs
  | font => simp [parts, Part.background, Part.border, Part.listStyle] at hs
  | borderSide d => exact ⟨by cases d <;> decide +kernel, fun _ => rfl⟩
  | _ => exact ⟨by decide +kernel, fun _ => rfl⟩

/-- What is ignored is said in full. -/
theorem Notice.infix_unknownComponent (ignored value : Text) (name : String) :
    ignored <:+: (Notice.unknownComponent ignored name value).message.toList := by
  have hmiddle (a b c d e f : String) :
      ignored <:+: (a ++ Text.toString ignored ++ b ++ c ++ d ++ e ++ f).toList := by
    simp only [String.toList_append, append_assoc, Text.toString, String.toList_ofList]
    exact infix_append' ..
  exact hmiddle ..

open Text (inked)

/-- **Slicing drops no text.**  The characters of a value that are no blanks are dealt to the texts that
    are found, to what is left, and to the slash of the size if one is found.  A shorthand sets its
    longhands to these texts, and its warning holds all that is left. -/
theorem slice_dealt {table : List Part} (htable : table ∈ [Part.background, Part.border, Part.listStyle])
    (value : Text) :
    Dealt (inked value) ((slice value table).found.map (fun f => inked f.2) ++
      inked (slice value table).remaining ::
        if ((slice value table).get? "-size").isSome then [['/']] else []) ∧
    ∀ s : Shorthand, s.parts = table → ∃ entries ignored,
      s.expandOwn value = .ok (.longhands entries ignored) ∧
      Dealt (inked value) (entries.map (fun e => inked e.2) ++
        inked ignored :: if ((slice value table).get? "-size").isSome then [['/']] else []) ∧
      ∀ name, ignored ≠ [] → ∃ n ∈ Expansion.notices name value (.longhands entries ignored),
        n.level = .warning ∧ ignored <:+: n.message.toList := by
  have hdealt := Slices.dealt_takeParts (Slices.followsSlash_eq htable) (Slices.nodup_suffixes htable) value
  rw [← Text.inked_collapse (Slices.takeParts value table).2] at hdealt
  refine ⟨hdealt, ?_⟩
  rintro s rfl
  obtain ⟨hnames, hexpand⟩ := Shorthand.perm_longhandOf htable
  obtain ⟨entries, hentries, hperm⟩ := Slices.exists_ofSlices (Slices.nodup_suffixes htable) hnames value
  have hpiles : (slice value s.parts).found.map (fun f => inked f.2) ~ entries.map fun e => inked e.2 := by
    simpa [Function.comp_def] using (hperm.map inked).symm
  refine ⟨entries, _, (hexpand value).trans (congrArg _ hentries), hdealt.perm (hpiles.append_right _), ?_⟩
  intro name hne
  have hnotices : Expansion.notices name value (.longhands entries (slice value s.parts).remaining) =
      [.unknownComponent (slice value s.parts).remaining name value] := if_neg (by simpa using hne)
  exact ⟨_, hnotices ▸ mem_singleton_self _, rfl, Notice.infix_unknownComponent ..⟩

/-- A background with a size on a line of its own, and two numbers that are no part of it. -/
def numberedBackground : Text := "3 left /\n 1px auto red 4".toList

/-- A number without a unit fits no part: both stay behind, and the warning names them.  The other characters
    are dealt out to the longhands. -/
theorem numberedBackground_dealt :
    Dealt "3left/1pxautored4".toList
        ["red".toList, "1pxauto".toList, "left".toList, "34".toList, ['/']] ∧
      ∃ entries, Shorthand.background.expandOwn numberedBackground = .ok (.longhands entries "3 4".toList) ∧
        ∃ n ∈ Expansion.notices "background" numberedBackground (.longhands entries "3 4".toList),
          n.level = .warning ∧ "3 4".toList <:+: n.message.toList := by
  have hbackground : Part.background ∈ [Part.background, Part.border, Part.listStyle] := mem_cons_self
  obtain ⟨hdealt, hsets⟩ := slice_dealt hbackground numberedBackground
  obtain ⟨entries, ignored, hexpand, -, hsaid⟩ := hsets .background rfl
  have hslice : slice numberedBackground Part.background = ⟨[("-color", "red".toList),
      ("-size", "1px auto".toList), ("-position", "left".toList)], "3 4".toList⟩ := by decide +kernel
  have hignored : ignored = "3 4".toList := by
    have hexpanded : Except.ok (Expansion.ofSlices _ (slice numberedBackground Part.background)) =
      Except.ok (.longhands entries ignored) := hexpand
    rw [hslice] at hexpanded
    exact (Expansion.longhands.inj (Except.ok.inj hexpanded)).2.symm
  subst hignored
  rw [hslice] at hdealt
  exact ⟨hdealt, entries, hexpand, hsaid "background" (by decide)⟩

end CssShorthand
