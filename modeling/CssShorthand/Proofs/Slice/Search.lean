/-
  WHERE A PART IS FOUND.

  A text that a pattern matches is among the ways that `ends` lists, whatever follows it
  (`mem_ends_of_matches`).  So a part is found at a place of a value if the pattern matches there up to
  a break, and in one way only (`Part.locate_of_only`).

  Before this place the search passes what is no part: blanks (`Part.locate_blank`), and words of which
  what the pattern matches is not accepted (`Part.locate_rejected`).

  A search gives a place: the text before it, the text found, and the text behind. Stepping over a character
  puts it in front of the text before; the lemmas on `Place.behind` collect such steps, so that a search
  over a long text is stated with one place.
-/
import CssShorthand.Proofs.Slice.Match

namespace CssShorthand

open List

namespace Text

variable {u v r s w : Text}

/-- There is one way to cut a word off. -/
theorem eq_of_append_of_atBreak (hu : ∀ c ∈ u, isBlank c = false) (hv : ∀ c ∈ v, isBlank c = false)
    (hr : atBreak r = true) (hs : atBreak s = true) (h : u ++ r = v ++ s) : u = v := by
  have hstop : ∀ {c : Char} {t t' : Text}, isBlank c = false → atBreak t = true → t ≠ c :: t' := by
    rintro c _ t' hc ht rfl
    rw [atBreak, hc] at ht
    contradiction
  induction u generalizing v with
  | nil =>
    cases v with
    | nil => rfl
    | cons c v => exact absurd h (hstop (hv c mem_cons_self) hr)
  | cons c u ih =>
    cases v with
    | nil => exact absurd h.symm (hstop (hu c mem_cons_self) hs)
    | cons d v =>
      obtain ⟨rfl, hrest⟩ := cons.inj h
      rw [ih (fun x hx => hu x (mem_cons_of_mem _ hx)) (fun x hx => hv x (mem_cons_of_mem _ hx)) hrest]

end Text

namespace Pattern

/-- **What a pattern matches is listed**, whatever follows. -/
theorem mem_ends_of_matches {p : Pattern} {u : Text} (h : Matches p u) (r : Text) :
    r ∈ ends p (u ++ r) := by
  induction h generalizing r with
  | empty => exact mem_singleton_self r
  | char hc => simp [ends, hc]
  | word hw => simp [ends, Text.dropFolded?_append hw]
  | @seq p q u v _ _ ihp ihq =>
    rw [append_assoc]
    exact mem_flatMap.mpr ⟨v ++ r, ihp (v ++ r), ihq r⟩
  | left _ ih => exact mem_append_left _ (ih r)
  | right _ ih => exact mem_append_right _ (ih r)
  | done =>
    rw [nil_append, ends, repeated]
    exact mem_append_right _ (mem_singleton_self r)
  | @more p u v _ _ ihp ihq =>
    cases u with
    | nil => exact ihq r
    | cons c u =>
      -- A step that takes something is repeated.
      have hlt : (v ++ r).length < (c :: u ++ v ++ r).length := by
        simp only [length_append, length_cons]
        omega
      rw [ends, repeated]
      refine mem_append_left _ (mem_flatMap.mpr ⟨v ++ r, ?_, ?_⟩)
      · rw [append_assoc]
        exact ihp (v ++ r)
      · rw [dif_pos hlt]
        exact ihq r

/-- A text is matched if one way to match it leaves nothing. -/
theorem nil_mem_ends_iff {p : Pattern} {u : Text} : [] ∈ ends p u ↔ Matches p u := by
  constructor
  · intro h
    obtain ⟨v, hv, hm⟩ := matches_of_mem_ends h
    rw [append_nil] at hv
    exact hv ▸ hm
  · intro h
    simpa using mem_ends_of_matches h []

end Pattern

/-- The place with a text in front of what is before it. -/
def Place.behind (w : Text) (q : Place) : Place := { q with before := w ++ q.before }

namespace Place

variable (v w : Text) (c : Char)

@[simp] theorem behind_mk (a t b : Text) : behind w ⟨a, t, b⟩ = ⟨w ++ a, t, b⟩ := rfl

@[simp] theorem behind_nil : behind [] = id := rfl

@[simp] theorem push_comp_behind : (fun q : Place => q.push c) ∘ behind w = behind (c :: w) := rfl

@[simp] theorem behind_comp_push : behind w ∘ (fun q : Place => q.push c) = behind (w ++ [c]) := by
  funext q
  simp [behind, push]

@[simp] theorem behind_comp_behind : behind w ∘ behind v = behind (w ++ v) := by
  funext q
  simp [behind]

end Place

namespace Part

variable {p : Part} {c : Char} {t u r w : Text}

/-- A part that begins like a word: not with a blank, and after no slash. -/
structure IsWord (p : Part) : Prop where
  followsSlash : p.followsSlash = false
  starts : ∀ u, Pattern.Matches p.pattern u → ∃ c v, u = c :: v ∧ Text.isBlank c = false

/-- A part that is a whole word asks for no slash, so its pattern is the full one. -/
theorem IsWord.fullPattern_eq (h : p.IsWord) : p.fullPattern = p.pattern := by
  simp [fullPattern, h.followsSlash]

/-- A part that is a whole word is stored as it was taken. -/
theorem IsWord.content_eq (h : p.IsWord) (u : Text) : p.content u = u := by
  simp [content, h.followsSlash]

/-- Within a word no part begins. -/
theorem matchAt?_false (h : p.IsWord) (t : Text) : p.matchAt? false t = none := by
  simp [matchAt?, h.followsSlash]

/-- What a part takes is matched by its pattern up to a break. -/
theorem IsWord.of_matchAt? (h : p.IsWord) {afterBreak : Bool} (hm : p.matchAt? afterBreak t = some (u, r)) :
    t = u ++ r ∧ Pattern.Matches p.pattern u ∧ Text.atBreak r = true := by
  obtain ⟨ht, hu⟩ := matches_of_matchAt? hm
  refine ⟨ht, h.fullPattern_eq ▸ hu, ?_⟩
  unfold matchAt? at hm
  split at hm
  · obtain ⟨s, hs, hsr⟩ := Option.map_eq_some_iff.mp hm
    rw [← (Prod.mk.inj hsr).2]
    exact find?_some hs
  · contradiction

/-- A part takes the only text up to a break that its pattern matches. -/
theorem matchAt?_of_only (h : p.IsWord) (hu : Pattern.Matches p.pattern u) (hr : Text.atBreak r = true)
    (honly : ∀ v s, u ++ r = v ++ s → Pattern.Matches p.pattern v → Text.atBreak s = true → v = u) :
    p.matchAt? true (u ++ r) = some (u, r) := by
  have hsome : (p.matchAt? true (u ++ r)).isSome = true := by
    simp only [matchAt?, Bool.true_or, if_true, Option.isSome_map, find?_isSome]
    exact ⟨r, h.fullPattern_eq ▸ Pattern.mem_ends_of_matches hu r, hr⟩
  obtain ⟨⟨v, s⟩, hvs⟩ := Option.isSome_iff_exists.mp hsome
  obtain ⟨happend, hv, hs⟩ := h.of_matchAt? hvs
  obtain rfl := honly v s happend hv hs
  rw [hvs, append_cancel_left happend]

/-- **A part is found** where its pattern matches one text only up to a break, and that is accepted. -/
theorem locate_of_only (h : p.IsWord) (hu : Pattern.Matches p.pattern u) (haccepts : p.accepts u = true)
    (hr : Text.atBreak r = true)
    (honly : ∀ v s, u ++ r = v ++ s → Pattern.Matches p.pattern v → Text.atBreak s = true → v = u) :
    p.locate 0 true (u ++ r) = some ⟨[], u, r⟩ := by
  have hmatch := matchAt?_of_only h hu hr honly
  obtain ⟨c, v, rfl, -⟩ := h.starts u hu
  rw [cons_append] at hmatch ⊢
  rw [locate, hmatch]
  simp [h.content_eq, haccepts]

/-- The search passes a blank. -/
theorem locate_blank (h : p.IsWord) (hc : Text.isBlank c = true) (afterBreak : Bool) (t : Text) :
    p.locate 0 afterBreak (c :: t) = (p.locate 0 true t).map (·.push c) := by
  have hnone : p.matchAt? afterBreak (c :: t) = none := by
    cases hm : p.matchAt? afterBreak (c :: t) with
    | none => rfl
    | some x =>
      obtain ⟨u, r⟩ := x
      obtain ⟨ht, hu, -⟩ := h.of_matchAt? hm
      obtain ⟨d, v, rfl, hd⟩ := h.starts u hu
      rw [(cons.inj ht).1, hd] at hc
      contradiction
  rw [locate, hnone]
  simp [hc]

/-- The search passes the rest of a word, and the space behind it. -/
theorem locate_within (h : p.IsWord) (hw : ∀ c ∈ w, Text.isBlank c = false) {skip : Nat}
    (hskip : skip ≤ w.length) (t : Text) :
    p.locate skip false (w ++ ' ' :: t) =
      (p.locate 0 true t).map (Place.behind (w ++ [' '])) := by
  induction w generalizing skip with
  | nil =>
    obtain rfl : skip = 0 := by simpa using hskip
    rw [nil_append, locate, matchAt?_false h]
    rfl
  | cons c w ih =>
    have hc := hw c mem_cons_self
    have hrest : ∀ {k : Nat}, k ≤ w.length → _ := ih fun d hd => hw d (mem_cons_of_mem _ hd)
    cases skip with
    | zero =>
      rw [cons_append, locate, matchAt?_false h]
      simp [hc, hrest (Nat.zero_le _)]
    | succ skip =>
      rw [cons_append, locate]
      simp [hc, hrest (Nat.le_of_succ_le_succ hskip)]

/-- **The search passes a word that is not accepted**, and the space behind it. -/
theorem locate_rejected (h : p.IsWord) (hne : w ≠ []) (hw : ∀ c ∈ w, Text.isBlank c = false)
    (hreject : ∀ v s, w ++ ' ' :: t = v ++ s → Pattern.Matches p.pattern v → Text.atBreak s = true →
      v = w ∧ p.accepts v = false) :
    p.locate 0 true (w ++ ' ' :: t) =
      (p.locate 0 true t).map (Place.behind (w ++ [' '])) := by
  obtain ⟨c, w, rfl⟩ := exists_cons_of_ne_nil hne
  have hc := hw c mem_cons_self
  have hrest : ∀ {k : Nat}, k ≤ w.length → _ := fun hk =>
    locate_within h (fun d hd => hw d (mem_cons_of_mem _ hd)) hk t
  rw [cons_append, locate]
  split
  · rename_i u r hm
    obtain ⟨ht, hu, hr⟩ := h.of_matchAt? hm
    obtain ⟨rfl, haccepts⟩ := hreject u r ht hu hr
    rw [h.content_eq, haccepts, hc]
    simp [hrest]
  · rw [hc]
    simp [hrest]

end Part

end CssShorthand
