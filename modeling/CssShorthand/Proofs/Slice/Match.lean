/-
  WHAT A PATTERN MATCHES, AND WHAT SLICING FINDS.

  `Pattern.Matches p u` says that `p` matches the text `u`, by the form of `p`; `ends` lists what is
  left behind such texts (`matches_of_mem_ends`).  A text that a pattern matches is made of the
  characters that the pattern is made of (`Uses`).

  Slicing finds texts that the patterns of the parts match (`found_of_mem_takeParts`), made of
  characters of the value and of the spaces that are left where a part was.

  The program matches with backtracking; a proof wants to know what a match looks like. `Matches` has one
  rule for each way to build a pattern, so a hypothesis on a match is taken apart by cases, and what a table
  of keywords matches is a statement about its words.
-/
import CssShorthand.Proofs.Declaration.Cleaning
import CssShorthand.Slice

namespace CssShorthand

namespace Pattern

/-- The texts that a pattern matches. -/
inductive Matches : Pattern → Text → Prop
  | empty : Matches .empty []
  | char {isIn : Char → Bool} {c : Char} (h : isIn c = true) : Matches (.char isIn) [c]
  | word {w u : Text} (h : w.map Text.foldCase = u.map Text.foldCase) : Matches (.word w) u
  | seq {p q : Pattern} {u v : Text} (hp : Matches p u) (hq : Matches q v) :
      Matches (.seq p q) (u ++ v)
  | left {p q : Pattern} {u : Text} (hp : Matches p u) : Matches (.either p q) u
  | right {p q : Pattern} {u : Text} (hq : Matches q u) : Matches (.either p q) u
  | done {p : Pattern} : Matches (.many p) []
  | more {p : Pattern} {u v : Text} (hp : Matches p u) (hq : Matches (.many p) v) :
      Matches (.many p) (u ++ v)

/-- A pattern repeated: each round takes a match of it. By induction on the text, which each round shortens.
    -/
theorem matches_of_mem_repeated {p : Pattern} {t r : Text}
    (hp : ∀ t, ∀ r ∈ ends p t, ∃ u, t = u ++ r ∧ Matches p u) (h : r ∈ repeated (ends p) t) :
    ∃ u, t = u ++ r ∧ Matches (.many p) u := by
  fun_induction repeated (ends p) t with
  | case1 t ih =>
    simp only [List.mem_append, List.mem_flatMap, List.mem_singleton] at h
    rcases h with ⟨s, hs, hr⟩ | rfl
    · split at hr
      · rename_i hlt
        obtain ⟨v, hv, hmv⟩ := ih s hlt hr
        obtain ⟨u, hu, hmu⟩ := hp t s hs
        exact ⟨u ++ v, by rw [hu, hv, List.append_assoc], .more hmu hmv⟩
      · simp at hr
    · exact ⟨[], rfl, .done⟩

/-- Each way to match takes a text that the pattern matches. -/
theorem matches_of_mem_ends {p : Pattern} {t r : Text} (h : r ∈ ends p t) :
    ∃ u, t = u ++ r ∧ Matches p u := by
  -- On the pattern, one case for each way to build one.
  induction p generalizing t r with
  | empty =>
    obtain rfl : r = t := by simpa [ends] using h
    exact ⟨[], rfl, .empty⟩
  | char isIn =>
    cases t with
    | nil => simp [ends] at h
    | cons c t =>
      simp only [ends] at h
      split at h
      · rename_i hc
        rw [List.mem_singleton.mp h]
        exact ⟨[c], rfl, .char hc⟩
      · simp at h
  | word w =>
    simp only [ends, Option.mem_toList] at h
    obtain ⟨u, hu, hw⟩ := Text.map_foldCase_of_dropFolded? h
    exact ⟨u, hu, .word hw⟩
  | seq p q ihp ihq =>
    simp only [ends, List.mem_flatMap] at h
    obtain ⟨s, hs, hr⟩ := h
    obtain ⟨u, hu, hmu⟩ := ihp hs
    obtain ⟨v, hv, hmv⟩ := ihq hr
    exact ⟨u ++ v, by rw [hu, hv, List.append_assoc], .seq hmu hmv⟩
  | either p q ihp ihq =>
    rcases List.mem_append.mp h with h | h
    · obtain ⟨u, hu, hmu⟩ := ihp h
      exact ⟨u, hu, .left hmu⟩
    · obtain ⟨u, hu, hmu⟩ := ihq h
      exact ⟨u, hu, .right hmu⟩
  | many p ih => exact matches_of_mem_repeated (fun _ _ => ih) h

/-! ## What compound patterns match

  Sequences, choices and bounded repetitions are built from the basic patterns, and are taken apart by these
  lemmas.
-/

/-- No patterns in a row take nothing. -/
theorem matches_all_nil_iff {t : Text} : Matches (all []) t ↔ t = [] :=
  ⟨fun h => by cases h; rfl, fun h => h ▸ .empty⟩

/-- Patterns one after the other match texts one after the other. -/
theorem matches_all_cons_iff {p : Pattern} {ps : List Pattern} {t : Text} :
    Matches (all (p :: ps)) t ↔ ∃ u v, t = u ++ v ∧ Matches p u ∧ Matches (all ps) v := by
  constructor
  · intro h
    cases h with
    | seq hp hq => exact ⟨_, _, rfl, hp, hq⟩
  · rintro ⟨u, v, rfl, hp, hq⟩
    exact .seq hp hq

/-- The pattern that never matches. -/
theorem not_matches_never {t : Text} : ¬Matches never t := by
  intro h
  cases h with
  | char hc => contradiction

theorem not_matches_oneOf_nil {t : Text} : ¬Matches (oneOf []) t := not_matches_never

/-- One of several patterns matches. -/
theorem matches_oneOf_cons_iff {p : Pattern} {ps : List Pattern} {t : Text} :
    Matches (oneOf (p :: ps)) t ↔ Matches p t ∨ Matches (oneOf ps) t := by
  constructor
  · intro h
    cases h with
    | left h => exact Or.inl h
    | right h => exact Or.inr h
  · exact fun h => h.elim .left .right

/-- A word is matched up to case. -/
theorem matches_word_iff {w t : Text} :
    Matches (.word w) t ↔ w.map Text.foldCase = t.map Text.foldCase :=
  ⟨fun h => by cases h; assumption, .word⟩

/-- No times at all is nothing. -/
theorem eq_nil_of_matches_upTo_zero {p : Pattern} {t : Text} (h : Matches (upTo 0 p) t) : t = [] := by
  cases h
  rfl

/-- What is repeated up to some times is left out, or stands there and is repeated up to one time less. -/
theorem cases_of_matches_upTo_succ {p : Pattern} {n : Nat} {t : Text} (h : Matches (upTo (n + 1) p) t) :
    t = [] ∨ ∃ u v, t = u ++ v ∧ Matches p u ∧ Matches (upTo n p) v := by
  cases h with
  | left h =>
    cases h with
    | seq hp hq => exact Or.inr ⟨_, _, rfl, hp, hq⟩
  | right h =>
    cases h
    exact Or.inl rfl

/-! ## The characters of a match

  A property of all characters of the pattern is a property of all characters of the match. By it one learns
  from the pattern alone that a match has no blank, no bracket or no quote.
-/

/-- The pattern is made of characters that satisfy `Q`. -/
def Uses (Q : Char → Prop) : Pattern → Prop
  | .empty => True
  | .char isIn => ∀ c, isIn c = true → Q c
  | .word w => ∀ f ∈ w, ∀ c, Text.foldCase f = Text.foldCase c → Q c
  | .seq p q => Uses Q p ∧ Uses Q q
  | .either p q => Uses Q p ∧ Uses Q q
  | .many p => Uses Q p

/-- A text that such a pattern matches is made of such characters. -/
theorem Matches.forall_mem {Q : Char → Prop} {p : Pattern} {u : Text} (h : Matches p u)
    (hp : Uses Q p) : ∀ c ∈ u, Q c := by
  induction h with
  | empty => simp
  | char hc => simpa using hp _ hc
  | word hw =>
    intro c hc
    have hmem : Text.foldCase c ∈ List.map Text.foldCase _ := hw ▸ List.mem_map_of_mem hc
    obtain ⟨f, hf, hfc⟩ := List.mem_map.mp hmem
    exact hp f hf c hfc
  | seq _ _ ihp ihq =>
    intro c hc
    exact (List.mem_append.mp hc).elim (ihp hp.1 c) (ihq hp.2 c)
  | left _ ih => exact ih hp.1
  | right _ ih => exact ih hp.2
  | done => simp
  | more _ _ ihp ihq =>
    intro c hc
    exact (List.mem_append.mp hc).elim (ihp hp c) (ihq hp c)

/-- A pattern that uses certain characters uses characters of a larger kind. -/
theorem Uses.mono {Q Q' : Char → Prop} {p : Pattern} (h : Uses Q p) (hQ : ∀ c, Q c → Q' c) :
    Uses Q' p := by
  induction p with
  | empty => trivial
  | char isIn => exact fun c hc => hQ c (h c hc)
  | word w => exact fun f hf c hc => hQ c (h f hf c hc)
  | seq p q ihp ihq => exact ⟨ihp h.1, ihq h.2⟩
  | either p q ihp ihq => exact ⟨ihp h.1, ihq h.2⟩
  | many p ih => exact ih h

/-- A choice uses what its patterns use. -/
theorem uses_oneOf {Q : Char → Prop} {ps : List Pattern} (h : ∀ p ∈ ps, Uses Q p) :
    Uses Q (oneOf ps) := by
  induction ps with
  | nil => exact fun c hc => by simp at hc
  | cons p ps ih => exact ⟨h p (by simp), ih fun q hq => h q (by simp [hq])⟩

end Pattern

/-! ## What slicing finds

  From one place to one part, and from one part to the table.
-/

namespace Part

/-- What a part takes at one place is a front of the text there and a match of the whole pattern, the slash of
    a size included. -/
theorem matches_of_matchAt? {p : Part} {afterBreak : Bool} {t text after : Text}
    (h : p.matchAt? afterBreak t = some (text, after)) :
    t = text ++ after ∧ Pattern.Matches p.fullPattern text := by
  unfold matchAt? at h
  split at h
  · obtain ⟨r, hr, hrt⟩ := Option.map_eq_some_iff.mp h
    obtain ⟨u, hu, hm⟩ := Pattern.matches_of_mem_ends (List.mem_of_find?_eq_some hr)
    simp only [Prod.mk.injEq] at hrt
    obtain ⟨rfl, rfl⟩ := hrt
    have htake : t.take (t.length - r.length) = u := by
      rw [hu, List.length_append, Nat.add_sub_cancel, List.take_left']
      rfl
    rw [htake]
    exact ⟨hu, hm⟩
  · simp at h

/-- A place that is found holds a text that the part matches and accepts. -/
theorem matches_of_locate {p : Part} {skip : Nat} {afterBreak : Bool} {t : Text} {place : Place}
    (h : p.locate skip afterBreak t = some place) :
    t = place.before ++ place.text ++ place.after ∧ Pattern.Matches p.fullPattern place.text ∧
      p.accepts (p.content place.text) = true := by
  have hpush : ∀ {c : Char} {t : Text} {place : Place} {o : Option Place},
      (∀ q, o = some q → t = q.before ++ q.text ++ q.after ∧
        Pattern.Matches p.fullPattern q.text ∧ p.accepts (p.content q.text) = true) →
      o.map (·.push c) = some place →
        c :: t = place.before ++ place.text ++ place.after ∧
          Pattern.Matches p.fullPattern place.text ∧
          p.accepts (p.content place.text) = true := by
    intro c t place o ih ho
    obtain ⟨q, hq, rfl⟩ := Option.map_eq_some_iff.mp ho
    obtain ⟨ht, hm, ha⟩ := ih q hq
    exact ⟨by simp [Place.push, ht], hm, ha⟩
  -- A match is found here, or behind the first character.
  fun_induction p.locate skip afterBreak t generalizing place with
  | case1 => simp at h
  | case2 skip ab c t ih => exact hpush (fun q hq => ih hq) h
  | case3 ab c t text after hmatch hacc =>
    simp only [Option.some.injEq] at h
    subst h
    obtain ⟨ht, hm⟩ := matches_of_matchAt? hmatch
    exact ⟨by simpa using ht, hm, hacc⟩
  | case4 ab c t text after _ _ ih => exact hpush (fun q hq => ih hq) h
  | case5 ab c t _ ih => exact hpush (fun q hq => ih hq) h

end Part

namespace Slices

/-- What is found for a part: a text that its pattern matches. -/
structure Found (p : Part) (value text : Text) : Prop where
  exists_match : ∃ u, Pattern.Matches p.fullPattern u ∧ text = p.content u
  accepts : p.accepts text = true
  mem_or_eq : ∀ c ∈ text, c ∈ value ∨ c = ' '

/-- A part that follows no slash matches all of what is found for it. -/
theorem Found.matches_pattern {p : Part} {value text : Text} (hp : p.followsSlash = false)
    (h : Found p value text) : Pattern.Matches p.pattern text := by
  obtain ⟨u, hu, rfl⟩ := h.exists_match
  simpa [Part.fullPattern, Part.content, hp] using hu

/-- The value of a part is a stretch of what was taken for it. -/
theorem mem_of_mem_content {p : Part} {t : Text} {c : Char} (h : c ∈ p.content t) : c ∈ t := by
  unfold Part.content at h
  split at h
  · exact List.mem_of_mem_drop (Text.mem_of_mem_trim h)
  · exact h

/-- One step of the slicer: the text found is the value of a match in the text, and what is left holds the
    characters of the text and blanks, nothing else. -/
theorem takePart_spec (value : Text) (p : Part) :
    (∀ text, (takePart value p).1 = some text → Found p value text) ∧
      ∀ c ∈ (takePart value p).2, c ∈ value ∨ c = ' ' := by
  unfold takePart
  split
  · rename_i place hplace
    obtain ⟨hvalue, hm, ha⟩ := Part.matches_of_locate hplace
    constructor
    · rintro text ht
      obtain rfl := Option.some.inj ht
      refine ⟨⟨_, hm, rfl⟩, ha, fun c hc => Or.inl ?_⟩
      rw [hvalue]
      simp [mem_of_mem_content hc]
    · intro c hc
      simp only [List.mem_append, List.mem_cons] at hc
      rw [hvalue]
      rcases hc with hc | hc | hc
      · exact Or.inl (by simp [hc])
      · exact Or.inr hc
      · exact Or.inl (by simp [hc])
  · exact ⟨nofun, fun c hc => Or.inl hc⟩

/-- What is found in the rest is found in the value, since the rest is made of it and blanks. -/
theorem Found.of_rest {p : Part} {value rest text : Text} (h : Found p rest text)
    (hrest : ∀ c ∈ rest, c ∈ value ∨ c = ' ') : Found p value text :=
  ⟨h.exists_match, h.accepts, fun c hc => (h.mem_or_eq c hc).elim (hrest c) Or.inr⟩

/-- What is found in a value belongs to a part of the table. -/
theorem found_of_mem_takeParts {value : Text} {ps : List Part} {suffix : String} {text : Text}
    (h : (suffix, text) ∈ (takeParts value ps).1) :
    ∃ p ∈ ps, p.suffix = suffix ∧ Found p value text := by
  induction ps generalizing value with
  | nil => simp [takeParts] at h
  | cons p ps ih =>
    obtain ⟨hfound, hrest⟩ := takePart_spec value p
    have hlater : (suffix, text) ∈ (takeParts (takePart value p).2 ps).1 →
        ∃ q ∈ p :: ps, q.suffix = suffix ∧ Found q value text := fun h => by
      obtain ⟨q, hq, hs, hf⟩ := ih h
      exact ⟨q, List.mem_cons_of_mem _ hq, hs, hf.of_rest hrest⟩
    unfold takeParts at h
    dsimp only at h
    split at h
    · rename_i text' ht
      rcases List.mem_cons.mp h with h | h
      · obtain ⟨rfl, rfl⟩ := Prod.mk.inj h
        exact ⟨p, by simp, rfl, hfound _ ht⟩
      · exact hlater h
    · exact hlater h

end Slices

end CssShorthand
