/-
  WHAT A PATTERN TAKES IS DECIDED BY THE TEXT.

  Of most texts a pattern takes one front only, whatever follows (`Pattern.Decides`): a word ends with its
  letters, and arguments end with the bracket that closes the first one.  What may be a color is decided
  up to a break (`eq_of_colorLike`).

  So the first way to a break that is found for a pattern is the one that takes the text that it matches
  (`find?_ends_of_decides`).

  Backtracking is taken out of the picture by this notion. `Pattern.ends` lists all ways to match, in the
  order in which they are tried; if only one of them ends at a break, the order does not matter. The notion
  is closed under sequence, under a choice of patterns that are apart, and under repetition when what is
  repeated is apart from what follows; by these a pattern is decided by its form.
-/
import CssShorthand.Proofs.Slice.Border
import CssShorthand.Proofs.Slice.Search

namespace CssShorthand

open List

namespace Text

/-- What holds of the first character holds of the head. -/
theorem forall_mem_head?_cons {P : Char → Prop} {x : Char} {t : Text} (h : P x) :
    ∀ c ∈ (x :: t).head?, P c := fun _ hc => Option.some.inj hc ▸ h

/-- **There is one way to cut before the first character that is not of a kind.** -/
theorem cut_unique {P : Char → Prop} {a b x y : Text} (ha : ∀ c ∈ a, P c) (hb : ∀ c ∈ b, P c)
    (hx : ∀ c ∈ x.head?, ¬P c) (hy : ∀ c ∈ y.head?, ¬P c) (h : a ++ x = b ++ y) : a = b ∧ x = y := by
  induction a generalizing b with
  | nil =>
    cases b with
    | nil => exact ⟨rfl, h⟩
    | cons d b => exact absurd (hb d mem_cons_self) (hx d (by simp [show x = d :: (b ++ y) from h]))
  | cons c a ih =>
    cases b with
    | nil => exact absurd (ha c mem_cons_self) (hy c (by simp [show y = c :: (a ++ x) from h.symm]))
    | cons d b =>
      obtain ⟨rfl, hrest⟩ := cons.inj h
      obtain ⟨rfl, hxy⟩ := ih (fun z hz => ha z (mem_cons_of_mem _ hz))
        (fun z hz => hb z (mem_cons_of_mem _ hz)) hrest
      exact ⟨rfl, hxy⟩

/-- There is one way to cut before the first character that is not plain. -/
theorem front_unique {a b x y : Text} (ha : ∀ c ∈ a, isPlain c = true) (hb : ∀ c ∈ b, isPlain c = true)
    (hx : ∀ c ∈ x.head?, isPlain c = false) (hy : ∀ c ∈ y.head?, isPlain c = false)
    (h : a ++ x = b ++ y) : a = b ∧ x = y :=
  cut_unique ha hb (fun c hc => by simp [hx c hc]) (fun c hc => by simp [hy c hc]) h

/-- A plain text ends with no semicolon. -/
theorem exists_concat_of_plain {t : Text} (hne : t ≠ []) (h : ∀ c ∈ t, isPlain c = true) :
    ∃ v d, t = v ++ [d] ∧ isBlank d = false ∧ d ≠ ';' := by
  obtain ⟨v, d, ht⟩ := (eq_nil_or_concat t).resolve_left hne
  have hd := h d (by simp [ht])
  exact ⟨v, d, by simpa using ht, isBlank_of_isPlain hd, fun he => absurd (he ▸ hd) (by decide)⟩

/-- At a break there is no plain character. -/
theorem isPlain_of_atBreak {t : Text} (h : atBreak t = true) : ∀ c ∈ t.head?, isPlain c = false := by
  intro c hc
  cases t with
  | nil => contradiction
  | cons d t =>
    obtain rfl := Option.some.inj hc
    by_contra hplain
    have hblank : isBlank d = true := h
    rw [isBlank_of_isPlain (by simpa using hplain)] at hblank
    contradiction

end Text

namespace Pattern

variable {p q : Pattern} {r s t u v : Text} {c : Char}

/-! ## Patterns that take one text only

  One lemma for each way to build a pattern.
-/

/-- Of any text the pattern takes one front at most. -/
def Decides (p : Pattern) : Prop :=
  ∀ u v r s, Matches p u → Matches p v → u ++ r = v ++ s → u = v

/-- No text begins both as one pattern and as the other. -/
def Apart (p q : Pattern) : Prop := ∀ u v r s, Matches p u → Matches q v → u ++ r ≠ v ++ s

/-- The empty text is decided: two splits after nothing are the same. -/
theorem decides_empty : Decides .empty := by
  intro u v r s hu hv _
  cases hu
  cases hv
  rfl

/-- One character is decided: both splits are after the first. -/
theorem decides_char {isIn : Char → Bool} : Decides (.char isIn) := by
  intro u v r s hu hv h
  cases hu
  cases hv
  rw [(cons.inj h).1]

/-- A word is decided by its length. -/
theorem decides_word {w : Text} : Decides (.word w) := by
  intro u v r s hu hv h
  cases hu with
  | word hu =>
    cases hv with
    | word hv =>
      refine (append_inj h ?_).1
      simpa only [length_map] using congrArg List.length (hu.symm.trans hv)

/-- Two decided patterns in a row: the first front is decided by the first pattern, as a match of the second
    follows it, and what is behind by the second. -/
theorem Decides.seq (hp : p.Decides) (hq : q.Decides) : Decides (.seq p q) := by
  intro u v r s hu hv h
  cases hu with
  | @seq _ _ a b ha hb =>
    cases hv with
    | @seq _ _ a' b' ha' hb' =>
      rw [append_assoc, append_assoc] at h
      obtain rfl := hp a a' _ _ ha ha' h
      rw [hq b b' r s hb hb' (append_cancel_left h)]

/-- A choice is decided when its two patterns cannot both take a front of one text. -/
theorem Decides.either (hp : p.Decides) (hq : q.Decides) (hapart : Apart p q) : Decides (.either p q) := by
  intro u v r s hu hv h
  cases hu with
  | left hu =>
    cases hv with
    | left hv => exact hp u v r s hu hv h
    | right hv => exact absurd h (hapart u v r s hu hv)
  | right hu =>
    cases hv with
    | left hv => exact absurd h.symm (hapart v u s r hv hu)
    | right hv => exact hq u v r s hu hv h

/-- Repetitions go on until something else begins. -/
theorem Decides.many (hp : p.Decides) (hq : q.Decides) (hapart : Apart p q) :
    Decides (.seq (.many p) q) := by
  suffices hall : ∀ m a, Matches m a → m = .many p → ∀ b a' b' r s, Matches q b → Matches (.many p) a' →
      Matches q b' → a ++ (b ++ r) = a' ++ (b' ++ s) → a = a' ∧ b = b' by
    intro u v r s hu hv h
    cases hu with
    | seq ha hb =>
      cases hv with
      | seq ha' hb' =>
        rw [append_assoc, append_assoc] at h
        obtain ⟨rfl, rfl⟩ := hall _ _ ha rfl _ _ _ r s hb ha' hb' h
        rfl
  -- On the rounds of the first match: a round of one match is never the end of the other, as the two patterns
  -- are apart.
  intro m a ha
  induction ha with
  | done =>
    intro hm b a' b' r s hb ha' hb' h
    cases ha' with
    | done => exact ⟨rfl, hq b b' r s hb hb' h⟩
    | @more _ x y hx _ =>
      cases hm
      rw [nil_append, append_assoc] at h
      exact absurd h.symm (hapart x b _ _ hx hb)
  | @more p' x y hx hy _ ih =>
    intro hm b a' b' r s hb ha' hb' h
    cases hm
    cases ha' with
    | done =>
      rw [nil_append, append_assoc] at h
      exact absurd h (hapart x b' _ _ hx hb')
    | @more _ x' y' hx' hy' =>
      rw [append_assoc, append_assoc] at h
      obtain rfl := hp x x' _ _ hx hx' h
      obtain ⟨rfl, rfl⟩ := ih rfl b y' b' r s hb hy' hb' (append_cancel_left h)
      exact ⟨rfl, rfl⟩
  | _ => exact fun hm => Pattern.noConfusion hm

/-- Arguments end with the bracket that closes the first one. -/
theorem decides_arguments : Decides arguments := by
  have hclose : Decides (.seq (just ')') .empty) := decides_char.seq decides_empty
  have hhead : ∀ {c : Char} {q : Pattern} {u : Text}, Matches (.seq (just c) q) u → ∃ v, u = c :: v := by
    intro c q u hu
    cases hu with
    | seq hc _ =>
      obtain rfl := eq_of_matches_just hc
      exact ⟨_, rfl⟩
  have hother : ∀ {cs : List Char} {q : Pattern} {c : Char}, c ∈ cs →
      Apart (noneOf cs) (.seq (just c) q) := by
    intro cs q c hc u v r s hu hv h
    obtain ⟨w, rfl⟩ := hhead hv
    cases hu with
    | char hd =>
      rw [(cons.inj h).1] at hd
      simp [hc] at hd
  -- Inside of the brackets there are other characters and calls without a call in them, each decided by its
  -- first character.
  have hinner : Decides (all [just '(', .many (noneOf ['(', ')']), just ')']) :=
    decides_char.seq (Decides.many decides_char hclose (hother (by simp)))
  refine decides_char.seq (Decides.many (decides_char.either hinner (hother (by simp))) hclose ?_)
  intro u v r s hu hv
  cases hu with
  | left hu => exact hother (by simp) u v r s hu hv
  | right hu =>
    obtain ⟨w, rfl⟩ := hhead hu
    obtain ⟨x, rfl⟩ := hhead hv
    exact fun h => absurd (cons.inj h).1 (by decide)

/-! ## The first way to a break

  The search asks for the first end at which a break stands.
-/

/-- If all ways to a break leave the same, that is found or nothing. -/
theorem find?_ends_eq_or (h : ∀ v s, t = v ++ s → Matches p v → Text.atBreak s = true → s = r) :
    (ends p t).find? Text.atBreak = none ∨ (ends p t).find? Text.atBreak = some r := by
  cases hfind : (ends p t).find? Text.atBreak with
  | none => exact Or.inl rfl
  | some s =>
    obtain ⟨v, hv, hm⟩ := matches_of_mem_ends (mem_of_find?_eq_some hfind)
    rw [h v s hv hm (find?_some hfind)]
    exact Or.inr rfl

/-- The first end at a break is the given one as soon as no other end is at a break. Which end the
    backtracking tries first does not matter then. -/
theorem find?_ends_of_only (hu : Matches p u) (hr : Text.atBreak r = true)
    (h : ∀ v s, u ++ r = v ++ s → Matches p v → Text.atBreak s = true → s = r) :
    (ends p (u ++ r)).find? Text.atBreak = some r := by
  refine (find?_ends_eq_or h).resolve_left fun hnone => ?_
  exact absurd hr (find?_eq_none.mp hnone r (mem_ends_of_matches hu r))

/-- A decided pattern has one end at a break, so the search finds it. -/
theorem find?_ends_of_decides (hp : p.Decides) (hu : Matches p u) (hr : Text.atBreak r = true) :
    (ends p (u ++ r)).find? Text.atBreak = some r := by
  refine find?_ends_of_only hu hr fun v s h hv _ => ?_
  obtain rfl := hp u v r s hu hv h
  exact (append_cancel_left h).symm

/-- The search fails when no end is at a break. -/
theorem find?_ends_eq_none (h : ∀ v s, t = v ++ s → Matches p v → Text.atBreak s = false) :
    (ends p t).find? Text.atBreak = none := by
  refine find?_eq_none.mpr fun s hs => ?_
  obtain ⟨v, hv, hm⟩ := matches_of_mem_ends hs
  simp [h v s hv hm]

/-! ## Colors

  The pattern of a color is not decided: `redblue` has a front `red`. But up to a break it is, as letters
  and digits go on to the break.
-/

/-- What may be a color is a call, or a word. -/
theorem call_or_word_of_matches_colorLike (h : Matches colorLike u) :
    (∃ name e, u = name ++ e ∧ (∀ c ∈ name, Text.isPlain c = true) ∧ Matches arguments e) ∨
      ∀ c ∈ u, c = '#' ∨ Text.isPlain c = true := by
  -- A call, a hash, or letters; the choice has no fourth branch.
  cases h with
  | left h =>
    cases h with
    | seq hname harguments =>
      have hplain : UsesPlain (.either letter (just '-')) :=
        ⟨fun _ h => Text.isPlain_of_letter h, usesPlain_just (by decide)⟩
      exact Or.inl ⟨_, _, rfl, hname.forall_mem ⟨hplain, hplain⟩, harguments⟩
  | right h =>
    refine Or.inr ?_
    cases h with
    | left h =>
      cases h with
      | seq hhash hdigits =>
        obtain rfl := eq_of_matches_just hhash
        intro c hc
        exact (mem_cons.mp hc).imp_right fun hc => hdigits.forall_mem usesPlain_hex c hc
    | right h =>
      cases h with
      | left h => exact fun c hc => Or.inr (h.forall_mem usesPlain_letters c hc)
      | right h =>
        cases h with
        | char h => contradiction

/-- **What may be a color is decided up to a break.** -/
theorem eq_of_colorLike (hu : Matches colorLike u) (hv : Matches colorLike v) (hr : Text.atBreak r = true)
    (hs : Text.atBreak s = true) (h : u ++ r = v ++ s) : u = v := by
  have hword : ∀ {t : Text}, Text.atBreak t = true → ∀ c ∈ t.head?, ¬(c = '#' ∨ Text.isPlain c = true) := by
    intro t ht c hc
    cases t with
    | nil => contradiction
    | cons d t =>
      obtain rfl := Option.some.inj hc
      have hblank : Text.isBlank d = true := ht
      rintro (rfl | hplain)
      · exact absurd hblank (by decide)
      · rw [Text.isBlank_of_isPlain hplain] at hblank
        contradiction
  have hparen : ¬('(' = '#' ∨ Text.isPlain '(' = true) := by decide
  -- No word is a call: the bracket would be at a break.
  have hapart : ∀ {name e w r s : Text}, (∀ c ∈ name, Text.isPlain c = true) → Matches arguments e →
      (∀ c ∈ w, c = '#' ∨ Text.isPlain c = true) → Text.atBreak s = true → name ++ e ++ r ≠ w ++ s := by
    intro name e w r s hname he hw hs h
    obtain ⟨inside, rfl⟩ := exists_of_matches_arguments he
    rw [append_assoc] at h
    obtain ⟨-, hend⟩ := Text.cut_unique (fun c hc => Or.inr (hname c hc)) hw
      (Text.forall_mem_head?_cons hparen) (hword hs) h
    rw [← hend] at hs
    contradiction
  rcases call_or_word_of_matches_colorLike hu with ⟨name, e, rfl, hname, he⟩ | hu
  · rcases call_or_word_of_matches_colorLike hv with ⟨name', e', rfl, hname', he'⟩ | hv
    · rw [append_assoc, append_assoc] at h
      obtain ⟨i, hi⟩ := exists_of_matches_arguments he
      obtain ⟨i', hi'⟩ := exists_of_matches_arguments he'
      obtain ⟨rfl, hrest⟩ := Text.front_unique hname hname'
        (hi ▸ Text.forall_mem_head?_cons (by decide)) (hi' ▸ Text.forall_mem_head?_cons (by decide)) h
      rw [decides_arguments e e' r s he he' hrest]
    · exact absurd h (hapart hname he hv hs)
  · rcases call_or_word_of_matches_colorLike hv with ⟨name', e', rfl, hname', he'⟩ | hv
    · exact absurd h.symm (hapart hname' he' hu hr)
    · exact (Text.cut_unique hu hv (hword hr) (hword hs) h).1

end Pattern

end CssShorthand
