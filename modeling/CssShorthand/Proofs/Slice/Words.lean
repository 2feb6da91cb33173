/-
  THE SEARCH FOR A PART, WORD BY WORD.

  A part that begins like a word is looked for at the beginnings of words only, and ends where a word
  ends.  A text that has no such place is passed (`Part.Misses`): the search goes on behind it
  (`locate_append_of_misses`), and in joined texts that are all passed nothing is found
  (`takePart_of_misses`).  Where the search arrives at the text of the part, that is taken out of the
  joined texts (`takePart_join`).

  The words of a text decide for parts that begin with a word of their own (`Part.Opens`).

  The recursion of the program goes character by character and carries along whether the last one was a
  blank. These lemmas say it in terms of words: what is before the place found is a row of words that are
  passed, and the search behind them starts anew. They are stated for a part in general; the tables come in
  with `Part.Opens`.
-/
import CssShorthand.Proofs.Slice.Joined

namespace CssShorthand

open List

/-! ## Words

  The words of a text, and breaks: the places where no word goes on.
-/

namespace Text

variable {a b r t u w : Text} {c : Char}

/-- No word goes on into a text that only blanks can follow. -/
theorem words_ne_nil (h : atBreak t = false) : words t ≠ [] := by
  cases t with
  | nil => contradiction
  | cons c t =>
    have hc : isBlank c = false := h
    rw [words, if_neg (by simp [hc])]
    split
    · exact cons_ne_nil _ _
    · exact extendFirst_ne_nil _ _

/-- **The words on the two sides of a blank** are the words of the text. -/
theorem words_append_blank (hc : isBlank c = true) (t u : Text) :
    words (t ++ c :: u) = words t ++ words u := by
  induction t with
  | nil => simp [words, hc]
  | cons d t ih =>
    have hbreak : atBreak (t ++ c :: u) = atBreak t := by
      cases t with
      | nil => exact hc
      | cons e t => rfl
    rw [cons_append, words, words, hbreak, ih]
    split
    · rfl
    · split
      · rfl
      · rename_i hgoes
        obtain ⟨w, ws, hws⟩ := exists_cons_of_ne_nil (words_ne_nil (by simpa using hgoes))
        rw [hws]
        rfl

/-- White space in front adds no word. -/
theorem words_blanks_append (hb : ∀ c ∈ b, isBlank c = true) (r : Text) : words (b ++ r) = words r := by
  induction b with
  | nil => rfl
  | cons c b ih =>
    rw [cons_append, words, if_pos (hb c mem_cons_self)]
    exact ih fun d hd => hb d (mem_cons_of_mem _ hd)

/-- White space has no words. -/
theorem words_of_blanks (h : ∀ c ∈ t, isBlank c = true) : words t = [] := by
  rw [← append_nil t, words_blanks_append h]
  rfl

/-- White space is a break, and so is the end. -/
theorem atBreak_of_blanks (h : ∀ c ∈ t, isBlank c = true) : atBreak t = true := by
  cases t with
  | nil => rfl
  | cons c t => exact h c mem_cons_self

/-- Words do not run on across a break. -/
theorem words_append_of_atBreak (hr : atBreak r = true) (u : Text) : words (u ++ r) = words u ++ words r := by
  cases r with
  | nil => simp [words]
  | cons c r =>
    have hc : isBlank c = true := hr
    rw [words_append_blank hc, words, if_pos hc]

/-- A word that ends at a break is the first of the words. -/
theorem words_append (hne : w ≠ []) (hw : ∀ c ∈ w, isBlank c = false) (hr : atBreak r = true) :
    words (w ++ r) = w :: words r := by
  induction w with
  | nil => contradiction
  | cons c w ih =>
    have hc := hw c mem_cons_self
    cases w with
    | nil => simp [words, hc, hr]
    | cons d w =>
      have hd : isBlank d = false := hw d (by simp)
      have hbreak : atBreak (d :: (w ++ r)) = false := hd
      rw [cons_append, words, if_neg (by simp [hc]), cons_append, if_neg (by simp [hbreak]), ← cons_append,
        ih (cons_ne_nil _ _) fun x hx => hw x (mem_cons_of_mem _ hx)]
      rfl

/-- A word by itself. -/
theorem words_of_word (hne : w ≠ []) (hw : ∀ c ∈ w, isBlank c = false) : words w = [w] := by
  simpa [words] using words_append hne hw (r := []) rfl

/-- A text that does not begin at a break begins with a word. -/
theorem exists_word (h : atBreak t = false) :
    ∃ w r, t = w ++ r ∧ w ≠ [] ∧ (∀ c ∈ w, isBlank c = false) ∧ atBreak r = true := by
  refine ⟨t.takeWhile (!isBlank ·), t.dropWhile (!isBlank ·), (takeWhile_append_dropWhile).symm, ?_,
    fun c hc => by simpa using mem_takeWhile_imp hc, ?_⟩
  · cases t with
    | nil => contradiction
    | cons c t =>
      have hc : isBlank c = false := h
      simp [hc]
  · cases hr : t.dropWhile (!isBlank ·) with
    | nil => rfl
    | cons c r =>
      have hhead := head_dropWhile_not (!isBlank ·) (l := t) (by simp [hr])
      show isBlank c = true
      simpa [hr] using hhead

/-- A front without blanks belongs to the first word. -/
theorem exists_append_of_front {f : Text} (hf : ∀ c ∈ f, isBlank c = false) (hr : atBreak r = true)
    (h : f ++ t = w ++ r) : ∃ y, w = f ++ y ∧ t = y ++ r := by
  rcases append_eq_append_iff.mp h with ⟨y, hy, hrest⟩ | ⟨y, hy, hrest⟩
  · exact ⟨y, hy, hrest⟩
  · cases y with
    | nil => exact ⟨[], by simpa using hy.symm, by simpa using hrest.symm⟩
    | cons c y =>
      have hc : isBlank c = true := by
        rw [hrest] at hr
        exact hr
      rw [hf c (by simp [hy])] at hc
      contradiction

/-- A break in front of a break. -/
theorem atBreak_append (ht : atBreak t = true) (hu : atBreak u = true) : atBreak (t ++ u) = true := by
  cases t with
  | nil => exact hu
  | cons c t => exact ht

/-- Before a break, a text that is not empty ends with a blank. -/
theorem atBreak_reverse_cons :
    atBreak (c :: a).reverse = true ↔ (a = [] → isBlank c = true) ∧ atBreak a.reverse = true := by
  rw [reverse_cons]
  cases hrev : a.reverse with
  | nil => simp [reverse_eq_nil_iff.mp hrev, atBreak]
  | cons d b =>
    have hne : a ≠ [] := fun h => by simp [h] at hrev
    simp [hne, atBreak]

/-- Whether a text ends at a break is up to its last character. -/
theorem atBreak_reverse_concat (a : Text) (c : Char) : atBreak (a ++ [c]).reverse = isBlank c := by
  rw [reverse_append]
  rfl

/-- A word behind another one has something before it, or the one would go on in the other. -/
theorem ne_nil_of_atBreak_append {a r s : Text} (hne : w ≠ []) (hw : ∀ c ∈ w, isBlank c = false)
    (hs : atBreak s = true) (h : s = a ++ (w ++ r)) : a ≠ [] := by
  rintro rfl
  obtain ⟨d, w, rfl⟩ := exists_cons_of_ne_nil hne
  rw [h, nil_append, cons_append, atBreak, hw d mem_cons_self] at hs
  contradiction

/-- A word stands between breaks. -/
theorem exists_of_mem_words (h : w ∈ words t) : w ≠ [] ∧ (∀ c ∈ w, isBlank c = false) ∧
    ∃ a r, t = a ++ (w ++ r) ∧ atBreak a.reverse = true ∧ atBreak r = true := by
  -- On the length: a blank is dropped, or a whole word is taken off.
  induction hn : t.length using Nat.strongRecOn generalizing t with
  | ind n ih =>
    subst hn
    cases t with
    | nil => contradiction
    | cons c t =>
      cases hc : isBlank c with
      | true =>
        rw [words, if_pos hc] at h
        obtain ⟨hne, hw, a, r, rfl, ha, hr⟩ := ih _ (by simp) h rfl
        exact ⟨hne, hw, c :: a, r, rfl, atBreak_reverse_cons.mpr ⟨fun _ => hc, ha⟩, hr⟩
      | false =>
        obtain ⟨v, s, hvs, hv, hvblank, hs⟩ := exists_word (t := c :: t) hc
        rw [hvs, words_append hv hvblank hs] at h
        rcases mem_cons.mp h with rfl | h
        · exact ⟨hv, hvblank, [], s, hvs, rfl, hs⟩
        · have hlt : s.length < (c :: t).length := by
            rw [hvs, length_append]
            have := length_pos_iff.mpr hv
            omega
          obtain ⟨hne, hw, a, r, hsar, ha, hr⟩ := ih _ hlt h rfl
          refine ⟨hne, hw, v ++ a, r, by rw [hvs, hsar, append_assoc], ?_, hr⟩
          obtain ⟨a, d, rfl⟩ :=
            (eq_nil_or_concat a).resolve_left (ne_nil_of_atBreak_append hne hw hs hsar)
          rwa [concat_eq_append, ← append_assoc, atBreak_reverse_concat, ← atBreak_reverse_concat a,
            ← concat_eq_append]

/-- **A word of a text stands between breaks.** -/
theorem mem_words_iff :
    w ∈ words t ↔ w ≠ [] ∧ (∀ c ∈ w, isBlank c = false) ∧
      ∃ a r, t = a ++ (w ++ r) ∧ atBreak a.reverse = true ∧ atBreak r = true := by
  refine ⟨exists_of_mem_words, ?_⟩
  rintro ⟨hne, hw, a, r, rfl, ha, hr⟩
  rcases eq_nil_or_concat a with rfl | ⟨a, c, rfl⟩
  · rw [nil_append, words_append hne hw hr]
    exact mem_cons_self
  · rw [concat_eq_append, reverse_append] at ha
    have hc : isBlank c = true := ha
    rw [concat_eq_append, append_assoc, singleton_append, words_append_blank hc, words_append hne hw hr]
    exact mem_append_right _ mem_cons_self

/-- A text without words is collapsed to nothing. -/
theorem collapse_of_blanks (h : ∀ c ∈ t, isBlank c = true) : collapse t = [] := by
  rw [collapse, words_of_blanks h]
  rfl

end Text

/-! ## The search

  One step, a word that is passed, and a text that is passed.
-/

namespace Part

variable {p : Part} {a b r t u v w x : Text} {skip : Nat} {ab : Bool}

/-- A place between breaks, of a text that the part matches and accepts. -/
structure Stands (p : Part) (ab : Bool) (t : Text) (place : Place) : Prop where
  text_eq : t = place.before ++ (place.text ++ place.after)
  matches_pattern : Pattern.Matches p.pattern place.text
  accepts : p.accepts place.text = true
  first : place.before = [] → ab = true
  before : Text.atBreak place.before.reverse = true
  after : Text.atBreak place.after = true

/-- A match that stands in a text stands in it behind one more character. -/
theorem Stands.push {c : Char} {place : Place} (h : p.Stands (Text.isBlank c) t place) (ab : Bool) :
    p.Stands ab (c :: t) (place.push c) where
  text_eq := congrArg (c :: ·) h.text_eq
  matches_pattern := h.matches_pattern
  accepts := h.accepts
  first := nofun
  before := Text.atBreak_reverse_cons.mpr ⟨h.first, h.before⟩
  after := h.after

/-- **What the search finds** stands between breaks. -/
theorem IsWord.of_locate (h : p.IsWord) {place : Place} (hplace : p.locate skip ab t = some place) :
    p.Stands ab t place := by
  have hpush : ∀ {ab : Bool} {c : Char} {t : Text} {place : Place} {o : Option Place},
      (∀ q, o = some q → p.Stands (Text.isBlank c) t q) → o.map (·.push c) = some place →
        p.Stands ab (c :: t) place := by
    intro ab c t place o ih ho
    obtain ⟨q, hq, rfl⟩ := Option.map_eq_some_iff.mp ho
    exact (ih q hq).push ab
  fun_induction p.locate skip ab t generalizing place with
  | case1 => contradiction
  | case2 skip ab c t ih => exact hpush (fun q hq => ih hq) hplace
  | case3 ab c t text after hmatch hacc =>
    obtain rfl := Option.some.inj hplace
    obtain ⟨ht, hm, hafter⟩ := h.of_matchAt? hmatch
    rw [h.content_eq] at hacc
    refine ⟨ht, hm, hacc, fun _ => ?_, rfl, hafter⟩
    cases ab with
    | true => rfl
    | false =>
      rw [matchAt?_false h] at hmatch
      contradiction
  | case4 ab c t text after _ _ ih => exact hpush (fun q hq => ih hq) hplace
  | case5 ab c t _ ih => exact hpush (fun q hq => ih hq) hplace

/-- A part takes the text where the search stands, if it matches there. -/
theorem locate_of_matchAt? (h : p.IsWord) (hcolor : p.isColor = false)
    (hm : p.matchAt? true t = some (u, r)) : p.locate 0 true t = some ⟨[], u, r⟩ := by
  obtain ⟨rfl, hu, -⟩ := h.of_matchAt? hm
  obtain ⟨c, v, rfl, -⟩ := h.starts u hu
  rw [cons_append] at hm ⊢
  rw [locate, hm]
  simp [accepts, hcolor]

/-- A part is found where it stands if the first way to match up to a break leaves what follows. -/
theorem locate_of_find? (h : p.IsWord) (hcolor : p.isColor = false)
    (hfind : (p.pattern.ends (u ++ r)).find? Text.atBreak = some r) :
    p.locate 0 true (u ++ r) = some ⟨[], u, r⟩ := by
  refine locate_of_matchAt? h hcolor ?_
  rw [matchAt?, h.fullPattern_eq, hfind]
  simp

/-- **A part that is a word is found** in a text that has such a word. -/
theorem isSome_locate_of_mem_words (h : p.IsWord) (hcolor : p.isColor = false) (hw : w ∈ Text.words t)
    (hm : Pattern.Matches p.pattern w) : (p.locate 0 true t).isSome = true := by
  obtain ⟨hne, -, a, r, rfl, ha, hr⟩ := Text.mem_words_iff.mp hw
  have haccepts : ∀ v, p.accepts v = true := fun v => by simp [accepts, hcolor]
  clear hw
  suffices hall : ∀ ab, (a = [] → ab = true) → (p.locate 0 ab (a ++ (w ++ r))).isSome = true from
    hall true fun _ => rfl
  -- The search goes on to the word, or ends before it with what it has found.
  induction a with
  | nil =>
    intro ab hab
    obtain rfl := hab rfl
    have hsome : (p.matchAt? true (w ++ r)).isSome = true := by
      simp only [matchAt?, Bool.true_or, if_true, Option.isSome_map, find?_isSome]
      exact ⟨r, h.fullPattern_eq ▸ Pattern.mem_ends_of_matches hm r, hr⟩
    obtain ⟨m, hmatch⟩ := Option.isSome_iff_exists.mp hsome
    obtain ⟨c, w, rfl⟩ := exists_cons_of_ne_nil hne
    rw [nil_append, cons_append] at *
    rw [locate, hmatch]
    simp [haccepts]
  | cons c a ih =>
    intro ab _
    obtain ⟨hfirst, ha⟩ := Text.atBreak_reverse_cons.mp ha
    have hrest := ih ha (Text.isBlank c) hfirst
    rw [cons_append, locate]
    split
    · rw [if_pos (haccepts _)]
      rfl
    · rwa [Option.isSome_map]

/-- **A text that the search passes**: the part matches at none of its words. -/
def Misses (p : Part) (x : Text) : Prop :=
  ∀ a b, x = a ++ b → b ≠ [] → Text.atBreak a.reverse = true →
    ∀ r, Text.atBreak r = true → p.matchAt? true (b ++ r) = none

/-- White space holds no match of a part that is a word. -/
theorem misses_of_blanks (h : p.IsWord) (hx : ∀ c ∈ x, Text.isBlank c = true) : p.Misses x := by
  rintro a b rfl hne - r -
  obtain ⟨c, b, rfl⟩ := exists_cons_of_ne_nil hne
  cases hm : p.matchAt? true (c :: b ++ r) with
  | none => rfl
  | some m =>
    obtain ⟨u, s⟩ := m
    obtain ⟨ht, hu, -⟩ := h.of_matchAt? hm
    obtain ⟨d, v, rfl, hd⟩ := h.starts u hu
    rw [← (cons.inj ht).1, hx c (by simp)] at hd
    contradiction

/-- The search takes nothing of the text: what the part matches at a word of it ends in it and is not
    accepted. -/
def Refuses (p : Part) (x : Text) : Prop :=
  ∀ a b, x = a ++ b → b ≠ [] → Text.atBreak a.reverse = true → ∀ r, Text.atBreak r = true →
    ∀ u s, p.matchAt? true (b ++ r) = some (u, s) → u.length ≤ b.length ∧ p.accepts u = false

/-- What has no match anywhere has none at the front. -/
theorem Misses.refuses (h : p.Misses x) : p.Refuses x := by
  intro a b hx hne ha r hr u s hm
  rw [h a b hx hne ha r hr] at hm
  contradiction

/-- At a break the search goes on alike, whatever stands before. -/
theorem locate_of_atBreak (h : p.IsWord) (ht : Text.atBreak t = true) (ab : Bool) :
    p.locate 0 ab t = p.locate 0 true t := by
  cases t with
  | nil => simp [locate]
  | cons c t => rw [locate_blank h ht ab, locate_blank h ht true]

/-- What is left of a text that the search refuses is passed: `skip` characters of a match that was not
    accepted, and what is behind them. -/
theorem locate_rest_of_refuses (h : p.IsWord) (hx : p.Refuses x) (ht : Text.atBreak t = true) :
    ∀ b a skip, x = a ++ b → skip ≤ b.length →
      p.locate skip (Text.atBreak a.reverse) (b ++ t) = (p.locate 0 true t).map (Place.behind b) := by
  intro b
  -- On what is left of the refusing text; some of it may have to be skipped as part of a match that was not
  -- accepted.
  induction b with
  | nil =>
    intro a skip _ hskip
    obtain rfl : skip = 0 := by simpa using hskip
    simp [locate_of_atBreak h ht]
  | cons c b ih =>
    intro a skip ha hskip
    have hpush : ∀ {k}, k ≤ b.length → (p.locate k (Text.isBlank c) (b ++ t)).map (·.push c) =
        (p.locate 0 true t).map (Place.behind (c :: b)) := by
      intro k hk
      rw [← Text.atBreak_reverse_concat a c, ih (a ++ [c]) k (by rw [ha, append_assoc]; rfl) hk,
        Option.map_map, Place.push_comp_behind]
    rw [cons_append]
    cases skip with
    | succ skip =>
      rw [locate]
      exact hpush (Nat.le_of_succ_le_succ hskip)
    | zero =>
      rw [locate]
      split
      · rename_i u s hm
        cases hbreak : Text.atBreak a.reverse with
        | false =>
          rw [hbreak, matchAt?_false h] at hm
          contradiction
        | true =>
          rw [hbreak, ← cons_append] at hm
          obtain ⟨hlength, haccepts⟩ := hx a (c :: b) ha (cons_ne_nil _ _) hbreak t ht u s hm
          rw [h.content_eq, haccepts]
          have hk : u.length - 1 ≤ b.length := by
            rw [length_cons] at hlength
            omega
          simpa using hpush hk
      · exact hpush (Nat.zero_le _)

/-- **The search goes on behind a text that it refuses.** -/
theorem locate_append_of_refuses (h : p.IsWord) (hx : p.Refuses x) (ht : Text.atBreak t = true) :
    p.locate 0 true (x ++ t) = (p.locate 0 true t).map (Place.behind x) :=
  locate_rest_of_refuses h hx ht x [] 0 rfl (Nat.zero_le _)

/-- The search goes on behind a text that it passes. -/
theorem locate_append_of_misses (h : p.IsWord) (hx : p.Misses x) (t : Text) :
    p.locate 0 true (x ++ ' ' :: t) = (p.locate 0 true t).map (Place.behind (x ++ [' '])) := by
  rw [locate_append_of_refuses h hx.refuses (t := ' ' :: t) rfl, locate_blank h rfl,
    Option.map_map, Place.behind_comp_push]

/-- Nothing is found in a text that the search passes. -/
theorem locate_eq_none_of_misses (h : p.IsWord) (hx : p.Misses x) : p.locate 0 true x = none := by
  have hnone := locate_append_of_refuses h hx.refuses (t := []) rfl
  rwa [append_nil, locate, Option.map_none] at hnone

/-! ## Texts that are joined

  In a joined value a part stands between the texts ahead of it and those behind it.
-/

/-- What stands before a text that is joined to these. -/
def ahead (xs : List Text) : Text := xs.flatMap (· ++ [' '])

/-- What stands behind a text that these are joined to. -/
def behind (xs : List Text) : Text := xs.flatMap (' ' :: ·)

/-- What stands behind are spaces and these texts. -/
theorem mem_behind {xs : List Text} {c : Char} (h : c ∈ behind xs) : c = ' ' ∨ ∃ x ∈ xs, c ∈ x := by
  obtain ⟨x, hx, hc⟩ := mem_flatMap.mp h
  exact (mem_cons.mp hc).imp_right fun hc => ⟨x, hx, hc⟩

/-- The words behind a piece start with a blank, if there are any. -/
theorem atBreak_behind (xs : List Text) : Text.atBreak (behind xs) = true := by
  cases xs <;> rfl

/-- Joined words are the first one and the others behind it. -/
theorem join_cons (u : Text) (xs : List Text) : Text.join [' '] (u :: xs) = u ++ behind xs := by
  induction xs generalizing u with
  | nil => simp [Text.join, behind]
  | cons v xs ih =>
    have hcons : Text.join [' '] (u :: v :: xs) = u ++ ' ' :: Text.join [' '] (v :: xs) := by
      simp [Text.join, intercalate_cons_cons]
    rw [hcons, ih]
    rfl

/-- A joined text holds the characters of its words, and blanks. -/
theorem mem_join {xs : List Text} {c : Char} (h : c ∈ Text.join [' '] xs) :
    c = ' ' ∨ ∃ x ∈ xs, c ∈ x := by
  cases xs with
  | nil => exact absurd h not_mem_nil
  | cons x xs =>
    rw [join_cons] at h
    rcases mem_append.mp h with h | h
    · exact Or.inr ⟨x, mem_cons_self, h⟩
    · exact (mem_behind h).imp_right fun ⟨y, hy, hc⟩ => ⟨y, mem_cons_of_mem _ hy, hc⟩

/-- Joined words are those ahead of a given one, the word, and those behind it. -/
theorem join_append (xs ys : List Text) (u : Text) :
    Text.join [' '] (xs ++ u :: ys) = ahead xs ++ (u ++ behind ys) := by
  induction xs with
  | nil => exact join_cons u ys
  | cons x xs ih =>
    have hcons : Text.join [' '] (x :: (xs ++ u :: ys)) = x ++ ' ' :: Text.join [' '] (xs ++ u :: ys) := by
      cases xs <;> simp [Text.join, intercalate_cons_cons]
    rw [cons_append, hcons, ih]
    simp [ahead]

/-- The words of what is behind a piece are those of the later pieces. -/
theorem words_behind (xs : List Text) : Text.words (behind xs) = xs.flatMap Text.words := by
  induction xs with
  | nil => rfl
  | cons x xs ih =>
    have hcons : behind (x :: xs) = [' '] ++ (x ++ behind xs) := rfl
    rw [hcons, Text.words_blanks_append (forall_mem_singleton.mpr rfl),
      Text.words_append_of_atBreak (atBreak_behind xs), ih, flatMap_cons]

/-- **The words of joined texts** are those of all the texts. -/
theorem words_join (xs : List Text) : Text.words (Text.join [' '] xs) = xs.flatMap Text.words := by
  cases xs with
  | nil => rfl
  | cons x xs =>
    have hjoin : Text.words (behind (x :: xs)) = Text.words (Text.join [' '] (x :: xs)) := by
      rw [join_cons]
      rfl
    rw [← hjoin, words_behind]

/-- Collapsing keeps the words. -/
theorem words_collapse (t : Text) : Text.words (Text.collapse t) = Text.words t := by
  have hword : ∀ w ∈ Text.words t, Text.words w = [w] := fun w hw =>
    Text.words_of_word (Text.mem_words_iff.mp hw).1 (Text.mem_words_iff.mp hw).2.1
  rw [Text.collapse, words_join, flatMap_congr hword, flatMap_singleton']

/-- Two lists of words are joined with a blank between them, when neither is empty. -/
theorem join_append_of_ne_nil {xs ys : List Text} (hxs : xs ≠ []) (hys : ys ≠ []) :
    Text.join [' '] (xs ++ ys) = Text.join [' '] xs ++ ' ' :: Text.join [' '] ys := by
  obtain ⟨x, xs, rfl⟩ := exists_cons_of_ne_nil hxs
  obtain ⟨y, ys, rfl⟩ := exists_cons_of_ne_nil hys
  rw [cons_append, join_cons, join_cons, join_cons]
  simp [behind]

/-- **Texts with single spaces stay as they are** when they are joined with single spaces. -/
theorem collapse_join {xs : List Text} (h : ∀ x ∈ xs, x ≠ [] ∧ Text.collapse x = x) :
    Text.collapse (Text.join [' '] xs) = Text.join [' '] xs := by
  rw [Text.collapse, words_join]
  induction xs with
  | nil => rfl
  | cons x xs ih =>
    obtain ⟨hne, hx⟩ := h x mem_cons_self
    have hrest := fun y hy => h y (mem_cons_of_mem _ hy)
    have hwords : ∀ {y : Text}, y ≠ [] ∧ Text.collapse y = y → Text.words y ≠ [] := by
      rintro y ⟨hy, hcollapse⟩ hnil
      rw [Text.collapse, hnil] at hcollapse
      exact hy hcollapse.symm
    cases xs with
    | nil => simpa [Text.join, Text.collapse] using hx
    | cons y ys =>
      have hy : (y :: ys).flatMap Text.words ≠ [] := by
        rw [flatMap_cons]
        exact append_ne_nil_of_left_ne_nil (hwords (hrest y mem_cons_self)) _
      have hsplit : Text.join [' '] (x :: y :: ys) = x ++ ' ' :: Text.join [' '] (y :: ys) := by
        simp [Text.join, intercalate_cons_cons]
      rw [flatMap_cons, join_append_of_ne_nil (hwords (h x mem_cons_self)) hy, ih hrest, hsplit]
      exact congrArg (· ++ _) hx

/-- A text with single spaces begins and ends with words. -/
theorem ends_of_collapse_eq (hne : x ≠ []) (h : Text.collapse x = x) :
    (∃ c t, x = c :: t ∧ Text.isBlank c = false) ∧ ∃ t d, x = t ++ [d] ∧ Text.isBlank d = false := by
  rw [Text.collapse] at h
  rcases eq_nil_or_concat (Text.words x) with hnil | ⟨ws, w, hws⟩
  · rw [hnil] at h
    exact absurd h.symm hne
  · rw [concat_eq_append] at hws
    constructor
    · obtain ⟨v, vs, hv⟩ := exists_cons_of_ne_nil (l := Text.words x) (by simp [hws])
      obtain ⟨hvne, hblank, -⟩ := Text.mem_words_iff.mp (hv ▸ mem_cons_self : v ∈ Text.words x)
      obtain ⟨c, v, rfl⟩ := exists_cons_of_ne_nil hvne
      rw [hv, join_cons] at h
      exact ⟨c, _, h.symm, hblank c mem_cons_self⟩
    · obtain ⟨hwne, hblank, -⟩ := Text.mem_words_iff.mp (hws ▸ mem_append_right ws mem_cons_self : w ∈ Text.words x)
      obtain ⟨t, d, rfl⟩ := (eq_nil_or_concat w).resolve_left hwne
      rw [hws, join_append] at h
      refine ⟨ahead ws ++ t, d, ?_, hblank d (by simp)⟩
      rw [← h]
      simp [behind]

/-- The words of a text that is joined to others are words of them all. -/
theorem mem_words_join {xs : List Text} (hx : x ∈ xs) (hw : w ∈ Text.words x) :
    w ∈ Text.words (Text.join [' '] xs) := by
  rw [words_join]
  exact mem_flatMap.mpr ⟨x, hx, hw⟩

/-- The search steps over pieces in which a part has no match. -/
theorem locate_ahead (h : p.IsWord) {xs : List Text} (hxs : ∀ x ∈ xs, p.Misses x) (t : Text) :
    p.locate 0 true (ahead xs ++ t) =
      (p.locate 0 true t).map (Place.behind (ahead xs)) := by
  induction xs with
  | nil => simp [ahead]
  | cons x xs ih =>
    have hcons : ahead (x :: xs) ++ t = x ++ ' ' :: (ahead xs ++ t) := by simp [ahead]
    rw [hcons, locate_append_of_misses h (hxs x mem_cons_self),
      ih fun y hy => hxs y (mem_cons_of_mem _ hy)]
    simp [ahead]

/-- **What the search arrives at is taken out**, and a space is left. -/
theorem takePart_join (h : p.IsWord) (xs ys : List Text) (hxs : ∀ x ∈ xs, p.Misses x)
    (hu : p.locate 0 true (u ++ behind ys) = some ⟨[], u, behind ys⟩) :
    Slices.takePart (Text.join [' '] (xs ++ u :: ys)) p =
      (some u, Text.join [' '] (xs ++ [' '] :: ys)) := by
  rw [Slices.takePart, join_append, locate_ahead h hxs, hu, join_append]
  simp [h.content_eq]

/-- **Nothing is taken out** of texts that the search passes. -/
theorem takePart_of_misses (h : p.IsWord) {xs : List Text} (hxs : ∀ x ∈ xs, p.Misses x) :
    Slices.takePart (Text.join [' '] xs) p = (none, Text.join [' '] xs) := by
  have hnone : p.locate 0 true (Text.join [' '] xs) = none := by
    rcases eq_nil_or_concat xs with rfl | ⟨xs, x, rfl⟩
    · rfl
    · rw [concat_eq_append] at hxs ⊢
      rw [join_append, locate_ahead h fun y hy => hxs y (mem_append_left _ hy), behind, flatMap_nil,
        append_nil, locate_eq_none_of_misses h (hxs x (by simp))]
      rfl
  rw [Slices.takePart, hnone]

/-- **A part that may be there is taken out**, and a space is left in its place. -/
theorem takePart_option (h : p.IsWord) (xs ys : List Text) (o : Option Text)
    (hxs : ∀ x ∈ xs, p.Misses x) (hys : o = none → ∀ y ∈ ys, p.Misses y)
    (ho : ∀ u ∈ o, p.locate 0 true (u ++ behind ys) = some ⟨[], u, behind ys⟩) :
    Slices.takePart (Text.join [' '] (xs ++ (o.toList ++ ys))) p =
      (o, Text.join [' '] (xs ++ ((o.map fun _ => [' ']).toList ++ ys))) := by
  cases o with
  | none => exact takePart_of_misses h fun x hx => (mem_append.mp hx).elim (hxs x) (hys rfl x)
  | some u => exact takePart_join h xs ys hxs (ho u rfl)

end Part

namespace Slices

/-- The text of a part that may be found. -/
theorem get?_option (suffix name : String) (o : Option Text) (found : List (String × Text)) (r : Text) :
    get? ⟨(o.map (suffix, ·)).toList ++ found, r⟩ name =
      if name = suffix then o.or (get? ⟨found, r⟩ name) else get? ⟨found, r⟩ name := by
  cases o with
  | none => simp
  | some u =>
    by_cases h : name = suffix
    · simp [get?, h]
    · have hne : (name == suffix) = false := by simpa using h
      simp [get?, h, lookup_cons, hne]

/-- No parts take nothing. -/
theorem takeParts_nil (value : Text) : takeParts value [] = ([], value) := rfl

/-- What is found for the first part of a table, and then for the others. -/
theorem takeParts_cons (value : Text) (p : Part) (ps : List Part) :
    takeParts value (p :: ps) =
      (((takePart value p).1.map (p.suffix, ·)).toList ++ (takeParts (takePart value p).2 ps).1,
        (takeParts (takePart value p).2 ps).2) := by
  rw [takeParts]
  cases (takePart value p).1 <;> rfl

/-- No part finds anything in the blank that another one left. -/
theorem misses_blanked {q : Part} (h : q.IsWord) (o : Option Text) :
    ∀ x ∈ (o.map fun _ => [' ']).toList, q.Misses x := by
  cases o with
  | none => nofun
  | some u => exact forall_mem_singleton.mpr (Part.misses_of_blanks h (forall_mem_singleton.mpr rfl))

/-- Only blanks are left of values that are all taken out. -/
theorem blank_of_mem_join {xs : List Text} (h : ∀ x ∈ xs, x = [' ']) :
    ∀ c ∈ Text.join [' '] xs, Text.isBlank c = true := by
  intro c hc
  rcases Part.mem_join hc with rfl | ⟨x, hx, hc⟩
  · rfl
  · rw [h x hx] at hc
    rw [mem_singleton.mp hc]
    rfl

end Slices

namespace Part

variable {p : Part} {r t u v w x : Text}

/-! ## Parts that begin with a word

  A keyword is passed over by a part that opens with other words.
-/

/-- A part that begins with a whole word, of a kind. -/
structure Opens (p : Part) (q : Text → Prop) : Prop where
  followsSlash : p.followsSlash = false
  exists_word : ∀ u, Pattern.Matches p.pattern u → ∃ w r, u = w ++ r ∧ w ≠ [] ∧
    (∀ c ∈ w, Text.isBlank c = false) ∧ Text.atBreak r = true ∧ q w

variable {q : Text → Prop}

/-- A part that opens with a word is a whole word: what it takes ends at a break. -/
theorem Opens.isWord (h : p.Opens q) : p.IsWord where
  followsSlash := h.followsSlash
  starts u hu := by
    obtain ⟨w, r, rfl, hne, hw, -⟩ := h.exists_word u hu
    obtain ⟨c, w, rfl⟩ := exists_cons_of_ne_nil hne
    exact ⟨c, w ++ r, rfl, hw c mem_cons_self⟩

/-- A part that is a plain word. -/
theorem opens_of_plain (hslash : p.followsSlash = false) (hplain : Pattern.UsesPlain p.pattern)
    (hne : ∀ u, Pattern.Matches p.pattern u → u ≠ []) : p.Opens (Pattern.Matches p.pattern) where
  followsSlash := hslash
  exists_word u hu := ⟨u, [], (append_nil u).symm, hne u hu,
    Pattern.isBlank_of_isPlain_of_matches hu hplain, rfl, hu⟩

/-- **The search passes a text if no word of it begins the part.** -/
theorem Opens.misses (h : p.Opens q) (hx : ∀ w ∈ Text.words x, ¬q w) : p.Misses x := by
  rintro a b rfl hne ha r hr
  cases hm : p.matchAt? true (b ++ r) with
  | none => rfl
  | some m =>
    exfalso
    obtain ⟨u, s⟩ := m
    obtain ⟨ht, hu, hs⟩ := h.isWord.of_matchAt? hm
    obtain ⟨w, t, rfl, hwne, hw, ht', hq⟩ := h.exists_word u hu
    have hstart : Text.atBreak b = false := by
      obtain ⟨c, b, rfl⟩ := exists_cons_of_ne_nil hne
      obtain ⟨d, w, rfl⟩ := exists_cons_of_ne_nil hwne
      rw [Text.atBreak, (cons.inj ht).1, hw d mem_cons_self]
    obtain ⟨v, b', rfl, hvne, hv, hb'⟩ := Text.exists_word hstart
    rw [append_assoc, append_assoc] at ht
    obtain rfl := Text.eq_of_append_of_atBreak hv hw (Text.atBreak_append hb' hr)
      (Text.atBreak_append ht' hs) ht
    exact hx v (Text.mem_words_iff.mpr ⟨hvne, hv, a, b', rfl, ha, hb'⟩) hq

/-- A plain part is found where it stands. -/
theorem locate_plain (hslash : p.followsSlash = false) (hcolor : p.isColor = false)
    (hplain : Pattern.UsesPlain p.pattern) (hne : ∀ u, Pattern.Matches p.pattern u → u ≠ [])
    (hu : Pattern.Matches p.pattern u) (hr : Text.atBreak r = true) :
    p.locate 0 true (u ++ r) = some ⟨[], u, r⟩ := by
  have h := (opens_of_plain hslash hplain hne).isWord
  exact locate_of_matchAt? h hcolor (matchAt?_of_only h hu hr fun _ _ happend hv hs =>
    eq_of_plain hplain (hu.forall_mem hplain) hr happend hv hs)

end Part

/-! ## Lists of words

  A list takes as many words as it can; the first that is none of its own ends it.
-/

namespace Pattern

variable {p : Pattern} {n : Nat} {r s t u v w : Text}

/-- The pattern matches words only. -/
def OfWords (p : Pattern) : Prop := ∀ u, Matches p u → u ≠ [] ∧ ∀ c ∈ u, Text.isBlank c = false

/-- A further word of a list. -/
def further (p : Pattern) : Pattern := .seq blanks p

/-- A further word stands behind blanks. -/
theorem exists_of_matches_further (h : Matches (further p) u) :
    ∃ b w, u = b ++ w ∧ b ≠ [] ∧ (∀ c ∈ b, Text.isBlank c = true) ∧ Matches p w := by
  cases h with
  | @seq _ _ b w hb hw =>
    have huses : Uses (fun c => Text.isBlank c = true) blanks := ⟨fun _ h => h, fun _ h => h⟩
    refine ⟨b, w, rfl, ne_nil_of_matches_oneOrMore (fun v hv => ?_) hb, hb.forall_mem huses, hw⟩
    cases hv
    exact cons_ne_nil _ _

/-- There is one way to take a further word. -/
theorem eq_of_matches_further (hp : p.OfWords) (hu : Matches (further p) u) (hv : Matches (further p) v)
    (hr : Text.atBreak r = true) (hs : Text.atBreak s = true) (h : u ++ r = v ++ s) : u = v := by
  obtain ⟨b, w, rfl, -, hb, hw⟩ := exists_of_matches_further hu
  obtain ⟨b', w', rfl, -, hb', hw'⟩ := exists_of_matches_further hv
  have hdrop : ∀ {b w r : Text}, (∀ c ∈ b, Text.isBlank c = true) → Matches p w →
      (b ++ w ++ r).dropWhile Text.isBlank = w ++ r := by
    intro b w r hb hw
    obtain ⟨hne, hblank⟩ := hp w hw
    obtain ⟨c, w, rfl⟩ := exists_cons_of_ne_nil hne
    rw [append_assoc, dropWhile_append_of_pos hb, cons_append,
      dropWhile_cons_of_neg (by simp [hblank c mem_cons_self])]
  have hwords : w ++ r = w' ++ s := by
    rw [← hdrop (r := r) hb hw, h, hdrop hb' hw']
  obtain rfl := Text.eq_of_append_of_atBreak (hp w hw).2 (hp w' hw').2 hr hs hwords
  rw [append_cancel_left hwords] at h
  exact append_cancel_right h

/-- The list does not go on at `r`. -/
def EndsAt (p : Pattern) (r : Text) : Prop :=
  Text.atBreak r = true ∧
    ∀ v s, r = v ++ s → Matches (further p) v → Text.atBreak s = false

/-- What a search finds in several lists is found in the list of them all, if no list says otherwise. -/
theorem find?_flatMap_of_forall {α β : Type} {l : List α} {f : α → List β} {P : β → Bool} {x : β}
    (h : ∀ y ∈ l, (f y).find? P = none ∨ (f y).find? P = some x) (hex : ∃ y ∈ l, (f y).find? P = some x) :
    (l.flatMap f).find? P = some x := by
  induction l with
  | nil =>
    obtain ⟨y, hy, -⟩ := hex
    contradiction
  | cons y l ih =>
    rw [flatMap_cons, find?_append]
    rcases h y mem_cons_self with hy | hy
    · rw [hy, Option.none_or]
      refine ih (fun z hz => h z (mem_cons_of_mem _ hz)) ?_
      obtain ⟨z, hz, hzx⟩ := hex
      rcases mem_cons.mp hz with rfl | hz
      · rw [hy] at hzx
        contradiction
      · exact ⟨z, hz, hzx⟩
    · rw [hy, Option.some_or]

/-- Further words begin with a blank. -/
theorem atBreak_of_matches_upTo (h : Matches (upTo n (further p)) u) : Text.atBreak u = true := by
  cases n with
  | zero =>
    obtain rfl := eq_nil_of_matches_upTo_zero h
    rfl
  | succ n =>
    rcases cases_of_matches_upTo_succ h with rfl | ⟨v, w, rfl, hv, -⟩
    · rfl
    · obtain ⟨b, x, rfl, hne, hb, -⟩ := exists_of_matches_further hv
      obtain ⟨c, b, rfl⟩ := exists_cons_of_ne_nil hne
      exact hb c mem_cons_self

/-- Within a word no list goes on. -/
theorem find?_ends_upTo_eq_none (hs : Text.atBreak s = false) :
    (ends (upTo n (further p)) s).find? Text.atBreak = none := by
  refine find?_eq_none.mpr fun r hr => ?_
  obtain ⟨u, rfl, hu⟩ := matches_of_mem_ends hr
  intro hbreak
  have hu := atBreak_of_matches_upTo hu
  cases u with
  | nil =>
    rw [nil_append] at hs
    simp [hs] at hbreak
  | cons c u =>
    have hc : Text.atBreak (c :: u) = false := hs
    rw [hc] at hu
    contradiction

/-- No further words are taken where the list does not go on. -/
theorem find?_ends_upTo_of_endsAt (hr : p.EndsAt r) (n : Nat) :
    (ends (upTo n (further p)) r).find? Text.atBreak = some r := by
  cases n with
  | zero => simp [upTo, ends, hr.1]
  | succ n =>
    have hnone : (ends (.seq (further p) (upTo n (further p))) r).find? Text.atBreak = none := by
      refine find?_eq_none.mpr fun t ht hbreak => ?_
      obtain ⟨s, hs, hst⟩ := mem_flatMap.mp ht
      obtain ⟨v, hvs, hv⟩ := matches_of_mem_ends hs
      have hnot := find?_ends_upTo_eq_none (p := p) (n := n) (hr.2 v s hvs hv)
      exact absurd hbreak (find?_eq_none.mp hnot t hst)
    show (ends (.seq (further p) (upTo n (further p))) r ++ [r]).find? Text.atBreak = some r
    rw [find?_append, hnone]
    simp [hr.1]

/-- **Further words are taken as far as they go.** -/
theorem find?_ends_upTo (hp : p.OfWords) (hu : Matches (upTo n (further p)) u) (hr : p.EndsAt r) :
    (ends (upTo n (further p)) (u ++ r)).find? Text.atBreak = some r := by
  induction n generalizing u with
  | zero =>
    cases hu
    exact find?_ends_upTo_of_endsAt hr 0
  | succ n ih =>
    rcases cases_of_matches_upTo_succ hu with rfl | ⟨v, w, rfl, hv, hw⟩
    · exact find?_ends_upTo_of_endsAt hr (n + 1)
    · have hmore : Text.atBreak (w ++ r) = true := Text.atBreak_append (atBreak_of_matches_upTo hw) hr.1
      have hfound : (ends (.seq (further p) (upTo n (further p))) (v ++ w ++ r)).find?
          Text.atBreak = some r := by
        rw [append_assoc]
        -- The next word ends in one way only, or where no list ends.
        refine find?_flatMap_of_forall (fun s hs => ?_)
          ⟨w ++ r, mem_ends_of_matches hv _, ih hw⟩
        obtain ⟨x, hx, hmx⟩ := matches_of_mem_ends hs
        cases hbreak : Text.atBreak s with
        | false => exact Or.inl (find?_ends_upTo_eq_none hbreak)
        | true =>
          obtain rfl := eq_of_matches_further hp hv hmx hmore hbreak hx
          rw [← append_cancel_left hx]
          exact Or.inr (ih hw)
      show (ends (.seq (further p) (upTo n (further p))) (v ++ w ++ r) ++ [v ++ w ++ r]).find?
        Text.atBreak = some r
      rw [find?_append, hfound]
      rfl

/-- The words that go on a list are matched by its pattern. -/
theorem matches_of_mem_words_upTo (hp : p.OfWords) (hu : Matches (upTo n (further p)) u) :
    ∀ w ∈ Text.words u, Matches p w := by
  induction n generalizing u with
  | zero =>
    obtain rfl := eq_nil_of_matches_upTo_zero hu
    nofun
  | succ n ih =>
    rcases cases_of_matches_upTo_succ hu with rfl | ⟨v, x, rfl, hv, hx⟩
    · nofun
    · obtain ⟨b, w, rfl, -, hb, hw⟩ := exists_of_matches_further hv
      rw [append_assoc, Text.words_blanks_append hb,
        Text.words_append (hp w hw).1 (hp w hw).2 (atBreak_of_matches_upTo hx)]
      exact forall_mem_cons.mpr ⟨hw, ih hx⟩

/-- **The words of a list** are matched by its pattern. -/
theorem matches_of_mem_words_listOf (hp : p.OfWords) (hu : Matches (listOf n p) u) :
    ∀ w ∈ Text.words u, Matches p w := by
  cases hu with
  | @seq _ _ w v hw hv =>
    rw [Text.words_append (hp w hw).1 (hp w hw).2 (atBreak_of_matches_upTo hv)]
    exact forall_mem_cons.mpr ⟨hw, matches_of_mem_words_upTo hp hv⟩

/-- What goes on a list ends with a word, if it is anything. -/
theorem exists_append_of_matches_upTo (hu : Matches (upTo n (further p)) u) :
    u = [] ∨ ∃ v w, u = v ++ w ∧ Matches p w := by
  induction n generalizing u with
  | zero => exact Or.inl (eq_nil_of_matches_upTo_zero hu)
  | succ n ih =>
    rcases cases_of_matches_upTo_succ hu with rfl | ⟨v, x, rfl, hv, hx⟩
    · exact Or.inl rfl
    · obtain ⟨b, w, rfl, -, -, hw⟩ := exists_of_matches_further hv
      rcases ih hx with rfl | ⟨y, z, rfl, hz⟩
      · exact Or.inr ⟨b, w, by simp, hw⟩
      · exact Or.inr ⟨b ++ w ++ y, z, by simp, hz⟩

/-- A list ends with a word. -/
theorem exists_append_of_matches_listOf (hu : Matches (listOf n p) u) :
    ∃ v w, u = v ++ w ∧ Matches p w := by
  cases hu with
  | @seq _ _ w v hw hv =>
    rcases exists_append_of_matches_upTo hv with rfl | ⟨y, z, rfl, hz⟩
    · exact ⟨[], w, by simp, hw⟩
    · exact ⟨w ++ y, z, by simp, hz⟩

/-- A list does not go on where no word of it stands. -/
theorem endsAt_of_words (hr : Text.atBreak r = true) (h : ∀ w ∈ Text.words r, ¬Matches p w)
    (hp : p.OfWords) : p.EndsAt r := by
  refine ⟨hr, fun v s hvs hv => ?_⟩
  obtain ⟨b, w, rfl, -, hb, hw⟩ := exists_of_matches_further hv
  by_contra hs
  refine h w (Text.mem_words_iff.mpr ⟨(hp w hw).1, (hp w hw).2, b, s, ?_, ?_, by simpa using hs⟩) hw
  · rw [hvs, append_assoc]
  · cases hrev : b.reverse with
    | nil => rfl
    | cons c d => exact hb c (mem_reverse.mp (hrev ▸ mem_cons_self))

/-- **A list of words is taken as far as it goes.** -/
theorem find?_ends_listOf (hp : p.OfWords) (hu : Matches (listOf n p) u) (hr : p.EndsAt r) :
    (ends (listOf n p) (u ++ r)).find? Text.atBreak = some r := by
  cases hu with
  | @seq _ _ w v hw hv =>
    have hbreak : Text.atBreak (v ++ r) = true := Text.atBreak_append (atBreak_of_matches_upTo hv) hr.1
    show ((ends p (w ++ v ++ r)).flatMap (ends (upTo n (further p)))).find? Text.atBreak = some r
    rw [append_assoc]
    refine find?_flatMap_of_forall (fun s hs => ?_)
      ⟨v ++ r, mem_ends_of_matches hw _, find?_ends_upTo hp hv hr⟩
    obtain ⟨x, hx, hmx⟩ := matches_of_mem_ends hs
    cases hsbreak : Text.atBreak s with
    | false => exact Or.inl (find?_ends_upTo_eq_none hsbreak)
    | true =>
      obtain rfl := Text.eq_of_append_of_atBreak (hp w hw).2 (hp x hmx).2 hbreak hsbreak hx
      rw [← append_cancel_left hx]
      exact Or.inr (find?_ends_upTo hp hv hr)

end Pattern

namespace Part

variable {p : Part} {q : Pattern} {n : Nat} {r u : Text}

/-- A part that is a list of words begins with one of them. -/
theorem opens_of_list (hslash : p.followsSlash = false) (hlist : p.pattern = .listOf n q)
    (hq : q.OfWords) : p.Opens (Pattern.Matches q) where
  followsSlash := hslash
  exists_word u hu := by
    rw [hlist] at hu
    cases hu with
    | @seq _ _ w v hw hv =>
      exact ⟨w, v, rfl, (hq w hw).1, (hq w hw).2, Pattern.atBreak_of_matches_upTo hv, hw⟩

/-- A list of words is found where it stands. -/
theorem locate_list (hslash : p.followsSlash = false) (hcolor : p.isColor = false)
    (hlist : p.pattern = .listOf n q) (hq : q.OfWords) (hu : Pattern.Matches p.pattern u)
    (hr : q.EndsAt r) : p.locate 0 true (u ++ r) = some ⟨[], u, r⟩ := by
  refine locate_of_find? (opens_of_list hslash hlist hq).isWord hcolor ?_
  rw [hlist]
  exact Pattern.find?_ends_listOf hq (hlist ▸ hu) hr

end Part

end CssShorthand
