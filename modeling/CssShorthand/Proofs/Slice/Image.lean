/-
  FINDING AN IMAGE.

  A URL, a gradient and `none` are the images of a background, a URL and `none` those of a list.  What a
  pattern takes of a text is mostly decided by the text (`Pattern.Decides`): the arguments of a gradient
  end with the bracket that closes the first one, a URL in quotes with the bracket behind its quote.

  A URL is the exception.  It may be read as one in quotes or as one without, and the first way is
  preferred; but if no bracket closes behind the image, or no quotes stand there, all ways that lead to a
  break take the same (`find?_ends_url`).  So an image is taken to its end (`find?_ends_image`, `find?_ends_listImage`).
-/
import CssShorthand.Proofs.Slice.Front
import CssShorthand.Proofs.Slice.Words

namespace CssShorthand

open List

namespace Text

/-- A character is one of names if the form that stands for its cases is. -/
theorem isChar_of_foldCase {c : Char} (h : Name.isChar (foldCase c) = true) : Name.isChar c = true := by
  unfold foldCase at h
  split at h
  · rename_i hc
    rcases hc with rfl | rfl <;> decide
  · split at h
    · rename_i hc
      subst hc
      decide
    · split at h
      · rename_i hc
        subst hc
        decide
      · unfold Char.toLower at h
        split at h
        · rename_i hupper
          have : c.isUpper = true := by simpa [Char.isUpper] using hupper
          simp [Name.isChar, Name.isStart, Char.isAlpha, this]
        · exact h

end Text

/-- The form that stands for the cases of an argument of colors is one. -/
theorem Spot.isArgumentChar_foldCase {c : Char} (h : isArgumentChar c = true) :
    isArgumentChar (Text.foldCase c) = true := by
  simp only [isArgumentChar, Number.isNumeralChar, Bool.or_eq_true, beq_iff_eq] at h
  have hdigit : c.isDigit = true → Text.foldCase c = c := by
    intro h
    simp only [Char.isDigit, Bool.and_eq_true, decide_eq_true_eq] at h
    have hbounds : 48 ≤ c.toNat ∧ c.toNat ≤ 57 := h
    have hne : ∀ d : Char, 57 < d.toNat → c ≠ d := by
      rintro d hd rfl
      omega
    have hlower : c.toLower = c := by
      unfold Char.toLower
      rw [dif_neg]
      rintro ⟨hupper, -⟩
      have : 65 ≤ c.toNat := hupper
      omega
    simp [Text.foldCase, hne, hlower]
  rcases h with ((((((h | rfl) | rfl) | rfl) | rfl) | rfl) | rfl) | rfl
  · rw [hdigit h]
    simp [isArgumentChar, Number.isNumeralChar, h]
  all_goals decide

namespace Pattern

variable {r s t u v : Text} {c : Char}

/-! ## URLs

  The three ways to read a url, and the condition under which they agree on where it ends.
-/

/-- A URL with this between its brackets. -/
def urlOf (inside : Pattern) : Pattern := all [.word ['u', 'r', 'l'], just '(', inside, just ')']

/-- What is between the brackets of a URL without quotes. -/
def bare : Pattern := .many (noneOf [')'])

/-- The ways to read a URL, in their order. -/
theorem ends_url (t : Text) :
    ends url t = ends (urlOf (inQuotes '"')) t ++
      (ends (urlOf (inQuotes '\'')) t ++ ends (urlOf bare) t) := by
  have hinside : ∀ t, ends (oneOf [inQuotes '"', inQuotes '\'', .many (noneOf [')'])]) t =
      ends (inQuotes '"') t ++ (ends (inQuotes '\'') t ++ ends bare t) := by
    intro t
    have hnever : ends never t = [] := by cases t <;> simp [never, ends]
    show ends (inQuotes '"') t ++ (ends (inQuotes '\'') t ++ (ends bare t ++ ends never t)) = _
    rw [hnever, append_nil]
  simp only [url, urlOf, all, foldr_cons, foldr_nil, ends, hinside]
  cases Text.dropFolded? ['u', 'r', 'l'] t with
  | none => simp
  | some r =>
    cases r with
    | nil => simp [just, ends]
    | cons c r =>
      by_cases hc : c = '('
      · simp [just, ends, hc]
      · simp [just, ends, hc]

/-- A url is its name in any case, a bracket, what is inside, and the closing bracket. -/
theorem exists_of_matches_urlOf {inside : Pattern} (h : Matches (urlOf inside) u) :
    ∃ name x, u = name ++ '(' :: (x ++ [')']) ∧
      (['u', 'r', 'l'] : Text).map Text.foldCase = name.map Text.foldCase ∧ Matches inside x := by
  simp only [urlOf, matches_all_cons_iff, matches_all_nil_iff] at h
  obtain ⟨name, _, rfl, hname, _, _, rfl, hopen, x, _, rfl, hx, _, _, rfl, hclose, rfl⟩ := h
  obtain rfl := eq_of_matches_just hopen
  obtain rfl := eq_of_matches_just hclose
  exact ⟨name, x, by simp, matches_word_iff.mp hname, hx⟩

/-- A url is quoted in one of two ways, or bare. -/
theorem cases_of_matches_url (h : Matches url u) :
    Matches (urlOf (inQuotes '"')) u ∨ Matches (urlOf (inQuotes '\'')) u ∨ Matches (urlOf bare) u := by
  rw [← nil_mem_ends_iff, ends_url, mem_append, mem_append] at h
  exact h.imp nil_mem_ends_iff.mp (Or.imp nil_mem_ends_iff.mp nil_mem_ends_iff.mp)

/-- A URL is a name in letters and what stands in its brackets. -/
theorem exists_of_matches_url (h : Matches url u) :
    ∃ name x, u = name ++ '(' :: (x ++ [')']) ∧
      (['u', 'r', 'l'] : Text).map Text.foldCase = name.map Text.foldCase := by
  obtain ⟨inside, h⟩ : ∃ inside, Matches (urlOf inside) u := by
    rcases cases_of_matches_url h with h | h | h <;> exact ⟨_, h⟩
  obtain ⟨name, x, hu, hname, -⟩ := exists_of_matches_urlOf h
  exact ⟨name, x, hu, hname⟩

/-- The quoted text of a url: white space around it, and no quote of its kind inside. -/
theorem exists_of_matches_inQuotes {quote : Char} (h : Matches (inQuotes quote) u) :
    ∃ a x b, u = a ++ quote :: (x ++ quote :: b) ∧ (∀ c ∈ a, Text.isBlank c = true) ∧
      quote ∉ x ∧ ∀ c ∈ b, Text.isBlank c = true := by
  simp only [inQuotes, matches_all_cons_iff, matches_all_nil_iff] at h
  obtain ⟨a, _, rfl, ha, _, _, rfl, hopen, x, _, rfl, hx, _, _, rfl, hclose, b, _, rfl, hb, rfl⟩ := h
  obtain rfl := eq_of_matches_just hopen
  obtain rfl := eq_of_matches_just hclose
  have hblank : ∀ {y : Text}, Matches maybeBlanks y → ∀ c ∈ y, Text.isBlank c = true := fun hy =>
    hy.forall_mem (Q := fun c => Text.isBlank c = true) fun _ h => h
  have hnone : ∀ c ∈ x, c ≠ quote :=
    hx.forall_mem (Q := fun c => c ≠ quote) fun c hc => by simpa using hc
  exact ⟨a, x, b, by simp, hblank ha, fun hm => hnone _ hm rfl, hblank hb⟩

/-- A name in letters ends at the bracket. -/
theorem name_unique {name name' x y : Text}
    (hname : (['u', 'r', 'l'] : Text).map Text.foldCase = name.map Text.foldCase)
    (hname' : (['u', 'r', 'l'] : Text).map Text.foldCase = name'.map Text.foldCase)
    (h : name ++ '(' :: x = name' ++ '(' :: y) : name = name' ∧ x = y := by
  have hlength : name.length = name'.length := by
    simpa only [length_map] using congrArg List.length (hname.symm.trans hname')
  obtain ⟨rfl, hrest⟩ := append_inj h hlength
  exact ⟨rfl, (cons.inj hrest).2⟩

/-- **A URL in quotes ends behind its quotes.** -/
theorem decides_urlOf_inQuotes {quote : Char} (hblank : Text.isBlank quote = false) :
    Decides (urlOf (inQuotes quote)) := by
  intro u v r s hu hv h
  obtain ⟨name, x, rfl, hname, hx⟩ := exists_of_matches_urlOf hu
  obtain ⟨name', x', rfl, hname', hx'⟩ := exists_of_matches_urlOf hv
  obtain ⟨a, y, b, rfl, ha, hy, hb⟩ := exists_of_matches_inQuotes hx
  obtain ⟨a', y', b', rfl, ha', hy', hb'⟩ := exists_of_matches_inQuotes hx'
  simp only [append_assoc, cons_append] at h
  obtain ⟨rfl, hinside⟩ := name_unique hname hname' h
  obtain ⟨rfl, hquoted⟩ := Text.cut_unique ha ha' (by simp [hblank]) (by simp [hblank]) hinside
  obtain ⟨rfl, hbehind⟩ := Text.cut_unique (P := (· ≠ quote)) (fun c hc he => hy (he ▸ hc))
    (fun c hc he => hy' (he ▸ hc)) (by simp) (by simp) (cons.inj hquoted).2
  have hbracket : ¬Text.isBlank ')' = true := by decide
  obtain ⟨rfl, -⟩ := Text.cut_unique hb hb' (Text.forall_mem_head?_cons hbracket)
    (Text.forall_mem_head?_cons hbracket) (cons.inj hbehind).2
  rfl

/-- No URL is in both kinds of quotes. -/
theorem apart_urlOf_inQuotes : Apart (urlOf (inQuotes '"')) (urlOf (inQuotes '\'')) := by
  intro u v r s hu hv h
  obtain ⟨name, x, rfl, hname, hx⟩ := exists_of_matches_urlOf hu
  obtain ⟨name', x', rfl, hname', hx'⟩ := exists_of_matches_urlOf hv
  obtain ⟨a, y, b, rfl, ha, -⟩ := exists_of_matches_inQuotes hx
  obtain ⟨a', y', b', rfl, ha', -⟩ := exists_of_matches_inQuotes hx'
  simp only [append_assoc, cons_append] at h
  obtain ⟨rfl, hinside⟩ := name_unique hname hname' h
  have hdouble : ¬Text.isBlank '"' = true := by decide
  have hsingle : ¬Text.isBlank '\'' = true := by decide
  have hquote := (Text.cut_unique ha ha' (Text.forall_mem_head?_cons hdouble)
    (Text.forall_mem_head?_cons hsingle) hinside).2
  exact absurd (cons.inj hquote).1 (by decide)

/-- A bare url ends at the first closing bracket. -/
theorem not_mem_of_matches_bare (h : Matches bare u) : ')' ∉ u := by
  have hnone : ∀ c ∈ u, c ≠ ')' := h.forall_mem (Q := fun c => c ≠ ')') fun c hc => by simpa using hc
  exact fun hm => hnone _ hm rfl

/-- A text that a URL cannot go on into: no bracket closes there, or there are no quotes. -/
def Shuts (r : Text) : Prop := ')' ∈ r → '"' ∉ r ∧ '\'' ∉ r

/-- A URL without quotes ends with its only bracket. -/
theorem eq_of_matches_bare (hu : Matches (urlOf bare) u) (hv : Matches (urlOf bare) v)
    (h : u ++ r = v ++ s) : s = r := by
  obtain ⟨name, x, rfl, hname, hx⟩ := exists_of_matches_urlOf hu
  obtain ⟨name', y, rfl, hname', hy⟩ := exists_of_matches_urlOf hv
  have hx := not_mem_of_matches_bare hx
  have hy := not_mem_of_matches_bare hy
  simp only [append_assoc, cons_append, nil_append] at h
  obtain ⟨rfl, hinside⟩ := name_unique hname hname' h
  have hrest := (Text.cut_unique (P := (· ≠ ')')) (fun c hc he => hx (he ▸ hc)) (fun c hc he => hy (he ▸ hc))
    (by simp) (by simp) hinside).2
  exact (cons.inj hrest).2.symm

/-- A URL without quotes that is read as one with quotes ends where it did, unless a bracket and the
    quote stand behind it. -/
theorem eq_of_matches_inQuotes {quote : Char} (hquote : quote ≠ ')') (hu : Matches (urlOf bare) u)
    (hv : Matches (urlOf (inQuotes quote)) v) (h : u ++ r = v ++ s) (hr : ')' ∈ r → quote ∉ r) : s = r := by
  obtain ⟨name, x, rfl, hname, hx⟩ := exists_of_matches_urlOf hu
  obtain ⟨name', y, rfl, hname', hy⟩ := exists_of_matches_urlOf hv
  have hx := not_mem_of_matches_bare hx
  simp only [append_assoc, cons_append, nil_append] at h
  obtain ⟨rfl, hinside⟩ := name_unique hname hname' h
  rcases append_eq_append_iff.mp hinside with ⟨z, rfl, hz⟩ | ⟨z, rfl, hz⟩
  · cases z with
    | nil => exact (cons.inj hz).2.symm
    | cons c z =>
      -- the bracket of the URL stands between the quotes, and so a quote stands behind it
      obtain ⟨rfl, rfl⟩ := cons.inj hz
      obtain ⟨a, q, b, hq, ha, -, hb⟩ := exists_of_matches_inQuotes hy
      have hclose : ∀ {t : Text}, (∀ c ∈ t, Text.isBlank c = true) → ')' ∉ t := fun ht hm =>
        absurd (ht _ hm) (by decide)
      have hmem : quote ∈ z := by
        have hq : x ++ ')' :: z = (a ++ quote :: q) ++ quote :: b := by simpa using hq
        rcases append_eq_append_iff.mp hq with ⟨w, -, hw⟩ | ⟨w, -, hw⟩
        · have hin : quote ∈ ')' :: z := by simp [hw]
          exact (mem_cons.mp hin).resolve_left hquote
        · have hin : ')' ∈ quote :: b := by simp [hw]
          exact absurd ((mem_cons.mp hin).resolve_left (Ne.symm hquote)) (hclose hb)
      exact absurd (mem_append_left _ hmem) (hr (by simp))
  · cases z with
    | nil => exact (cons.inj hz).2
    | cons c z =>
      rw [cons_append, cons.injEq] at hz
      exact absurd (by simp [← hz.1]) hx

/-- **A URL is taken to its end**, if it cannot go on behind it. -/
theorem find?_ends_url (hu : Matches url u) (hr : Text.atBreak r = true) (hshuts : Shuts r) :
    (ends url (u ++ r)).find? Text.atBreak = some r := by
  rw [ends_url, find?_append, find?_append]
  rcases cases_of_matches_url hu with h | h | h
  · rw [find?_ends_of_decides (decides_urlOf_inQuotes (by decide)) h hr, Option.some_or]
  · rw [find?_ends_eq_none fun v s happend hv =>
        absurd happend.symm (apart_urlOf_inQuotes v u s r hv h),
      find?_ends_of_decides (decides_urlOf_inQuotes (by decide)) h hr, Option.none_or, Option.some_or]
  · have hdouble : (ends (urlOf (inQuotes '"')) (u ++ r)).find? Text.atBreak = none ∨ _ :=
      find?_ends_eq_or fun v s happend hv _ =>
        eq_of_matches_inQuotes (by decide) h hv happend fun hm => (hshuts hm).1
    have hsingle : (ends (urlOf (inQuotes '\'')) (u ++ r)).find? Text.atBreak = none ∨ _ :=
      find?_ends_eq_or fun v s happend hv _ =>
        eq_of_matches_inQuotes (by decide) h hv happend fun hm => (hshuts hm).2
    have hbare := find?_ends_of_only h hr fun v s happend hv _ => eq_of_matches_bare h hv happend
    rcases hdouble with h₁ | h₁ <;> rcases hsingle with h₂ | h₂ <;> simp [h₁, h₂, hbare]

/-! ## Gradients

  The name of a gradient has a prefix that may be empty, and ends in a word of its own; the arguments may
  hold calls one level deep, such as colors.
-/

/-- The pattern is made of characters of names that are plain. -/
abbrev UsesName : Pattern → Prop := Uses fun c => Text.isPlain c = true ∧ Name.isChar c = true

/-- A word of characters of names that are plain. -/
def isName (w : Text) : Bool :=
  w.all fun f => Text.isPlain (Text.foldCase f) && Name.isChar (Text.foldCase f)

/-- A word of name characters matches names only. -/
theorem usesName_word {w : Text} (h : isName w = true) : UsesName (.word w) := by
  intro f hf c hc
  have hchar := all_eq_true.mp h f hf
  rw [hc, Bool.and_eq_true] at hchar
  exact ⟨Text.isPlain_of_foldCase hchar.1, Text.isChar_of_foldCase hchar.2⟩

/-- Keywords of name characters match names only. -/
theorem usesName_keyword {ks : List String}
    (h : ∀ k ∈ ks, isName k.toList = true) :
    UsesName (keyword ks) := by
  refine uses_oneOf fun p hp => ?_
  obtain ⟨k, hk, rfl⟩ := mem_map.mp hp
  exact usesName_word (h k hk)

theorem usesName_letter : UsesName letter := fun _ hc =>
  ⟨Text.isPlain_of_letter hc, Text.isChar_of_letter hc⟩

/-- What an image begins with. -/
structure Fronts (name : Text) : Prop where
  chars : ∀ c ∈ name, Text.isPlain c = true ∧ Name.isChar c = true
  letter : ∃ c ∈ name, Spot.isArgumentChar c = false
  apart : Text.toString (Text.lower name) ∉ ["rgb", "rgba", "hsl", "hsla"] ++ cssWideKeywords

/-- A front is spelled with plain characters. -/
theorem Fronts.plain {name : Text} (h : Fronts name) : ∀ c ∈ name, Text.isPlain c = true :=
  fun c hc => (h.chars c hc).1

/-- A word in any case is an argument of a color in no case if a letter of it is not. -/
theorem exists_not_isArgumentChar {w : Text} (h : w.map Text.foldCase = u.map Text.foldCase)
    (hw : (w.any fun f => !Spot.isArgumentChar (Text.foldCase f)) = true) :
    ∃ c ∈ u, Spot.isArgumentChar c = false := by
  obtain ⟨f, hf, hnot⟩ := any_eq_true.mp hw
  have hmem : Text.foldCase f ∈ u.map Text.foldCase := h ▸ mem_map_of_mem hf
  obtain ⟨c, hc, hcf⟩ := mem_map.mp hmem
  refine ⟨c, hc, ?_⟩
  by_contra hargument
  have hfold := Spot.isArgumentChar_foldCase (by simpa using hargument)
  rw [hcf] at hfold
  simp [hfold] at hnot

/-- A word in any case is none of these keywords if it is none up to case. -/
theorem lower_not_mem_of_map_foldCase {w : Text} {ks : List String}
    (h : w.map Text.foldCase = u.map Text.foldCase)
    (hks : ∀ k ∈ ks, w.map Text.foldCase ≠ (Text.ofString k).map Text.foldCase) :
    Text.toString (Text.lower u) ∉ ks := by
  refine fun hmem => hks _ hmem (h.trans ?_)
  rw [← Text.map_foldCase_lower u]
  simp [Text.toString, Text.ofString]

/-- What spells a word in any case stands in front as the word does. The conditions are read off the word,
    each by a computation. -/
theorem fronts_of_word {w : Text} (h : w.map Text.foldCase = u.map Text.foldCase)
    (hchars : isName w = true)
    (hletter : (w.any fun f => !Spot.isArgumentChar (Text.foldCase f)) = true)
    (hapart : ∀ k ∈ ["rgb", "rgba", "hsl", "hsla"] ++ cssWideKeywords,
      w.map Text.foldCase ≠ (Text.ofString k).map Text.foldCase) : Fronts u where
  chars := (Matches.word h).forall_mem (usesName_word hchars)
  letter := exists_not_isArgumentChar h hletter
  apart := lower_not_mem_of_map_foldCase h hapart

/-- `url` is a front: it has letters that are no argument of a color, and it is not the name of one. -/
theorem fronts_url {name : Text}
    (h : (['u', 'r', 'l'] : Text).map Text.foldCase = name.map Text.foldCase) : Fronts name :=
  fronts_of_word h (by decide +kernel) (by decide +kernel) (by decide +kernel)

/-- The names of gradients. -/
def gradientName : Pattern :=
  all [optional (all [just '-', oneOrMore letter, just '-']), optional (.word "repeating-".toList),
    keyword ["linear", "radial", "conic"], .word "-gradient".toList]

/-- The name of a gradient consists of name characters. -/
theorem usesName_gradientName : UsesName gradientName := by
  have hhyphen : UsesName (just '-') := fun x hx => by
    rw [beq_iff_eq.mp hx]
    decide
  have hvendor : UsesName (optional (all [just '-', oneOrMore letter, just '-'])) :=
    ⟨⟨hhyphen, ⟨usesName_letter, usesName_letter⟩, hhyphen, trivial⟩, trivial⟩
  have hrepeating : UsesName (optional (.word "repeating-".toList)) :=
    ⟨usesName_word (by decide +kernel), trivial⟩
  exact ⟨hvendor, hrepeating, usesName_keyword (by decide +kernel), usesName_word (by decide +kernel), trivial⟩

/-- The name of a gradient ends in `-gradient`, whatever its prefix. -/
theorem exists_of_matches_gradientName {name : Text} (h : Matches gradientName name) :
    ∃ a d, name = a ++ d ∧ Matches (.word "-gradient".toList) d := by
  simp only [gradientName, matches_all_cons_iff, matches_all_nil_iff] at h
  obtain ⟨a, _, rfl, -, b, _, rfl, -, c, _, rfl, -, d, _, rfl, hd, rfl⟩ := h
  exact ⟨a ++ (b ++ c), d, by simp, hd⟩

/-- The name of a gradient is longer than any keyword it could be mistaken for. -/
theorem length_of_matches_gradientName {name : Text} (h : Matches gradientName name) :
    9 ≤ name.length := by
  obtain ⟨a, d, rfl, hd⟩ := exists_of_matches_gradientName h
  have hlength := congrArg List.length (matches_word_iff.mp hd)
  rw [length_map, length_map] at hlength
  rw [length_append, ← hlength]
  exact Nat.le_add_left _ _

/-- The name of a gradient is a front: it ends in letters that are no argument of a color, and is longer than
    the name of any color function. -/
theorem fronts_of_matches_gradientName {name : Text} (h : Matches gradientName name) : Fronts name where
  chars := h.forall_mem usesName_gradientName
  letter := by
    obtain ⟨a, d, rfl, hd⟩ := exists_of_matches_gradientName h
    obtain ⟨x, hx, hnot⟩ := exists_not_isArgumentChar (matches_word_iff.mp hd) (by decide +kernel)
    exact ⟨x, mem_append_right _ hx, hnot⟩
  apart := by
    intro hmem
    have hshort : ∀ k ∈ ["rgb", "rgba", "hsl", "hsla"] ++ cssWideKeywords, (Text.ofString k).length < 9 := by
      decide
    have hlt := hshort _ hmem
    have hlong := length_of_matches_gradientName h
    simp only [Text.toString, Text.ofString, String.toList_ofList, Text.lower, length_map] at hlt
    omega

/-- A gradient begins with a long name, and has its arguments behind. -/
theorem exists_of_matches_gradient (h : Matches gradient u) :
    ∃ name e, u = name ++ e ∧ Fronts name ∧ 9 ≤ name.length ∧ Matches arguments e := by
  obtain ⟨name, e, rfl, hname, he⟩ :
      ∃ name e, u = name ++ e ∧ Matches gradientName name ∧ Matches arguments e := by
    simp only [gradient, matches_all_cons_iff, matches_all_nil_iff] at h
    obtain ⟨a, _, rfl, ha, b, _, rfl, hb, c, _, rfl, hc, d, _, rfl, hd, e, _, rfl, he, rfl⟩ := h
    refine ⟨a ++ (b ++ (c ++ (d ++ []))), e, by simp, ?_, he⟩
    exact ha.seq (hb.seq (hc.seq (hd.seq .empty)))
  exact ⟨name, e, rfl, fronts_of_matches_gradientName hname, length_of_matches_gradientName hname, he⟩

/-- What is behind the name of a call is no plain character. -/
theorem isPlain_of_matches_arguments {e : Text} (h : Matches arguments e) (r : Text) :
    ∀ c ∈ (e ++ r).head?, Text.isPlain c = false := by
  obtain ⟨inside, rfl⟩ := exists_of_matches_arguments h
  exact Text.forall_mem_head?_cons (by decide)

/-- A gradient is decided: its name by the opening bracket, its arguments by the closing one, as they hold
    calls one level deep. -/
theorem decides_gradient : Decides gradient := by
  intro u v r s hu hv h
  obtain ⟨name, e, rfl, hname, -, he⟩ := exists_of_matches_gradient hu
  obtain ⟨name', e', rfl, hname', -, he'⟩ := exists_of_matches_gradient hv
  rw [append_assoc, append_assoc] at h
  obtain ⟨rfl, hbehind⟩ := Text.front_unique hname.plain hname'.plain
    (isPlain_of_matches_arguments he r) (isPlain_of_matches_arguments he' s) h
  rw [decides_arguments e e' r s he he' hbehind]

/-- No URL is a gradient. -/
theorem apart_url_gradient : Apart url gradient := by
  intro u v r s hu hv h
  obtain ⟨name, x, rfl, hname⟩ := exists_of_matches_url hu
  obtain ⟨name', e, rfl, hname', hlong, he⟩ := exists_of_matches_gradient hv
  simp only [append_assoc] at h
  obtain ⟨rfl, -⟩ := Text.front_unique (fronts_url hname).plain hname'.plain
    (Text.forall_mem_head?_cons (by decide)) (isPlain_of_matches_arguments he s) h
  have hlength := congrArg List.length hname
  simp only [length_map, length_cons, length_nil] at hlength
  omega

/-! ## Images

  The three forms together. `ImageWord` is what a search sees of an image: the word `none`, or a name with a
  bracket behind it.
-/

/-- An image of a background. -/
def image : Pattern := oneOf [url, gradient, .word "none".toList]

/-- An image is a url, a gradient or `none`. -/
theorem matches_image_iff :
    Matches image u ↔ Matches url u ∨ Matches gradient u ∨ Matches (.word "none".toList) u := by
  simp only [image, matches_oneOf_cons_iff, not_matches_oneOf_nil, or_false]

/-- **An image begins with a name**, and with a bracket behind it if it is not `none`. -/
theorem exists_front (h : Matches image u) :
    ∃ name x, u = name ++ x ∧ Fronts name ∧
      ((∃ y, x = '(' :: y) ∨ x = [] ∧ Matches (.word "none".toList) name) := by
  rcases matches_image_iff.mp h with h | h | h
  · obtain ⟨name, x, rfl, hname⟩ := exists_of_matches_url h
    exact ⟨name, _, rfl, fronts_url hname, Or.inl ⟨_, rfl⟩⟩
  · obtain ⟨name, e, rfl, hname, -, he⟩ := exists_of_matches_gradient h
    obtain ⟨inside, rfl⟩ := exists_of_matches_arguments he
    exact ⟨name, _, rfl, hname, Or.inl ⟨_, rfl⟩⟩
  · exact ⟨u, [], (append_nil u).symm,
      fronts_of_word (matches_word_iff.mp h) (by decide +kernel) (by decide +kernel) (by decide +kernel),
      Or.inr ⟨rfl, h⟩⟩

/-- No image is a keyword for every property. -/
theorem leads_of_matches_image (h : Matches image u) : Leads u := by
  obtain ⟨name, x, rfl, hname, hx⟩ := exists_front h
  obtain ⟨c, hc, -⟩ := hname.letter
  exact .of_name (ne_nil_of_mem hc) hname.chars (hx.symm.imp_left And.left) fun hmem =>
    hname.apart (mem_append_right _ hmem)

/-- A word that an image begins with. -/
def ImageWord (w : Text) : Prop :=
  ∃ name y, w = name ++ y ∧ Fronts name ∧
    ((∃ z, y = '(' :: z) ∨ y = [] ∧ Matches (.word "none".toList) name)

/-- **The first word of an image** begins like the image. -/
theorem exists_imageWord (h : Matches image u) : ∃ w r, u = w ++ r ∧ w ≠ [] ∧
    (∀ c ∈ w, Text.isBlank c = false) ∧ Text.atBreak r = true ∧ ImageWord w := by
  obtain ⟨name, x, rfl, hname, hx⟩ := exists_front h
  have hblank : ∀ c ∈ name, Text.isBlank c = false := fun c hc => Text.isBlank_of_isPlain (hname.plain c hc)
  have hne : name ≠ [] := by
    obtain ⟨c, hc, -⟩ := hname.letter
    exact ne_nil_of_mem hc
  rcases hx with ⟨y, rfl⟩ | ⟨rfl, hnone⟩
  · obtain ⟨d, n, hd⟩ := exists_cons_of_ne_nil hne
    have hstart : Text.atBreak (name ++ '(' :: y) = false := by
      rw [hd]
      exact hblank d (hd ▸ mem_cons_self)
    obtain ⟨w, r, happend, hwne, hw, hr⟩ := Text.exists_word hstart
    have hfront : ∀ c ∈ name ++ ['('], Text.isBlank c = false := fun c hc =>
      (mem_append.mp hc).elim (hblank c) fun hc => by
        rw [mem_singleton.mp hc]
        decide
    obtain ⟨z, rfl, -⟩ := Text.exists_append_of_front hfront hr (t := y) (by rw [← happend]; simp)
    exact ⟨_, r, happend, hwne, hw, hr, name, '(' :: z, by simp, hname, Or.inl ⟨z, rfl⟩⟩
  · exact ⟨name, [], rfl, hne, hblank, rfl, name, [], by simp, hname, Or.inr ⟨rfl, hnone⟩⟩

/-- No URL and no gradient begins like a word. -/
theorem not_matches_of_front {w : Text} (hw : ∀ c ∈ w, Text.isPlain c = true) (hr : Text.atBreak r = true)
    (hv : Matches url v ∨ Matches gradient v) : w ++ r ≠ v ++ s := by
  obtain ⟨name, y, rfl, hname⟩ : ∃ name y, v = name ++ '(' :: y ∧ ∀ c ∈ name, Text.isPlain c = true := by
    rcases hv with hv | hv
    · obtain ⟨name, x, rfl, hname⟩ := exists_of_matches_url hv
      exact ⟨name, _, rfl, (fronts_url hname).plain⟩
    · obtain ⟨name, e, rfl, hname, -, he⟩ := exists_of_matches_gradient hv
      obtain ⟨inside, rfl⟩ := exists_of_matches_arguments he
      exact ⟨name, _, rfl, hname.plain⟩
  intro h
  rw [append_assoc] at h
  have hx := (Text.front_unique hw hname (Text.isPlain_of_atBreak hr) (Text.forall_mem_head?_cons (by decide)) h).2
  rw [hx] at hr
  contradiction

/-- `none` is plain, in any case. -/
theorem isPlain_of_matches_none (h : Matches (.word "none".toList) u) : ∀ c ∈ u, Text.isPlain c = true :=
  fun c hc => (h.forall_mem (usesName_word (by decide +kernel)) c hc).1

/-- **An image is taken to its end**, if it cannot go on behind it. -/
theorem find?_ends_image (hu : Matches image u) (hr : Text.atBreak r = true) (hshuts : Shuts r) :
    (ends image (u ++ r)).find? Text.atBreak = some r := by
  show (ends url (u ++ r) ++ (ends gradient (u ++ r) ++ (ends (.word "none".toList) (u ++ r) ++
    ends never (u ++ r)))).find? Text.atBreak = some r
  rw [find?_append, find?_append, find?_append]
  rcases matches_image_iff.mp hu with h | h | h
  · rw [find?_ends_url h hr hshuts, Option.some_or]
  · rw [find?_ends_eq_none fun v s happend hv => absurd happend.symm (apart_url_gradient v u s r hv h),
      find?_ends_of_decides decides_gradient h hr, Option.none_or, Option.some_or]
  · have hplain := isPlain_of_matches_none h
    rw [find?_ends_eq_none fun v s happend hv =>
        absurd happend (not_matches_of_front hplain hr (Or.inl hv)),
      find?_ends_eq_none fun v s happend hv =>
        absurd happend (not_matches_of_front hplain hr (Or.inr hv)),
      find?_ends_of_decides decides_word h hr, Option.none_or, Option.none_or, Option.some_or]

/-- An image of a list. -/
def listImage : Pattern := .either url (.word "none".toList)

/-- An image of a list is one of a background. -/
theorem matches_image_of_listImage (h : Matches listImage u) : Matches image u := by
  cases h with
  | left h => exact matches_image_iff.mpr (Or.inl h)
  | right h => exact matches_image_iff.mpr (Or.inr (Or.inr h))

/-- **An image of a list is taken to its end**, if it cannot go on behind it. -/
theorem find?_ends_listImage (hu : Matches listImage u) (hr : Text.atBreak r = true) (hshuts : Shuts r) :
    (ends listImage (u ++ r)).find? Text.atBreak = some r := by
  show (ends url (u ++ r) ++ ends (.word "none".toList) (u ++ r)).find? Text.atBreak = some r
  rw [find?_append]
  cases hu with
  | left h => rw [find?_ends_url h hr hshuts, Option.some_or]
  | right h =>
    rw [find?_ends_eq_none fun v s happend hv =>
        absurd happend (not_matches_of_front (isPlain_of_matches_none h) hr (Or.inl hv)),
      find?_ends_of_decides decides_word h hr, Option.none_or]

/-- An image begins with a character that is plain. -/
theorem exists_cons_of_matches_image (h : Matches image u) : ∃ c v, u = c :: v ∧ Text.isPlain c = true := by
  obtain ⟨name, x, rfl, hname, -⟩ := exists_front h
  obtain ⟨c, hc, -⟩ := hname.letter
  obtain ⟨d, name, rfl⟩ := exists_cons_of_ne_nil (ne_nil_of_mem hc)
  exact ⟨d, name ++ x, rfl, hname.plain d mem_cons_self⟩

/-- An image ends with a bracket, or with a character that is plain. -/
theorem exists_concat_of_matches_image (h : Matches image u) :
    ∃ v d, u = v ++ [d] ∧ Text.isBlank d = false ∧ d ≠ ';' := by
  obtain ⟨c, t, hu, -⟩ := exists_cons_of_matches_image h
  rcases matches_image_iff.mp h with h | h | h
  · obtain ⟨name, x, rfl, -⟩ := exists_of_matches_url h
    exact ⟨name ++ '(' :: x, ')', by simp, by decide, by decide⟩
  · obtain ⟨name, e, rfl, -, -, he⟩ := exists_of_matches_gradient h
    obtain ⟨inside, rfl⟩ := exists_of_matches_arguments he
    exact ⟨name ++ '(' :: inside, ')', by simp, by decide, by decide⟩
  · exact Text.exists_concat_of_plain (hu ▸ cons_ne_nil c t) (isPlain_of_matches_none h)

end Pattern

end CssShorthand
