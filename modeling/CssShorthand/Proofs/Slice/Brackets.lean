/-
  CALLS THAT CLOSE AT THEIR END.

  A pattern for a call takes the text up to a bracket that closes, and the next character has to be a
  blank.  So of a text that begins like a call the pattern takes all or nothing if no bracket before its
  end looks like the last one (`Shut`).

    1.  In arguments the brackets are balanced: every front of them that is not the whole has opened more
        than it has closed (`Pattern.count_lt_of_arguments`).
    2.  Of a call with balanced brackets the pattern takes the whole (`Pattern.eq_of_arguments`) if no
        closing bracket with a blank behind it closes the first one.
    3.  A URL ends with its quotes or with its only bracket (`Pattern.eq_of_url`).
    4.  So a call of a pattern is the whole text that is shut (`Pattern.Call.eq_of_shut`).

  White space, commas and quotes within the brackets do not matter, and brackets in strings only where
  they count as if they opened or closed something.
-/
import CssShorthand.Proofs.Slice.Image

namespace CssShorthand

open List

/-! ## Balanced brackets

  Counting is enough, as there is one kind of brackets that the patterns know of.
-/

namespace Text

variable {t u x : Text}

/-- The brackets of a text are balanced: as many close as open, and no front closes more than it opens. -/
structure Balanced (t : Text) : Prop where
  count_eq : t.count '(' = t.count ')'
  front : ∀ a, a <+: t → a.count ')' ≤ a.count '('

/-- Nothing is open in the empty text. -/
theorem balanced_nil : Balanced [] where
  count_eq := rfl
  front a ha := by
    obtain rfl := prefix_nil.mp ha
    exact le_refl _

/-- Balanced texts in a row are balanced: a front of both is one of the first, or all of it and a front of
    the second. -/
theorem Balanced.append (ht : Balanced t) (hu : Balanced u) : Balanced (t ++ u) where
  count_eq := by rw [count_append, count_append, ht.count_eq, hu.count_eq]
  front a ha := by
    obtain ⟨b, hb⟩ := ha
    rcases append_eq_append_iff.mp hb with ⟨y, hy, -⟩ | ⟨y, rfl, hy⟩
    · exact ht.front a ⟨y, hy.symm⟩
    · rw [count_append, count_append, ht.count_eq]
      exact Nat.add_le_add_left (hu.front y ⟨b, hy.symm⟩) _

/-- Text without brackets is balanced. -/
theorem balanced_of_not_mem (hopen : '(' ∉ t) (hclose : ')' ∉ t) : Balanced t where
  count_eq := by rw [count_eq_zero_of_not_mem hopen, count_eq_zero_of_not_mem hclose]
  front a ha := by
    rw [count_eq_zero_of_not_mem fun h => hclose (ha.subset h)]
    exact Nat.zero_le _

/-- Before the last bracket, a balanced text in brackets has opened more than it has closed. -/
theorem Balanced.count_lt (h : Balanced t) {a : Text} (ha : a <+: '(' :: t) (hne : a ≠ []) :
    a.count ')' < a.count '(' := by
  obtain ⟨c, a, rfl⟩ := exists_cons_of_ne_nil hne
  obtain ⟨rfl, hfront⟩ := cons_prefix_cons.mp ha
  rw [count_cons_of_ne (by decide), count_cons_self]
  exact Nat.lt_succ_of_le (h.front a hfront)

/-- A balanced text in brackets is balanced. -/
theorem Balanced.enclosed (h : Balanced t) : Balanced ('(' :: (t ++ [')'])) := by
  have hcount : ('(' :: (t ++ [')'])).count '(' = ('(' :: (t ++ [')'])).count ')' := by
    rw [count_cons_self, count_cons_of_ne (by decide), count_append, count_append, h.count_eq]
    rfl
  refine ⟨hcount, fun a ha => ?_⟩
  rcases prefix_concat_iff.mp (show a <+: ('(' :: t) ++ [')'] from ha) with rfl | ha
  · exact hcount.ge
  · by_cases hne : a = []
    · rw [hne]
      exact le_refl _
    · exact (h.count_lt ha hne).le

end Text

namespace Pattern

variable {e n r s t u x : Text}

/-! ## The pattern for arguments

  Calls may stand within the arguments, one level deep; what the pattern takes is balanced all the same.
-/

/-- Repetitions of balanced texts are balanced. -/
theorem balanced_of_matches_many {p : Pattern} (hp : ∀ v, Matches p v → Text.Balanced v)
    (h : Matches (.many p) u) : Text.Balanced u := by
  generalize hm : Pattern.many p = m at h
  induction h with
  | done => exact Text.balanced_nil
  | more hx _ _ ih =>
    obtain rfl := Pattern.many.inj hm
    exact (hp _ hx).append (ih hm)
  | _ => contradiction

/-- **Arguments are a balanced text in brackets.** -/
theorem exists_balanced_of_matches_arguments (h : Matches arguments e) :
    ∃ t, e = '(' :: (t ++ [')']) ∧ Text.Balanced t := by
  simp only [arguments, matches_all_cons_iff, matches_all_nil_iff] at h
  obtain ⟨_, _, rfl, hopen, t, _, rfl, ht, _, _, rfl, hclose, rfl⟩ := h
  obtain rfl := eq_of_matches_just hopen
  obtain rfl := eq_of_matches_just hclose
  have hother : Uses (fun c => c ≠ '(' ∧ c ≠ ')') (noneOf ['(', ')']) := fun c hc => by simpa using hc
  have hplain : ∀ {q : Pattern} {v : Text}, Matches q v → Uses (fun c => c ≠ '(' ∧ c ≠ ')') q →
      Text.Balanced v := fun hv hq => Text.balanced_of_not_mem (fun hc => (hv.forall_mem hq _ hc).1 rfl)
        fun hc => (hv.forall_mem hq _ hc).2 rfl
  refine ⟨t, by simp, balanced_of_matches_many (fun v hv => ?_) ht⟩
  cases hv with
  | left hv => exact hplain hv hother
  | right hv =>
    simp only [matches_all_cons_iff, matches_all_nil_iff] at hv
    obtain ⟨_, _, rfl, hopen, y, _, rfl, hy, _, _, rfl, hclose, rfl⟩ := hv
    obtain rfl := eq_of_matches_just hopen
    obtain rfl := eq_of_matches_just hclose
    simpa using (hplain hy hother).enclosed

/-! ## Calls

  `Call` says what the patterns take as a call, `Shut` what a text has to be like so that no call can end
  within it.
-/

/-- The name of URLs, in any case. -/
def IsUrlName (n : Text) : Prop := (['u', 'r', 'l'] : Text).map Text.foldCase = n.map Text.foldCase

/-- What the patterns of calls take: a URL, or arguments behind another name. -/
inductive Call : Text → Prop
  | url {u : Text} (h : Matches url u) : Call u
  | arguments {n e : Text} (hname : ∀ c ∈ n, Text.isPlain c = true) (hurl : ¬IsUrlName n)
      (he : Matches arguments e) : Call (n ++ e)

/-- A text with no closing bracket that seems to be its last one: behind such a bracket stands a blank, and
    it closes the first that was opened. -/
def ClosesLast (x : Text) : Prop :=
  ∀ a c b, x = a ++ ')' :: c :: b → Text.isBlank c = true → a.count ')' + 1 < a.count '('

/-- **A text like a call that is shut at its end only**: a URL in quotes, or one without quotes, with no
    closing bracket before a blank; or a call of another name with as many brackets that close as brackets
    that open, and no front before a blank of which this is true as well. -/
inductive Shut : Text → Prop
  | quoted {x : Text} (h : Matches (urlOf (inQuotes '"')) x ∨ Matches (urlOf (inQuotes '\'')) x)
      (hclose : ∀ a c b, x = a ++ ')' :: c :: b → Text.isBlank c = false) : Shut x
  | bare {x : Text} (h : Matches (urlOf bare) x) (hquote : '"' ∉ x ∧ '\'' ∉ x) : Shut x
  | call {n t : Text} (hname : '(' ∉ n) (hurl : ¬IsUrlName n)
      (hcount : (n ++ '(' :: t).count '(' = (n ++ '(' :: t).count ')')
      (hclose : ClosesLast (n ++ '(' :: t)) : Shut (n ++ '(' :: t)

/-- A call with no bracket between its brackets is shut. -/
theorem shut_of_not_mem {i : Text} (hopen : '(' ∉ n) (hclose : ')' ∉ n) (hurl : ¬IsUrlName n) (hi : '(' ∉ i)
    (hi' : ')' ∉ i) : Shut (n ++ '(' :: (i ++ [')'])) := by
  refine .call hopen hurl ?_ fun a c b hab _ => ?_
  · simp [count_append, count_eq_zero_of_not_mem, hopen, hclose, hi, hi']
  · -- The last bracket has no blank behind it.
    exfalso
    obtain ⟨b, d, hbd⟩ := (eq_nil_or_concat (c :: b)).resolve_left (cons_ne_nil c b)
    rw [hbd, concat_eq_append] at hab
    have hfront : (n ++ '(' :: i) ++ [')'] = (a ++ ')' :: b) ++ [d] := by simpa using hab
    have hmem : ')' ∈ n ++ '(' :: i := by
      rw [append_inj_left' hfront rfl]
      simp
    simp [hclose, hi'] at hmem

/-- A URL in quotes with one bracket at its end is shut. -/
theorem shut_of_inQuotes (h : Matches (urlOf (inQuotes '"')) x ∨ Matches (urlOf (inQuotes '\'')) x)
    (hbare : Matches (urlOf bare) x) : Shut x := by
  refine .quoted h fun a c b hab => ?_
  exfalso
  obtain ⟨name, y, rfl, hname, hy⟩ := exists_of_matches_urlOf hbare
  have hclose : ')' ∉ name ++ '(' :: y := by
    have hfront : ')' ∉ name := fun hm => absurd ((fronts_url hname).plain _ hm) (by decide)
    simpa [hfront] using not_mem_of_matches_bare hy
  obtain ⟨b, d, hbd⟩ := (eq_nil_or_concat (c :: b)).resolve_left (cons_ne_nil c b)
  rw [hbd, concat_eq_append] at hab
  have hends : (name ++ '(' :: y) ++ [')'] = (a ++ ')' :: b) ++ [d] := by simpa using hab
  exact hclose (by rw [append_inj_left' hends rfl]; simp)

/-! ## What is taken of a text that is shut

  The names before the brackets agree, since each is all that stands before the first bracket; then it is up
  to the kind of call.
-/

/-- A name ends at its bracket. -/
theorem name_eq_of_append {n n' a b : Text} (hn : '(' ∉ n) (hn' : '(' ∉ n')
    (h : n ++ '(' :: a = n' ++ '(' :: b) : n = n' ∧ '(' :: a = '(' :: b :=
  Text.cut_unique (P := (· ≠ '(')) (fun _ hc he => hn (he ▸ hc)) (fun _ hc he => hn' (he ▸ hc))
    (by simp) (by simp) h

/-- A name of plain characters has no bracket. -/
theorem not_mem_of_isPlain (hn : ∀ c ∈ n, Text.isPlain c = true) : '(' ∉ n :=
  fun hc => absurd (hn _ hc) (by decide)

/-- `url` in any case has no bracket. -/
theorem not_mem_of_isUrlName (hn : IsUrlName n) : '(' ∉ n := not_mem_of_isPlain (fronts_url hn).plain

/-- No URL begins like a call of another name. -/
theorem urlOf_ne_arguments {inside : Pattern} (hx : Matches (urlOf inside) x)
    (hn : ∀ c ∈ n, Text.isPlain c = true) (hurl : ¬IsUrlName n) (he : Matches arguments e) :
    x ++ r ≠ n ++ e ++ s := by
  intro h
  obtain ⟨name, y, rfl, hname, -⟩ := exists_of_matches_urlOf hx
  obtain ⟨i, rfl⟩ := exists_of_matches_arguments he
  simp only [append_assoc, cons_append] at h
  obtain ⟨rfl, -⟩ := name_eq_of_append (not_mem_of_isUrlName hname) (not_mem_of_isPlain hn) h
  exact hurl hname

/-- A URL without quotes goes on as no URL in quotes: between its bracket and the quote stand blanks only. -/
theorem bare_ne_inQuotes {quote : Char} (hquote : quote ≠ ')') (hx : Matches (urlOf bare) x) (hnone : quote ∉ x)
    (hu : Matches (urlOf (inQuotes quote)) u) : x ++ r ≠ u ++ s := by
  intro h
  obtain ⟨name, y, rfl, hname, -⟩ := exists_of_matches_urlOf hx
  obtain ⟨name', z, rfl, hname', hz⟩ := exists_of_matches_urlOf hu
  obtain ⟨a, q, b, rfl, ha, -⟩ := exists_of_matches_inQuotes hz
  simp only [append_assoc, cons_append] at h
  obtain ⟨rfl, hinside⟩ := name_unique hname hname' h
  rcases append_eq_append_iff.mp hinside with ⟨w, rfl, hw⟩ | ⟨w, rfl, hw⟩
  · cases w with
    | nil => exact hquote (cons.inj hw).1.symm
    | cons c w =>
      obtain ⟨rfl, -⟩ := cons.inj hw
      exact absurd (ha ')' (by simp)) (by decide)
  · cases w with
    | nil => exact hquote (cons.inj hw).1
    | cons c w =>
      obtain ⟨rfl, -⟩ := cons.inj hw
      exact hnone (by simp)

/-- A URL without quotes that begins like a URL in quotes is this URL, if a blank stands behind no bracket
    of it: between the quotes it would end at such a bracket. -/
theorem eq_of_inQuotes_of_bare {inside : Pattern} (hx : Matches (urlOf inside) x)
    (hclose : ∀ a c b, x = a ++ ')' :: c :: b → Text.isBlank c = false) (hu : Matches (urlOf bare) u)
    (hs : Text.atBreak s = true) (h : x ++ r = u ++ s) : u = x := by
  obtain ⟨name, z, rfl, hname, -⟩ := exists_of_matches_urlOf hx
  obtain ⟨name', y, rfl, hname', hy⟩ := exists_of_matches_urlOf hu
  have hy := not_mem_of_matches_bare hy
  simp only [append_assoc, cons_append, nil_append] at h
  obtain ⟨rfl, hinside⟩ := name_unique hname hname' h
  -- The bare url ends at its first bracket. If that is inside the quotes, something follows it there, which
  -- is no white space by hypothesis, so the match would not end at a break.
  rcases append_eq_append_iff.mp hinside with ⟨w, rfl, hw⟩ | ⟨w, rfl, hw⟩
  · cases w with
    | nil => rw [append_nil]
    | cons c w =>
      obtain ⟨rfl, -⟩ := cons.inj hw
      exact absurd (by simp) hy
  · cases w with
    | nil => rw [append_nil]
    | cons c w =>
      obtain ⟨rfl, rfl⟩ := cons.inj hw
      exfalso
      cases w with
      | nil => exact absurd (show Text.isBlank ')' = true from hs) (by decide)
      | cons d w =>
        have hblank : Text.isBlank d = true := hs
        have hd := hclose (name ++ '(' :: y) d (w ++ [')']) (by simp)
        exact absurd (hd.symm.trans hblank) (by decide)

/-- **Of a URL that is shut, a URL takes all.** -/
theorem eq_of_url (hx : Matches (urlOf (inQuotes '"')) x ∨ Matches (urlOf (inQuotes '\'')) x)
    (hclose : ∀ a c b, x = a ++ ')' :: c :: b → Text.isBlank c = false) (hu : Matches url u)
    (hs : Text.atBreak s = true) (h : x ++ r = u ++ s) : u = x := by
  have hdouble : Decides (urlOf (inQuotes '"')) := decides_urlOf_inQuotes (by decide)
  have hsingle : Decides (urlOf (inQuotes '\'')) := decides_urlOf_inQuotes (by decide)
  rcases cases_of_matches_url hu with hu | hu | hu
  · rcases hx with hx | hx
    · exact (hdouble x u r s hx hu h).symm
    · exact absurd h.symm (apart_urlOf_inQuotes u x s r hu hx)
  · rcases hx with hx | hx
    · exact absurd h (apart_urlOf_inQuotes x u r s hx hu)
    · exact (hsingle x u r s hx hu h).symm
  · exact hx.elim (fun hx => eq_of_inQuotes_of_bare hx hclose hu hs h)
      fun hx => eq_of_inQuotes_of_bare hx hclose hu hs h

/-- **Of a call with balanced brackets, arguments take all**: had they ended before, a blank would stand
    behind a bracket that closes the first one; and before their end they have opened more than they have
    closed. -/
theorem eq_of_arguments {t : Text} (hname : ∀ c ∈ n, Text.isPlain c = true)
    (hcount : (n ++ '(' :: t).count '(' = (n ++ '(' :: t).count ')') (hclose : ClosesLast (n ++ '(' :: t))
    (he : Matches arguments e) (hs : Text.atBreak s = true) (h : n ++ '(' :: t ++ r = n ++ e ++ s) :
    n ++ e = n ++ '(' :: t := by
  obtain ⟨i, rfl, hi⟩ := exists_balanced_of_matches_arguments he
  have hnone : ∀ c, Text.isPlain c = false → n.count c = 0 := fun c hc =>
    count_eq_zero_of_not_mem fun hm => absurd ((hname c hm).symm.trans hc) (by decide)
  have hopen := hnone '(' (by decide)
  have hshut := hnone ')' (by decide)
  rcases append_eq_append_iff.mp h with ⟨w, hw, -⟩ | ⟨w, hw, hsw⟩
  · -- The arguments go on behind the call.
    rcases eq_nil_or_concat w with rfl | ⟨w, d, rfl⟩
    · simpa using hw
    · rw [append_assoc] at hw
      have hinside := append_cancel_left hw
      have hfront : '(' :: t <+: '(' :: i := by
        rw [concat_eq_append, ← append_assoc] at hinside
        exact ⟨w, (append_inj_left' (show ('(' :: i) ++ [')'] = _ from hinside) rfl).symm⟩
      have hlt := hi.count_lt hfront (cons_ne_nil _ _)
      rw [count_append, count_append, hopen, hshut] at hcount
      omega
  · -- The arguments end within the call.
    cases w with
    | nil => simpa using hw.symm
    | cons c w =>
      rw [hsw] at hs
      have hx : n ++ '(' :: t = (n ++ '(' :: i) ++ ')' :: c :: w := by simpa using hw
      have hlt := hclose _ c w hx hs
      have heq := hi.count_eq
      rw [count_append, count_append, hopen, hshut, count_cons_of_ne (by decide), count_cons_self] at hlt
      omega

/-- **Of a text that is shut, a call takes all.** -/
theorem Call.eq_of_shut (hu : Call u) (hx : Shut x) (hs : Text.atBreak s = true) (h : x ++ r = u ++ s) :
    u = x := by
  -- The two calls have the same name, so both are urls or neither is; each case has its own bracket that ends
  -- the match.
  cases hx with
  | quoted hx hclose =>
    cases hu with
    | url hu => exact eq_of_url hx hclose hu hs h
    | arguments hname hurl he =>
      exact hx.elim (fun hx => absurd h (urlOf_ne_arguments hx hname hurl he))
        fun hx => absurd h (urlOf_ne_arguments hx hname hurl he)
  | bare hx hquote =>
    cases hu with
    | url hu =>
      rcases cases_of_matches_url hu with hu | hu | hu
      · exact absurd h (bare_ne_inQuotes (by decide) hx hquote.1 hu)
      · exact absurd h (bare_ne_inQuotes (by decide) hx hquote.2 hu)
      · rw [eq_of_matches_bare hx hu h] at h
        exact (append_cancel_right h).symm
    | arguments hname hurl he => exact absurd h (urlOf_ne_arguments hx hname hurl he)
  | @call n t hn hurl hcount hclose =>
    cases hu with
    | url hu =>
      obtain ⟨name, y, rfl, hname⟩ := exists_of_matches_url hu
      simp only [append_assoc, cons_append] at h
      obtain ⟨rfl, -⟩ := name_eq_of_append hn (not_mem_of_isUrlName hname) h
      exact absurd hname hurl
    | @arguments n' e hname _ he =>
      obtain ⟨i, hi⟩ := exists_of_matches_arguments he
      have hnames : n ++ '(' :: (t ++ r) = n' ++ '(' :: (i ++ [')'] ++ s) := by simpa [hi] using h
      obtain ⟨rfl, -⟩ := name_eq_of_append hn (not_mem_of_isPlain hname) hnames
      exact eq_of_arguments hname hcount hclose he hs h

end Pattern

end CssShorthand
