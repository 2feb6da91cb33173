/-
  SLICING CUTS NO PIECE THAT IS QUIET.

  In a value that is made of pieces, a part that is found begins and ends with pieces, if those of them that
  are calls, blocks or strings are quiet for the part (`Part.Quiet`).

    1.  The search stands between pieces or within one (`Part.Ahead`).  Each character that it passes leaves
        it there (`Part.Ahead.step`), and what it takes lies between pieces (`Part.Regular.of_taken`), since
        within a piece it takes nothing.
    2.  So the place that is found lies between pieces (`Part.Regular.of_locate`), and taking it out leaves
        a value that is made of the others (`takePart_madeOf`).
    3.  Part by part, the tokens of the value are those of what is found and what is left, and a slash for
        the size (`tokens_slice`).  A piece that is found is gone for the parts that follow, so it has to be
        quiet only up to then; and as what is left is collapsed, a piece that is left holds single spaces.
    4.  Values of words are such (`exists_uncut_of_ordinary`), and those of words and colors that are written
        in the usual way (`uncut_of_colors`).

  Not all values are such: a string may hold a word that is a part, and this is taken out of it
  (`tokens_slice_cut`).
-/
import CssShorthand.Proofs.Slice.Quiet

namespace CssShorthand

open List

open Component (atGap)
open Slices (isOpening isBare Enclosing Piece MadeOf)

/-- The place lies between the pieces of a value: what stands before it, what is found and what stands after
    it are made of pieces; and if what is found opens anything, it is one piece. -/
structure Place.Between (q : Place) (v : Text) (as ys zs : List Text) : Prop where
  before : MadeOf q.before as
  text : MadeOf q.text ys
  after : MadeOf q.after zs
  eq_append : v = q.before ++ (q.text ++ q.after)
  single : (∀ c ∈ q.text, isOpening c = false) ∨ ys = [q.text]

/-- The pieces of the value are these three parts. -/
def Place.Lies (q : Place) (v : Text) (xs : List Text) : Prop :=
  ∃ as ys zs, xs = as ++ (ys ++ zs) ∧ q.Between v as ys zs

/-- It lies so behind more pieces as well. -/
theorem Place.Lies.behind {q : Place} {v : Text} {xs : List Text} (h : q.Lies v xs) (w : Text)
    (ws : List Text)
    (hw : ∀ as, v = q.before ++ (q.text ++ q.after) → MadeOf q.before as → MadeOf (w ++ q.before) (ws ++ as)) :
    (q.behind w).Lies (w ++ v) (ws ++ xs) := by
  obtain ⟨as, ys, zs, rfl, h⟩ := h
  refine ⟨ws ++ as, ys, zs, (append_assoc _ _ _).symm, hw as h.eq_append h.before, h.text, h.after, ?_, h.single⟩
  rw [h.eq_append]
  exact (append_assoc _ _ _).symm

namespace Part

variable {p : Part} {ab : Bool} {a b r s t u v x : Text} {xs : List Text} {c : Char} {place : Place} {skip : Nat}

/-! ## Where a part is found in a value made of pieces

  The search is a recursion over characters, and its invariant says where in the row of pieces it stands.
-/

/-- The part hushes over the pieces: those that are enclosing are quiet for it. -/
def Hushes (p : Part) (xs : List Text) : Prop := ∀ x ∈ xs, Enclosing x → p.Quiet x

/-- A part that hushes the pieces hushes the later ones. -/
theorem Hushes.of_cons (h : p.Hushes (x :: xs)) : p.Hushes xs := fun y hy => h y (mem_cons_of_mem x hy)

/-- **What is taken between pieces** is made of the next ones, or it is the next one. -/
theorem Regular.of_taken (hp : p.Regular) (h : MadeOf v xs) (hhush : p.Hushes xs) (hs : Text.atBreak s = true)
    (hv : v = u ++ s) (htaken : p.Taken ab u) :
    ∃ ys zs, xs = ys ++ zs ∧ MadeOf u ys ∧ MadeOf s zs ∧ ((∀ c ∈ u, isOpening c = false) ∨ ys = [u]) := by
  have hword : (∀ c ∈ u, isMute c = true) →
      ∃ ys zs, xs = ys ++ zs ∧ MadeOf u ys ∧ MadeOf s zs ∧ ((∀ c ∈ u, isOpening c = false) ∨ ys = [u]) := by
    intro hmute
    have hopening : ∀ c ∈ u, isOpening c = false := fun c hc => isOpening_of_isMute (hmute c hc)
    obtain ⟨ys, zs, hxs, hys, hzs⟩ := h.exists_append hv hs hopening
    exact ⟨ys, zs, hxs, hys, hzs, Or.inl hopening⟩
  -- What is mute cuts no piece, as each one that opens something is enclosing; a call is the whole piece that
  -- stands there.
  cases htaken with
  | word hslash _ hu haccepts =>
    rcases hp.shape u hu haccepts with hmute | ⟨-, hcall⟩
    · exact hword hmute
    · obtain ⟨n, i, rfl, hn⟩ := exists_of_call hcall
      obtain ⟨x, t, ys, rfl, rfl, hx, henclosing, -, hys⟩ :=
        h.exists_enclosing (show v = n ++ '(' :: (i ++ s) by simpa using hv) rfl
          fun c hc => isBare_of_isPlain (hn c hc)
      obtain rfl := (hhush x mem_cons_self henclosing).eq_of_call henclosing hs hu haccepts hcall hv
      rw [append_cancel_left hv] at hys
      exact ⟨[_], ys, rfl, .single hx, hys, Or.inr rfl⟩
  | @slashed b v hslash hb hv' haccepts =>
    refine hword (forall_mem_cons.mpr ⟨by decide, forall_mem_append.mpr ⟨fun c hc => ?_, ?_⟩⟩)
    · exact isMute_of_isBlank (hb c hc)
    · refine (hp.shape v hv' haccepts).resolve_right fun h => ?_
      exact absurd (h.1.symm.trans hslash) (by decide)

/-- **Where the search stands**: between two pieces of the value, or within one, of which `b` is left. -/
inductive Ahead (p : Part) : Bool → Text → Text → Prop
  | between {ab : Bool} {r : Text} : Ahead p ab [] r
  | within {a b r : Text} (hx : Piece (a ++ b)) (hquiet : Enclosing (a ++ b) → p.Quiet (a ++ b)) (ha : a ≠ [])
      (hb : b ≠ []) (hr : atGap r = true) : Ahead p (Text.atBreak a.reverse) b r

/-- Behind a front of a piece the search stands within the piece, or behind it. -/
theorem ahead_of_piece (hx : Piece (a ++ b)) (hquiet : Enclosing (a ++ b) → p.Quiet (a ++ b)) (ha : a ≠ [])
    (hr : atGap r = true) : p.Ahead (Text.atBreak a.reverse) b r := by
  cases b with
  | nil => exact .between
  | cons c b => exact .within hx hquiet ha (cons_ne_nil c b) hr

/-- **A step of the search**: with one more character passed it stands between pieces or within one again,
    and a place that lies between the pieces ahead lies between all of them. -/
theorem Ahead.step (h : p.Ahead ab b r) (hr : MadeOf r xs) (hhush : p.Hushes xs) (hct : b ++ r = c :: t) :
    ∃ b' r' xs', t = b' ++ r' ∧ p.Ahead (Text.isBlank c) b' r' ∧ MadeOf r' xs' ∧ p.Hushes xs' ∧
      ∀ q : Place, q.Lies r' xs' → ∃ q' : Place, (q.behind b').push c = q'.behind b ∧ q'.Lies r xs := by
  -- Within a piece the step goes on in it; between pieces it meets white space, a slash or the next piece.
  cases h with
  | @within a b r hx hquiet ha hb hgap =>
    obtain ⟨d, b, rfl⟩ := exists_cons_of_ne_nil hb
    obtain ⟨rfl, rfl⟩ := cons.inj hct
    have hpassed : a ++ d :: b = (a ++ [d]) ++ b := by simp
    have hahead : p.Ahead (Text.atBreak (a ++ [d]).reverse) b r :=
      ahead_of_piece (hpassed ▸ hx) (hpassed ▸ hquiet) (by simp) hgap
    rw [Text.atBreak_reverse_concat] at hahead
    exact ⟨b, r, xs, rfl, hahead, hr, hhush, fun q hq => ⟨q, rfl, hq⟩⟩
  | between =>
    rw [nil_append] at hct
    cases hr with
    | nil => contradiction
    | @gap d t xs hspace h =>
      obtain ⟨rfl, rfl⟩ := cons.inj hct
      refine ⟨[], t, xs, rfl, .between, h, hhush, fun q hq => ⟨q.behind [d], rfl, ?_⟩⟩
      exact hq.behind [d] [] fun as _ has => .gap hspace has
    | @slash t xs hstar h =>
      obtain ⟨rfl, rfl⟩ := cons.inj hct
      refine ⟨[], t, xs, rfl, .between, h, hhush.of_cons, fun q hq => ⟨q.behind ['/'], rfl, ?_⟩⟩
      exact hq.behind ['/'] [['/']] fun as htq has => .slash (MadeOf.head?_of_append (htq ▸ hstar)) has
    | @piece x s xs hx hgap h =>
      obtain ⟨d, y, rfl, -, -⟩ := hx.exists_cons
      obtain ⟨rfl, rfl⟩ := cons.inj hct
      refine ⟨y, s, xs, rfl, ahead_of_piece (a := [d]) hx (hhush _ mem_cons_self) (by simp) hgap, h, hhush.of_cons,
        fun q hq => ⟨q.behind (d :: y), rfl, ?_⟩⟩
      exact hq.behind (d :: y) [d :: y] fun as htq has => .piece hx (MadeOf.atGap_of_append (htq ▸ hgap)) has

/-- Wherever the search stands in the text, the place is one that lies between the pieces ahead. -/
def LiesAhead (p : Part) (ab : Bool) (v : Text) (place : Place) : Prop :=
  ∀ b r xs, v = b ++ r → p.Ahead ab b r → MadeOf r xs → p.Hushes xs →
    ∃ q : Place, place = q.behind b ∧ q.Lies r xs

/-- A place that is found behind the next character. -/
theorem LiesAhead.push (h : p.LiesAhead (Text.isBlank c) t place) : p.LiesAhead ab (c :: t) (place.push c) := by
  intro b r xs hv hahead hr hhush
  obtain ⟨b', r', xs', ht, hahead', hr', hhush', hback⟩ := hahead.step hr hhush hv.symm
  obtain ⟨q, rfl, hq⟩ := h b' r' xs' ht hahead' hr' hhush'
  exact hback q hq

/-- **What the search finds lies between pieces.**  By induction on the search: what is not accepted is
    passed character by character, as what does not match. -/
theorem Regular.liesAhead_of_locate (hp : p.Regular) (hplace : p.locate skip ab v = some place) :
    p.LiesAhead ab v place := by
  have hpass : ∀ {ab : Bool} {c : Char} {t : Text} {found : Option Place} {place : Place},
      found.map (·.push c) = some place →
      (∀ {next : Place}, found = some next → p.LiesAhead (Text.isBlank c) t next) → p.LiesAhead ab (c :: t) place := by
    intro ab c t found place hplace ih
    obtain ⟨next, hnext, rfl⟩ := Option.map_eq_some_iff.mp hplace
    exact (ih hnext).push
  fun_induction Part.locate p skip ab v generalizing place with
  | case1 => contradiction
  | case2 ab skip c t ih => exact hpass hplace ih
  -- Something is taken here. Within a quiet piece that is excluded, so the search stands between two pieces.
  | case3 ab c t u s hm haccepts =>
    intro b r xs hv hahead hr hhush
    obtain rfl := Option.some.inj hplace
    have hs := atBreak_of_matchAt? hm
    have htaken := hp.taken hm haccepts
    rw [(matches_of_matchAt? hm).1] at hv
    cases hahead with
    | between =>
      obtain ⟨ys, zs, rfl, hys, hzs, hsingle⟩ := hp.of_taken hr hhush hs hv.symm htaken
      exact ⟨⟨[], u, s⟩, rfl, [], ys, zs, rfl, .nil, hys, hzs, hv.symm, hsingle⟩
    | within hx hquiet ha hb hgap =>
      exact absurd htaken (not_taken_within hp hx hquiet rfl ha hb hgap hs hv.symm)
  | case4 ab c t u s hm haccepts ih => exact hpass hplace ih
  | case5 ab c t hm ih => exact hpass hplace ih

/-- **A part is found between pieces.** -/
theorem Regular.of_locate (hp : p.Regular) (h : MadeOf v xs) (hhush : p.Hushes xs)
    (hplace : p.locate 0 ab v = some place) : place.Lies v xs := by
  obtain ⟨q, rfl, hq⟩ := hp.liesAhead_of_locate hplace [] v xs rfl .between h hhush
  exact hq

end Part

/-! ## Taking the parts out

  One part after the other. The condition on a value is stated for the whole table at once (`Uncut`): each
  enclosed piece is quiet for the parts up to the one that takes it.
-/

namespace Slices

variable {p : Part} {ps : List Part} {v : Text} {xs : List Text}

/-- The slash that a part stands after. -/
def slash (p : Part) : List Text := if p.followsSlash then [['/']] else []

/-- **A part is taken out of a value made of pieces** as whole pieces, and the others are left. -/
theorem takePart_madeOf (hp : p.Regular) (h : MadeOf v xs) (hhush : p.Hushes xs) :
    takePart v p = (none, v) ∨
      ∃ text rest ys zs, takePart v p = (some text, rest) ∧ MadeOf text ys ∧ MadeOf rest zs ∧
        xs.Perm (slash p ++ (ys ++ zs)) ∧ (Enclosing text → text ∈ ys) := by
  unfold takePart
  cases hplace : p.locate 0 true v with
  | none => exact Or.inl rfl
  | some place =>
    obtain ⟨as, ys, zs, rfl, hbetween⟩ := hp.of_locate h hhush hplace
    have hrest : MadeOf (place.before ++ ' ' :: place.after) (as ++ zs) :=
      hbetween.before.append rfl (.gap rfl hbetween.after)
    obtain ⟨-, hmatches, -⟩ := Part.matches_of_locate hplace
    have hmute : (∀ c ∈ place.text, isOpening c = false) → ¬Enclosing (p.content place.text) := by
      rintro hopening ⟨w, c, t, hw, hc, -⟩
      have hmem := mem_of_mem_content (hw ▸ (by simp) : c ∈ p.content place.text)
      exact absurd ((hopening c hmem).symm.trans hc) (by decide)
    obtain ⟨ws, hws, hys, htext⟩ : ∃ ws, MadeOf (p.content place.text) ws ∧ ys = slash p ++ ws ∧
        (Enclosing (p.content place.text) → p.content place.text ∈ ws) := by
      cases hslash : p.followsSlash with
      | false =>
        have hcontent : p.content place.text = place.text := by simp [Part.content, hslash]
        refine ⟨ys, by rw [hcontent]; exact hbetween.text, by simp [slash, hslash], fun henclosing => ?_⟩
        rw [hbetween.single.resolve_left fun h => hmute h henclosing, hcontent]
        exact mem_cons_self
      | true =>
        obtain ⟨b, u, ht, -⟩ := Part.exists_of_matches_slashed hslash hmatches
        have hcontent : p.content place.text = Text.trim (b ++ u) := by simp [Part.content, hslash, ht]
        obtain ⟨ws, rfl, hws⟩ := (ht ▸ hbetween.text : MadeOf ('/' :: (b ++ u)) ys).exists_of_slash
        refine ⟨ws, hcontent ▸ hws.trim, by simp [slash, hslash], fun henclosing => ?_⟩
        -- A text that opens anything would be one piece, and not begin with the slash.
        have hsingle := hbetween.single.resolve_left fun h => hmute h henclosing
        obtain ⟨hfirst, rfl⟩ := cons.inj hsingle
        rw [hcontent, show b ++ u = [] from (cons.inj (hfirst.trans ht)).2.symm] at henclosing
        obtain ⟨w, c, t, hw, -⟩ := henclosing
        exact absurd (show ([] : Text) = w ++ c :: t from hw) (by simp)
    refine Or.inr ⟨p.content place.text, place.before ++ ' ' :: place.after, ws, as ++ zs, rfl, hws, hrest, ?_, htext⟩
    rw [← append_assoc (slash p), ← hys]
    exact perm_append_comm_assoc as ys zs

/-- The pieces of a value that are no text found. -/
def unfound (xs : List Text) (s : Slices) : List Text := xs.diff (s.found.map (·.2))

/-- **The value is made of these pieces, and slicing cuts none**: those that are calls, blocks or strings are
    quiet for each part of the table, unless they are found before its turn; and those that are never found
    hold single spaces only. -/
structure Uncut (table : List Part) (v : Text) (xs : List Text) : Prop where
  madeOf : MadeOf v xs
  quiet : ∀ (i : Nat) (p : Part), table[i]? = some p → p.Hushes (unfound xs (slice v (table.take i)))
  single : ∀ x ∈ unfound xs (slice v table), Enclosing x → Text.collapse x = x

/-- What is not found in the rest of a value is not found in the value. -/
theorem mem_unfound_of_rest {rest text x : Text} {ys zs : List Text}
    (htake : takePart v p = (some text, rest)) (hperm : xs.Perm (slash p ++ (ys ++ zs)))
    (htext : Enclosing text → text ∈ ys) (hx : x ∈ unfound zs (slice rest ps)) (henclosing : Enclosing x) :
    x ∈ unfound xs (slice v (p :: ps)) := by
  have hfound : (slice v (p :: ps)).found.map (·.2) = text :: (slice rest ps).found.map (·.2) := by
    simp [slice, takeParts, htake]
  rw [unfound, hfound]
  rw [unfound] at hx
  generalize (slice rest ps).found.map (·.2) = fs at hx ⊢
  rw [← count_pos_iff, count_diff] at hx ⊢
  rw [hperm.count_eq, count_append, count_append, count_cons]
  by_cases heq : text = x
  · have hmem := count_pos_iff.mpr (htext (heq ▸ henclosing))
    rw [heq] at hmem ⊢
    simp only [beq_self_eq_true, if_true]
    omega
  · simp only [beq_iff_eq, heq, if_false]
    omega

/-- **Without the first part** of the table the same is true of the value that is left. -/
theorem Uncut.rest {rest text : Text} {ys zs : List Text} (h : Uncut (p :: ps) v xs)
    (htake : takePart v p = (some text, rest)) (hzs : MadeOf rest zs) (hperm : xs.Perm (slash p ++ (ys ++ zs)))
    (htext : Enclosing text → text ∈ ys) : Uncut ps rest zs where
  madeOf := hzs
  quiet i q hq x hx henclosing :=
    h.quiet (i + 1) q hq x (mem_unfound_of_rest htake hperm htext hx henclosing) henclosing
  single x hx henclosing := h.single x (mem_unfound_of_rest htake hperm htext hx henclosing) henclosing

/-- Also if this part is not found. -/
theorem Uncut.of_none (h : Uncut (p :: ps) v xs) (htake : takePart v p = (none, v)) : Uncut ps v xs := by
  have hfound : ∀ qs, (slice v (p :: qs)).found = (slice v qs).found := fun qs => by
    simp [slice, takeParts, htake]
  have hunfound : ∀ qs, unfound xs (slice v (p :: qs)) = unfound xs (slice v qs) := fun qs => by
    rw [unfound, hfound, unfound]
  refine ⟨h.madeOf, fun i q hq => ?_, ?_⟩
  · rw [← hunfound]
    exact h.quiet (i + 1) q hq
  · rw [← hunfound]
    exact h.single

/-- It is so if the enclosing pieces are quiet for every part, and hold single spaces only. -/
theorem uncut_of_hushes (h : MadeOf v xs) (hquiet : ∀ p ∈ ps, p.Hushes xs)
    (hsingle : ∀ x ∈ xs, Enclosing x → Text.collapse x = x) : Uncut ps v xs where
  madeOf := h
  quiet _ p hp x hx := hquiet p (mem_of_getElem? hp) x (diff_subset _ _ hx)
  single x hx := hsingle x (diff_subset _ _ hx)

/-- **A value of words is cut nowhere**: no piece of it is a call, a block or a string. -/
theorem exists_uncut_of_ordinary (hv : ∀ c ∈ v, isOrdinary c = true ∨ Spot.isSpace c = true ∨ c = '/') :
    ∃ xs, Uncut ps v xs := by
  obtain ⟨xs, hxs, hwords⟩ := exists_madeOf_of_ordinary hv
  exact ⟨xs, uncut_of_hushes hxs (fun p _ x hx henclosing => absurd henclosing (hwords x hx))
    fun x hx henclosing => absurd henclosing (hwords x hx)⟩

/-- **A value of words and colors is cut nowhere**, with single spaces in its colors, if none of them has a
    space in front of a comma. -/
theorem uncut_of_colors {table : List Part} (htable : table ∈ [Part.background, Part.border, Part.listStyle])
    (h : MadeOf v xs) (hform : ∀ x ∈ xs, Enclosing x → Color.Form x)
    (hcomma : ∀ x ∈ xs, Enclosing x → ∀ w ∈ (Text.words x).tail, ',' ∈ w ∨ ')' ∈ w)
    (hsingle : ∀ x ∈ xs, Enclosing x → Text.collapse x = x) : Uncut table v xs :=
  uncut_of_hushes h (fun _ hp x hx henclosing =>
    (Part.regular_of_mem htable hp).quiet_of_form (hform x hx henclosing) (hcomma x hx henclosing)) hsingle

/-- The slash of the size, if it was found. -/
def sizeSlash (found : List (String × Text)) : List Text :=
  if (found.lookup "-size").isSome then [['/']] else []

/-- The slash of a size is one token. -/
theorem flatMap_tokens_slash (p : Part) : (slash p).flatMap tokens = slash p := by
  have htokens : tokens ['/'] = [['/']] := by decide +kernel
  cases h : p.followsSlash <;> simp [slash, h, htokens]

/-- A part that stands after a slash if it is the size, once in the table, adds its slash to those found. -/
theorem sizeSlash_cons (text : Text) (hslash : p.followsSlash = (p.suffix == "-size"))
    (hp : p.suffix ∉ ps.map (·.suffix)) :
    sizeSlash ((p.suffix, text) :: (takeParts v ps).1) = slash p ++ sizeSlash (takeParts v ps).1 := by
  by_cases hsize : p.suffix = "-size"
  · have hnone : (takeParts v ps).1.lookup "-size" = none := by
      rw [lookup_eq_none_iff]
      rintro ⟨suffix, found⟩ hmem
      obtain ⟨q, hq, rfl, -⟩ := found_of_mem_takeParts hmem
      rw [hsize] at hp
      simpa using fun heq : "-size" = q.suffix => hp (heq ▸ mem_map_of_mem hq)
    rw [sizeSlash, sizeSlash, hnone, slash, hslash, hsize, lookup_cons_self]
    simp
  · have hbeq : ("-size" == p.suffix) = false := by simpa using fun h => hsize h.symm
    rw [sizeSlash, sizeSlash, slash, hslash, lookup_cons, hbeq]
    simp [hsize]

/-- **Part by part the tokens are kept**, and what is found is made of pieces of the value. -/
theorem tokens_takeParts (hregular : ∀ p ∈ ps, p.Regular)
    (hslash : ∀ p ∈ ps, p.followsSlash = (p.suffix == "-size")) (hnodup : (ps.map (·.suffix)).Nodup)
    (h : Uncut ps v xs) :
    (∃ zs, MadeOf (takeParts v ps).2 zs ∧ ∀ x ∈ zs, Enclosing x → Text.collapse x = x) ∧
      (tokens v).Perm (((takeParts v ps).1.flatMap fun f => tokens f.2) ++
        (tokens (takeParts v ps).2 ++ sizeSlash (takeParts v ps).1)) ∧
      ∀ f ∈ (takeParts v ps).1, ∃ ys, MadeOf f.2 ys ∧ ys ⊆ xs := by
  -- On the parts: what one of them takes out leaves text that is uncut for the later ones.
  induction ps generalizing v xs with
  | nil => exact ⟨⟨xs, h.madeOf, h.single⟩, by simp [takeParts, sizeSlash], by simp [takeParts]⟩
  | cons p ps ih =>
    rw [map_cons, nodup_cons] at hnodup
    have hp := hregular p mem_cons_self
    have ih : ∀ {v : Text} {xs : List Text}, Uncut ps v xs → _ :=
      ih (fun q hq => hregular q (mem_cons_of_mem _ hq)) (fun q hq => hslash q (mem_cons_of_mem _ hq)) hnodup.2
    rcases takePart_madeOf hp h.madeOf (h.quiet 0 p rfl) with
      hnone | ⟨text, rest, ys, zs, hsome, hys, hzs, hxyz, htext⟩
    · rw [takeParts, hnone]
      exact ih (h.of_none hnone)
    · obtain ⟨hleft, hperm, hfounds⟩ := ih (h.rest hsome hzs hxyz htext)
      have hfound : takeParts v (p :: ps) = ((p.suffix, text) :: (takeParts rest ps).1, (takeParts rest ps).2) := by
        rw [takeParts, hsome]
      have hsubset : ys ++ zs ⊆ xs := fun x hx => hxyz.mem_iff.mpr (mem_append_right _ hx)
      rw [hfound]
      refine ⟨hleft, ?_, forall_mem_cons.mpr ⟨⟨ys, hys, fun x hx => hsubset (mem_append_left _ hx)⟩, fun f hf => ?_⟩⟩
      · have htokens : (tokens v).Perm (slash p ++ (tokens text ++ tokens rest)) := by
          rw [h.madeOf.tokens_eq, hys.tokens_eq, hzs.tokens_eq, ← flatMap_tokens_slash, ← flatMap_append,
            ← flatMap_append]
          exact hxyz.flatMap_right tokens
        have hsize := sizeSlash_cons text (hslash p mem_cons_self) hnodup.1 (v := rest)
        rw [hsize, flatMap_cons]
        calc tokens v
          _ ~ slash p ++ (tokens text ++ tokens rest) := htokens
          _ ~ slash p ++ (tokens text ++ (_ ++ (tokens _ ++ sizeSlash _))) :=
            (hperm.append_left _).append_left _
          _ ~ (tokens text ++ _) ++ (tokens _ ++ (slash p ++ sizeSlash _)) := by
            refine (perm_append_comm_assoc _ _ _).trans ?_
            rw [append_assoc]
            refine ((perm_append_comm_assoc _ _ _).trans ?_).append_left _
            exact (perm_append_comm_assoc _ _ _).append_left _
      · obtain ⟨us, hus, hsub⟩ := hfounds f hf
        exact ⟨us, hus, fun x hx => hsubset (mem_append_right _ (hsub hx))⟩

/-- In every table the size is the part that stands after a slash. -/
theorem followsSlash_eq {table : List Part} (htable : table ∈ [Part.background, Part.border, Part.listStyle]) :
    ∀ p ∈ table, p.followsSlash = (p.suffix == "-size") := by
  revert table
  decide +kernel

/-- No table has two parts of one suffix. -/
theorem nodup_suffixes {table : List Part} (htable : table ∈ [Part.background, Part.border, Part.listStyle]) :
    (table.map (·.suffix)).Nodup := by
  revert table
  decide +kernel

/-- The value of a background with a name that a word of is a color, and a color with more white space in it
    than is needed. -/
def spacedBackground : Text := "url(\"my red icon.png\")\n left / 10px  auto rgb(0,  0, 0)".toList

/-- Its pieces that are no calls. -/
def spacedWords : List Text := ["left".toList, ['/'], "10px".toList, "auto".toList]

/-- Its URL and its color, in front of these and behind them. -/
def namedIcon : Text := "url(\"my red icon.png\")".toList

/-- A call with runs of white space in it, which collapsing would change. -/
def spacedBlack : Text := "rgb(0,  0, 0)".toList

/-- The value is made of these pieces: the two calls are parsed for themselves. -/
theorem madeOf_spacedBackground :
    MadeOf spacedBackground (namedIcon :: (spacedWords ++ [spacedBlack])) := by
  have hicon : Piece namedIcon :=
    piece_of_call (n := "url".toList) (i := "\"my red icon.png\"".toList) rfl (all_eq_true.mp (by decide +kernel))
      (Component.closed_of_settled (by decide +kernel) (by decide +kernel) (by decide +kernel) (by decide +kernel))
  have hblack : Piece spacedBlack :=
    piece_of_call (n := "rgb".toList) (i := "0,  0, 0".toList) rfl (all_eq_true.mp (by decide +kernel))
      (Component.closed_of_settled (by decide +kernel) (by decide +kernel) (by decide +kernel) (by decide +kernel))
  have hword : ∀ {x : Text}, x ≠ [] → x.all isOrdinary = true → Piece x := fun hne hx =>
    piece_of_ordinary hne (all_eq_true.mp hx)
  -- Behind the url there are words of ordinary characters, a slash, and the call at the end.
  have hend : MadeOf ('/' :: ' ' :: ("10px".toList ++ ' ' :: ' ' :: ("auto".toList ++ ' ' :: spacedBlack)))
      [['/'], "10px".toList, "auto".toList, spacedBlack] :=
    .slash (by decide) (.gap rfl (.piece (hword (by decide) (by decide)) rfl (.gap rfl (.gap rfl
      (.piece (hword (by decide) (by decide)) rfl (.gap rfl (.single hblack)))))))
  exact .piece hicon rfl (.gap rfl (.gap rfl (.piece (hword (x := "left".toList) (by decide) (by decide)) rfl
    (.gap rfl hend))))

/-- The URL is quiet for images, and gone when colors are looked for; the color is quiet for all parts before
    the position, and found before that. -/
theorem uncut_spacedBackground :
    Uncut Part.background spacedBackground (namedIcon :: (spacedWords ++ [spacedBlack])) := by
  have hname : "rgb".toList.all (fun c => Text.isPlain c && Name.isChar c) = true := by decide +kernel
  have hinside : "0,  0, 0".toList.all (fun c => Spot.isArgumentChar c || Spot.isSpace c) = true := by
    decide +kernel
  have hform : Color.Form ("rgb".toList ++ '(' :: ("0,  0, 0".toList ++ [')'])) :=
    .call (fun c hc => by simpa using all_eq_true.mp hname c hc) (by decide +kernel) fun c hc => by
      simpa using all_eq_true.mp hinside c hc
  have hwords : ∀ x ∈ spacedWords, ¬Enclosing x := by
    intro x hx
    have hchars : ∀ x ∈ spacedWords, x.all (fun d => isOrdinary d || d == '/') = true := by decide
    exact not_enclosing_of_ordinary fun d hd => by simpa using all_eq_true.mp (hchars x hx) d hd
  have hicon : Part.backgroundImage.Quiet namedIcon := by
    refine Part.quiet_of_url rfl (fun _ hu => hu) (fun w hw => ?_) ?_
    · have hinside : ∀ w ∈ (Text.words namedIcon).tail,
          '(' ∉ w ∧ "none".toList.map Text.foldCase ≠ w.map Text.foldCase := by decide +kernel
      exact ⟨(hinside w hw).1, fun hnone => (hinside w hw).2 (Pattern.matches_word_iff.mp hnone)⟩
    · exact Pattern.shut_of_inQuotes (Or.inl (Pattern.nil_mem_ends_iff.mp (by decide +kernel)))
        (Pattern.nil_mem_ends_iff.mp (by decide +kernel))
  -- What is not found by the parts before it is quiet for a part, or a word.
  have hushes : ∀ {p : Part} {us : List Text}, p ∈ Part.background → p.suffix ≠ "-width" →
      p.suffix ≠ "-position" → (∀ x ∈ us, x ∈ spacedWords ++ [spacedBlack]) → p.Hushes us := by
    intro p us hp hwidth hposition hus x hx henclosing
    rcases mem_append.mp (hus x hx) with hx | hx
    · exact absurd henclosing (hwords x hx)
    · rw [mem_singleton.mp hx]
      exact Part.quiet_of_form mem_cons_self hp (fun h => hwidth (h ▸ rfl)) (fun h => hposition (h ▸ rfl)) hform
  have hleft : ∀ {us : List Text}, (∀ x ∈ us, x ∈ spacedWords) → ∀ x ∈ us, ¬Enclosing x := fun hus x hx =>
    hwords x (hus x hx)
  refine ⟨madeOf_spacedBackground, fun i p hp => ?_, fun x hx henclosing => ?_⟩
  · have hmem := mem_of_getElem? hp
    match i with
    | 0 =>
      obtain rfl := Option.some.inj hp
      intro x hx henclosing
      rcases mem_cons.mp hx with rfl | hx
      · exact hicon
      · exact hushes hmem (by decide) (by decide) (fun x hx => hx) x hx henclosing
    | 1 | 2 | 3 | 4 =>
      obtain rfl := Option.some.inj hp
      exact hushes hmem (by decide) (by decide) (by decide +kernel)
    | 5 => exact fun x hx henclosing => absurd henclosing (hleft (by decide +kernel) x hx)
    | i + 6 => contradiction
  · exact absurd henclosing (hleft (by decide +kernel) x hx)

example : (slice spacedBackground Part.background).get? "-color" = some spacedBlack := by decide +kernel

/-- The value of a list style with a name that a word of is a type. -/
def discNamed : Text := "url(\"my disc icon.png\")".toList

end Slices

end CssShorthand
