/-
  SLICING A BACKGROUND THAT WAS JOINED.

  The values of a background stand in the order color, image, repetition, position, size and attachment,
  and are taken out in another: the image first, which may have words of all others in it, and the color
  only when nothing is left that it could be taken for.  The size is found at its slash, the only one
  that is left then; the position is what is left in the end.

  Each search passes what stands before its part (`Part.Misses`), because no word there begins the part.

  The route: 1. what is known of a value that is joined (`OfBackground`): which pattern each text matches,
  and that lists hold no bracket and no quote. 2. For each part a lemma takes it out: before its turn
  nothing that stands in front of it begins it, and behind it a blank ends it. 3. After each step the row
  holds one text less, and a blank in its place (`blanked`); `slice_joined` composes the six steps and
  collapses what is left to nothing.
-/
import CssShorthand.Proofs.Slice.Measure

namespace CssShorthand

open List

/-! ## The parts

  The table, part by part, with what the lemmas on searching ask of each: that its keywords are plain, that
  it begins with a word, and that no keyword of one list is a keyword of another.
-/

namespace Part

/-- The image of a background. -/
def backgroundImage : Part := plain "-image" .image

/-- How a background moves. -/
def attachment : Part := plain "-attachment" (.keyword backgroundAttachments)

/-- How a background repeats. -/
def repetition : Part := plain "-repeat" (.listOf 1 (.keyword backgroundRepeats))

/-- The position of a background. -/
def backgroundPosition : Part := plain "-position" (.listOf 3 .backgroundPosition)

/-- The six parts of a background in the order in which they are taken: the image first, as a url may hold any
    word, and the position last. -/
theorem background_eq :
    background = [backgroundImage, attachment, repetition, color, size, backgroundPosition] := rfl

theorem usesPlain_attachments : Pattern.UsesPlain (.keyword backgroundAttachments) :=
  Pattern.usesPlain_keyword (by decide +kernel)

theorem usesPlain_repeats : Pattern.UsesPlain (.keyword backgroundRepeats) :=
  Pattern.usesPlain_keyword (by decide +kernel)

theorem usesPlain_positions : Pattern.UsesPlain (.keyword backgroundPositions) :=
  Pattern.usesPlain_keyword (by decide +kernel)

theorem usesPlain_sizes : Pattern.UsesPlain (.keyword backgroundSizes) :=
  Pattern.usesPlain_keyword (by decide +kernel)

/-- No keyword of a background is the name of a color. -/
theorem names_apart : ∀ ks ∈ [backgroundAttachments, backgroundRepeats, backgroundPositions, backgroundSizes],
    ∀ k ∈ ks, ∀ n ∈ Color.names,
      (Text.ofString k).map Text.foldCase ≠ (Text.ofString n).map Text.foldCase := by
  decide +kernel

theorem ofWords_repeats : Pattern.OfWords (.keyword backgroundRepeats) :=
  Pattern.ofWords_keyword usesPlain_repeats (by decide)

theorem ofWords_positions : Pattern.backgroundPosition.OfWords :=
  Pattern.ofWords_measure usesPlain_positions (by decide)

theorem ofWords_sizes : Pattern.backgroundSize.OfWords :=
  Pattern.ofWords_measure usesPlain_sizes (by decide)

/-- An image is a word of its own or the front of a call, and `ImageWord` says which. -/
theorem opens_backgroundImage : backgroundImage.Opens Pattern.ImageWord where
  followsSlash := rfl
  exists_word _ := Pattern.exists_imageWord

/-- Attachments are keywords, so what opens one is the keyword itself. -/
theorem opens_attachment : attachment.Opens (Pattern.Matches (.keyword backgroundAttachments)) :=
  opens_of_plain rfl usesPlain_attachments fun _ => ne_nil_of_matches_keyword (by decide)

/-- Repetitions are keywords, so what opens one is the keyword itself. -/
theorem opens_repetition : repetition.Opens (Pattern.Matches (.keyword backgroundRepeats)) :=
  opens_of_list rfl rfl ofWords_repeats

/-- A list of positions starts with a position. -/
theorem opens_backgroundPosition : backgroundPosition.Opens (Pattern.Matches .backgroundPosition) :=
  opens_of_list rfl rfl ofWords_positions

/-! ## The size, found at its slash

  The size is the one part that is not looked for at the beginning of a word. There is one slash left when
  its turn comes, and behind it the list of sizes goes up to the next break.
-/

variable {c : Char} {ab : Bool} {r t u v w : Text}

/-- What stands after a slash is a text of the part, with blanks before it. -/
theorem exists_of_matches_slashed {p : Part} (hslash : p.followsSlash = true)
    (h : Pattern.Matches p.fullPattern u) :
    ∃ b v, u = '/' :: (b ++ v) ∧ (∀ c ∈ b, Text.isBlank c = true) ∧ Pattern.Matches p.pattern v := by
  simp only [fullPattern, hslash, if_true, Pattern.matches_all_cons_iff, Pattern.matches_all_nil_iff] at h
  obtain ⟨_, _, rfl, hslash, b, _, rfl, hb, v, _, rfl, hv, rfl⟩ := h
  obtain rfl := Pattern.eq_of_matches_just hslash
  exact ⟨b, v, by simp, hb.forall_mem (Q := fun c => Text.isBlank c = true) fun _ h => h, hv⟩

/-- The size begins with a slash. -/
theorem exists_of_matches_size (h : Pattern.Matches size.fullPattern u) :
    ∃ b v, u = '/' :: (b ++ v) ∧ (∀ c ∈ b, Text.isBlank c = true) ∧ Pattern.Matches size.pattern v :=
  exists_of_matches_slashed rfl h

/-- At no other character a size is found. -/
theorem matchAt?_size (hc : c ≠ '/') (ab : Bool) (t : Text) : size.matchAt? ab (c :: t) = none := by
  cases hm : size.matchAt? ab (c :: t) with
  | none => rfl
  | some m =>
    obtain ⟨happend, hu⟩ := matches_of_matchAt? hm
    obtain ⟨b, v, hb, -⟩ := exists_of_matches_size hu
    rw [hb] at happend
    exact absurd (cons.inj happend).1 hc

/-- The search for a size goes on to the first slash. -/
theorem locate_size_append (hw : '/' ∉ w) (ab : Bool) (hab : t = [] ∨ ∃ r, t = '/' :: r) :
    size.locate 0 ab (w ++ t) =
      (size.locate 0 true t).map (Place.behind w) := by
  induction w generalizing ab with
  | nil =>
    rcases hab with rfl | ⟨r, rfl⟩
    · simp [locate]
    · have hany : size.matchAt? ab ('/' :: r) = size.matchAt? true ('/' :: r) := by simp [matchAt?, size]
      rw [nil_append, locate, locate, hany]
      simp
  | cons c w ih =>
    obtain ⟨hc, hw⟩ := not_or.mp (mem_cons.not.mp hw)
    rw [cons_append, locate, matchAt?_size (Ne.symm hc)]
    simp [ih hw]

/-- A list of words begins with no blank. -/
theorem exists_cons_of_matches_listOf {p : Pattern} {n : Nat} (hp : p.OfWords)
    (h : Pattern.Matches (.listOf n p) v) : ∃ c t, v = c :: t ∧ Text.isBlank c = false := by
  cases h with
  | @seq _ _ w x hw _ =>
    obtain ⟨hne, hblank⟩ := hp w hw
    obtain ⟨c, w, rfl⟩ := exists_cons_of_ne_nil hne
    exact ⟨c, w ++ x, rfl, hblank c mem_cons_self⟩

/-- White space of any length is what the pattern `\s*` takes. -/
theorem matches_maybeBlanks {b : Text} (hb : ∀ c ∈ b, Text.isBlank c = true) :
    Pattern.Matches .maybeBlanks b := by
  induction b with
  | nil => exact .done
  | cons d b ih => exact .more (.char (hb d mem_cons_self)) (ih fun e he => hb e (mem_cons_of_mem _ he))

/-- A list of words is found behind blanks: these are passed, for a list does not begin with one. -/
theorem find?_ends_blanks_listOf {p : Pattern} {n : Nat} (hp : p.OfWords) {b : Text}
    (hb : ∀ c ∈ b, Text.isBlank c = true) (hv : Pattern.Matches (.listOf n p) v) (hr : p.EndsAt r) :
    (Pattern.ends (.seq .maybeBlanks (.listOf n p)) (b ++ (v ++ r))).find? Text.atBreak = some r := by
  have hfound := Pattern.find?_ends_listOf hp hv hr
  obtain ⟨c, v, rfl, hc⟩ := exists_cons_of_matches_listOf hp hv
  refine Pattern.find?_flatMap_of_forall (fun y hy => ?_)
    ⟨c :: v ++ r, Pattern.mem_ends_of_matches (matches_maybeBlanks hb) _, hfound⟩
  obtain ⟨a, ha, hm⟩ := Pattern.matches_of_mem_ends hy
  have hpassed : ∀ d ∈ a, Text.isBlank d = true :=
    hm.forall_mem (Q := fun d => Text.isBlank d = true) fun _ h => h
  rcases append_eq_append_iff.mp ha with ⟨x, rfl, hx⟩ | ⟨x, rfl, rfl⟩
  · -- All blanks are passed, and no more than these.
    cases x with
    | nil =>
      obtain rfl : c :: v ++ r = y := hx
      exact Or.inr hfound
    | cons d x =>
      obtain rfl : c = d := (cons.inj hx).1
      rw [hpassed c (by simp)] at hc
      contradiction
  · cases x with
    | nil => exact Or.inr hfound
    | cons d x =>
      -- At a blank that is not passed no list is found.
      refine Or.inl (find?_eq_none.mpr fun s hs => ?_)
      obtain ⟨u, hu, hmu⟩ := Pattern.matches_of_mem_ends hs
      obtain ⟨e, w, rfl, he⟩ := exists_cons_of_matches_listOf hp hmu
      obtain rfl : d = e := (cons.inj hu).1
      rw [hb d (by simp)] at he
      contradiction

/-- **At its slash the size is found**, as far as it goes. -/
theorem matchAt?_size_slash {b : Text} (hb : ∀ c ∈ b, Text.isBlank c = true)
    (hv : Pattern.Matches size.pattern v) (hr : Pattern.backgroundSize.EndsAt r) :
    size.matchAt? true ('/' :: (b ++ (v ++ r))) = some ('/' :: (b ++ v), r) := by
  have hends : size.fullPattern.ends ('/' :: (b ++ (v ++ r))) =
      Pattern.ends (.seq .maybeBlanks size.pattern) (b ++ (v ++ r)) := by
    show (Pattern.ends (.just '/') ('/' :: (b ++ (v ++ r)))).flatMap _ = _
    simp [Pattern.just, Pattern.ends]
  have htake : ('/' :: (b ++ (v ++ r))).take (('/' :: (b ++ (v ++ r))).length - r.length) =
      '/' :: (b ++ v) := by
    have happend : '/' :: (b ++ (v ++ r)) = ('/' :: (b ++ v)) ++ r := by simp
    rw [happend, length_append, Nat.add_sub_cancel, take_left]
  have hfind : (Pattern.ends (.seq .maybeBlanks size.pattern) (b ++ (v ++ r))).find? Text.atBreak = some r :=
    find?_ends_blanks_listOf ofWords_sizes hb hv hr
  rw [matchAt?, hends, hfind, if_pos (by rfl), Option.map_some, htake]

/-- A list of words neither starts nor ends with white space, so trimming keeps it. -/
theorem trim_of_matches_listOf {p : Pattern} {n : Nat} (hp : p.OfWords)
    (h : Pattern.Matches (.listOf n p) v) : Text.trim v = v := by
  obtain ⟨c, t, hv, hc⟩ := exists_cons_of_matches_listOf hp h
  obtain ⟨x, w, rfl, hw⟩ := Pattern.exists_append_of_matches_listOf h
  obtain ⟨hne, hblank⟩ := hp w hw
  obtain ⟨y, d, hd⟩ := (eq_nil_or_concat w).resolve_left hne
  rw [hv]
  refine Text.trim_of_ends hc (hblank d (by simp [hd])) (u := x ++ y) ?_
  rw [← hv, hd]
  simp

/-- The slash and the blanks behind it are no part of the size. -/
theorem content_size {b : Text} (hb : ∀ c ∈ b, Text.isBlank c = true) (hv : Pattern.Matches size.pattern v) :
    size.content ('/' :: (b ++ v)) = v := by
  obtain ⟨c, t, hcons, -⟩ := exists_cons_of_matches_listOf ofWords_sizes hv
  have htrim := Text.trim_padded (b := []) (trim_of_matches_listOf ofWords_sizes hv) (hcons ▸ cons_ne_nil c t) hb
    nofun
  rwa [append_nil] at htrim

/-- There is no slash in a position. -/
theorem not_mem_of_matches_position (h : Pattern.Matches backgroundPosition.pattern u) : '/' ∉ u := by
  intro hm
  have huses : Pattern.Uses (fun x => Pattern.IsMeasureChar x ∨ Text.isBlank x = true) backgroundPosition.pattern :=
    Pattern.uses_listOf ((Pattern.uses_measure usesPlain_positions).mono fun _ => Or.inl) fun _ => Or.inr
  exact absurd (h.forall_mem huses '/' hm) (by decide)

/-- What is found for a size is one, without the slash. -/
theorem matches_of_found_size {value : Text} (h : Slices.Found size value v) :
    Pattern.Matches size.pattern v := by
  obtain ⟨u, hu, rfl⟩ := h.exists_match
  obtain ⟨b, w, rfl, hb, hw⟩ := exists_of_matches_size hu
  rwa [content_size hb hw]

/-- Without a slash there is no size. -/
theorem takePart_size_of_not_mem (hv : '/' ∉ v) : Slices.takePart v size = (none, v) := by
  have hnone := locate_size_append hv true (Or.inl rfl)
  rw [append_nil] at hnone
  rw [Slices.takePart, hnone]
  rfl

/-- **The size is taken out at the first slash.** -/
theorem takePart_size_slash {b : Text} (hw : '/' ∉ w) (hb : ∀ c ∈ b, Text.isBlank c = true)
    (hv : Pattern.Matches size.pattern v) (hr : Pattern.backgroundSize.EndsAt r) :
    Slices.takePart (w ++ '/' :: (b ++ (v ++ r))) size = (some v, w ++ ' ' :: r) := by
  have hplace : size.locate 0 true ('/' :: (b ++ (v ++ r))) = some ⟨[], '/' :: (b ++ v), r⟩ := by
    rw [locate, matchAt?_size_slash hb hv hr]
    rfl
  rw [Slices.takePart, locate_size_append hw true (Or.inr ⟨_, rfl⟩), hplace]
  simp [content_size hb hv]

/-- **The size is taken out with its slash**, if it is there and no other slash is. -/
theorem takePart_size (xs ys : List Text) (o : Option Text) (hxs : ∀ x ∈ xs, '/' ∉ x)
    (hys : ∀ y ∈ ys, '/' ∉ y) (ho : ∀ v ∈ o, Pattern.Matches size.pattern v)
    (hends : Pattern.backgroundSize.EndsAt (behind ys)) :
    Slices.takePart (Text.join [' '] (xs ++ ((o.map ('/' :: ' ' :: ·)).toList ++ ys))) size =
      (o, Text.join [' '] (xs ++ ((o.map fun _ => [' ']).toList ++ ys))) := by
  cases o with
  | none =>
    refine takePart_size_of_not_mem fun hm => ?_
    rcases mem_join hm with h | ⟨x, hx, h⟩
    · exact absurd h (by decide)
    · exact (mem_append.mp hx).elim (fun hx => hxs x hx h) fun hx => hys x hx h
  | some v =>
    have hahead : '/' ∉ ahead xs := by
      intro hm
      obtain ⟨x, hx, hm⟩ := mem_flatMap.mp hm
      exact (mem_append.mp hm).elim (hxs x hx) (by decide)
    have hspace : ∀ c ∈ [' '], Text.isBlank c = true := forall_mem_singleton.mpr rfl
    show Slices.takePart (Text.join [' '] (xs ++ ('/' :: ' ' :: v) :: ys)) size =
      (some v, Text.join [' '] (xs ++ [' '] :: ys))
    rw [join_append, join_append]
    exact takePart_size_slash hahead hspace (ho v rfl) hends

end Part

/-! ## Words that are listed

  The values of repetition, position and size are lists; what a search meets there is a keyword or a
  measure.
-/

namespace Part

variable {p : Part} {kss : List (List String)} {x w : Text}

/-- A text of words of these lists, and of slashes. -/
def Listed (kss : List (List String)) (x : Text) : Prop :=
  ∀ w ∈ Text.words x, w = ['/'] ∨ ∃ ks ∈ kss, Pattern.Ordinary ks w

/-- The blank that a part leaves in its place has no words. -/
theorem listed_blank (kss : List (List String)) : Listed kss [' '] := fun _ h => absurd h not_mem_nil

/-- The words of a list are the words of its members, and each of them is a keyword or a measure. -/
theorem listed_of_matches {q : Pattern} {ks : List String} {n : Nat} {u : Text} (hq : q.OfWords)
    (hordinary : ∀ w, Pattern.Matches q w → Pattern.Ordinary ks w)
    (h : Pattern.Matches (.listOf n q) u) : Listed [ks] u := fun w hw =>
  Or.inr ⟨ks, mem_singleton_self ks, hordinary w (Pattern.matches_of_mem_words_listOf hq h w hw)⟩

/-- More keywords may be let in. -/
theorem Listed.mono {lists : List (List String)} (hsub : kss ⊆ lists) (h : Listed kss x) :
    Listed lists x := fun w hw => (h w hw).imp_right fun ⟨ks, hks, hordinary⟩ => ⟨ks, hsub hks, hordinary⟩

/-- The slash before a size touches no word of it: it is followed by a blank. -/
theorem listed_slashed (h : Listed kss x) : Listed kss ('/' :: ' ' :: x) := by
  have hwords : Text.words ('/' :: ' ' :: x) = ['/'] :: Text.words x := rfl
  intro w hw
  rw [hwords] at hw
  exact (mem_cons.mp hw).elim Or.inl (h w)

/-- The keywords of two parts are apart, and a measure holds a digit, which no keyword does. So a listed word
    is not taken as a keyword of another part. -/
theorem Listed.not_matches_keyword {others : List String} (hplain : Pattern.UsesPlain (.keyword others))
    (hdigit : ∀ k ∈ others, (k.toList.all fun f => !Text.isDigit (Text.foldCase f)) = true)
    (hapart : ∀ ks ∈ kss, ∀ k ∈ ks, ∀ k' ∈ others,
      (Text.ofString k).map Text.foldCase ≠ (Text.ofString k').map Text.foldCase)
    (h : Listed kss x) (hw : w ∈ Text.words x) : ¬Pattern.Matches (.keyword others) w := by
  rcases h w hw with rfl | ⟨ks, hks, h⟩
  · exact fun hm => absurd (hm.forall_mem hplain '/' mem_cons_self) (by decide)
  · exact h.not_matches_keyword (hapart ks hks) hdigit

/-- A listed word is not the image: it is not `none`, and it has no bracket that could open a call. -/
theorem Listed.not_imageWord (hapart : ∀ ks ∈ kss, ∀ k ∈ ks, ∀ k' ∈ ["none"],
      (Text.ofString k).map Text.foldCase ≠ (Text.ofString k').map Text.foldCase)
    (hparen : '(' ∉ x) (h : Listed kss x) (hw : w ∈ Text.words x) : ¬Pattern.ImageWord w := by
  rcases h w hw with rfl | ⟨ks, hks, hordinary⟩
  · rintro ⟨name, y, hy, hname, -⟩
    obtain ⟨c, hc, -⟩ := hname.letter
    obtain ⟨d, n, rfl⟩ := exists_cons_of_ne_nil (ne_nil_of_mem hc)
    have hplain := hname.plain d mem_cons_self
    rw [← (cons.inj hy).1] at hplain
    contradiction
  · obtain ⟨-, -, a, r, hx, -⟩ := Text.mem_words_iff.mp hw
    exact hordinary.not_imageWord (hapart ks hks) fun hm => hparen (by simp [hx, hm])

end Part

/-! ## Taking the parts out

  In the order of the table. Where the image has been, the words of its url are gone, which could have been
  anything.
-/

open CssShorthand.Part (backgroundImage attachment repetition backgroundPosition)

namespace Slices

variable {c i r p z a : Option Text} {u v w : Text}

/-- The values that a background is joined from: color, image, repetition, position, size and
    attachment. -/
structure OfBackground (c i r p z a : Option Text) : Prop where
  color : ∀ u ∈ c, Pattern.Matches Part.color.pattern u ∧ Color.isColor u = true ∧ Color.Form u
  image : ∀ u ∈ i, Pattern.Matches backgroundImage.pattern u
  repetition : ∀ u ∈ r, Pattern.Matches repetition.pattern u
  position : ∀ u ∈ p, Pattern.Matches backgroundPosition.pattern u
  size : ∀ u ∈ z, Pattern.Matches Part.size.pattern u
  attachment : ∀ u ∈ a, Pattern.Matches attachment.pattern u

/-- A value with a slash before it. -/
def slashed (z : Option Text) : Option Text := z.map ('/' :: ' ' :: ·)

/-- The space that is left of a value that was taken out. -/
def blanked (o : Option Text) : Option Text := o.map fun _ => [' ']

/-- Where a part was taken a blank is left. -/
theorem eq_of_mem_blanked {o : Option Text} (h : u ∈ blanked o) : u = [' '] := by
  obtain ⟨-, -, rfl⟩ := Option.map_eq_some_iff.mp h
  rfl

/-- The texts that are joined. -/
def pieces (c i r p z a : Option Text) : List Text :=
  c.toList ++ (i.toList ++ (r.toList ++ (p.toList ++ (z.toList ++ a.toList))))

/-- The pieces are the values of the six longhands, one text at most from each. -/
theorem mem_pieces {x : Text} : x ∈ pieces c i r p z a ↔
    x ∈ c ∨ x ∈ i ∨ x ∈ r ∨ x ∈ p ∨ x ∈ z ∨ x ∈ a := by
  simp [pieces]

/-- The characters of lengths, percentages and keywords, of blanks and of slashes. -/
abbrev IsListChar (c : Char) : Prop := Pattern.IsMeasureChar c ∨ Text.isBlank c = true ∨ c = '/'

namespace OfBackground

open CssShorthand.Part (Listed)

/-- The value of the repetition consists of repetitions. -/
theorem listed_repetition (h : OfBackground c i r p z a) : ∀ u ∈ r, Listed [backgroundRepeats] u :=
  fun u hu => Part.listed_of_matches Part.ofWords_repeats (fun _ => Or.inl) (h.repetition u hu)

/-- The value of the position consists of positions and lengths. -/
theorem listed_position (h : OfBackground c i r p z a) : ∀ u ∈ p, Listed [backgroundPositions] u :=
  fun u hu => Part.listed_of_matches Part.ofWords_positions (fun _ => Pattern.ordinary_of_matches)
    (h.position u hu)

/-- The value of the size, with its slash, consists of sizes and lengths. -/
theorem listed_size (h : OfBackground c i r p z a) : ∀ u ∈ slashed z, Listed [backgroundSizes] u := by
  intro u hu
  obtain ⟨v, hv, rfl⟩ := Option.map_eq_some_iff.mp hu
  exact Part.listed_slashed (Part.listed_of_matches Part.ofWords_sizes
    (fun _ => Pattern.ordinary_of_matches) (h.size v hv))

/-- The value of the attachment is one of the keywords. -/
theorem listed_attachment (h : OfBackground c i r p z a) :
    ∀ u ∈ a, Listed [backgroundAttachments] u := by
  intro u hu w hw
  have hm : Pattern.Matches (.keyword backgroundAttachments) u := h.attachment u hu
  rw [Text.words_of_word (Part.ne_nil_of_matches_keyword (by decide) hm)
    (Pattern.isBlank_of_isPlain_of_matches hm Part.usesPlain_attachments), mem_singleton] at hw
  exact Or.inr ⟨_, mem_singleton_self _, Or.inl (hw ▸ hm)⟩

/-- Repetition, position, size and attachment are made of these characters. -/
theorem isListChar_of_listed (h : OfBackground c i r p z a) :
    ∀ u, u ∈ r ∨ u ∈ p ∨ u ∈ slashed z ∨ u ∈ a → ∀ x ∈ u, IsListChar x := by
  have hlist : ∀ {q : Pattern} {n : Nat} {u : Text}, Pattern.Uses Pattern.IsMeasureChar q →
      Pattern.Matches (.listOf n q) u → ∀ x ∈ u, IsListChar x := fun hq hu =>
    hu.forall_mem (Pattern.uses_listOf (hq.mono fun _ => Or.inl) fun _ hx => Or.inr (Or.inl hx))
  have hplain : ∀ x, Text.isPlain x = true → Pattern.IsMeasureChar x := fun _ => Or.inl
  rintro u (hu | hu | hu | hu)
  · exact hlist (Part.usesPlain_repeats.mono hplain) (h.repetition u hu)
  · exact hlist (Pattern.uses_measure Part.usesPlain_positions) (h.position u hu)
  · obtain ⟨v, hv, rfl⟩ := Option.map_eq_some_iff.mp hu
    intro x hx
    rcases mem_cons.mp hx with rfl | hx
    · exact Or.inr (Or.inr rfl)
    · rcases mem_cons.mp hx with rfl | hx
      · exact Or.inr (Or.inl rfl)
      · exact hlist (Pattern.uses_measure Part.usesPlain_sizes) (h.size v hv) x hx
  · exact fun x hx => Or.inl (Or.inl ((h.attachment u hu).forall_mem Part.usesPlain_attachments x hx))

/-- All but the color and the image are lists of words. -/
theorem listed (h : OfBackground c i r p z a) : ∀ u, u ∈ r ∨ u ∈ p ∨ u ∈ slashed z ∨ u ∈ a →
    Listed [backgroundRepeats, backgroundPositions, backgroundSizes, backgroundAttachments] u := by
  rintro u (hu | hu | hu | hu)
  · exact (h.listed_repetition u hu).mono (by simp)
  · exact (h.listed_position u hu).mono (by simp)
  · exact (h.listed_size u hu).mono (by simp)
  · exact (h.listed_attachment u hu).mono (by simp)

/-- A character that stands in no list, such as a bracket or a quote, stands in none of the four values that
    are lists. -/
theorem not_mem_of_not_isListChar (h : OfBackground c i r p z a) {x : Char} (hx : ¬IsListChar x) :
    ∀ u, u ∈ r ∨ u ∈ p ∨ u ∈ slashed z ∨ u ∈ a → x ∉ u :=
  fun u hu hm => hx (h.isListChar_of_listed u hu x hm)

/-- **The image is taken out first.** -/
theorem takePart_image (h : OfBackground c i r p z a) :
    takePart (Text.join [' '] (pieces c i r p (slashed z) a)) backgroundImage =
      (i, Text.join [' '] (pieces c (blanked i) r p (slashed z) a)) := by
  refine Part.takePart_option Part.opens_backgroundImage.isWord _ _ _ (fun u hu => ?_) (fun _ u hu => ?_) fun u hu => ?_
  · have hform := (h.color u (Option.mem_toList.mp hu)).2.2
    exact Part.opens_backgroundImage.misses fun w hw => (hform.word hw).not_imageWord
  · have hu : u ∈ r ∨ u ∈ p ∨ u ∈ slashed z ∨ u ∈ a := by simpa using hu
    exact Part.opens_backgroundImage.misses fun w hw =>
      (h.listed u hu).not_imageWord (by decide +kernel) (h.not_mem_of_not_isListChar (by decide) u hu) hw
  · refine Part.locate_of_find? Part.opens_backgroundImage.isWord rfl
      (Pattern.find?_ends_image (h.image u hu) (Part.atBreak_behind _) fun hm => ?_)
    exfalso
    rcases Part.mem_behind hm with hm | ⟨x, hx, hm⟩
    · exact absurd hm (by decide)
    · exact h.not_mem_of_not_isListChar (by decide) x (by simpa using hx) hm

/-- A search for one of these keywords passes the color and what is left of the image. -/
theorem misses_before (h : OfBackground c i r p z a) {q : Part} {ks : List String}
    (hq : q.Opens (Pattern.Matches (.keyword ks))) (hplain : Pattern.UsesPlain (.keyword ks))
    (hapart : ∀ k ∈ ks, ∀ n ∈ Color.names,
      (Text.ofString k).map Text.foldCase ≠ (Text.ofString n).map Text.foldCase)
    (hletter : ∀ k ∈ ks, (k.toList.any fun f => !Spot.isArgumentChar (Text.foldCase f)) = true) :
    ∀ u ∈ c.toList ++ (blanked i).toList, q.Misses u := by
  intro u hu
  rcases mem_append.mp hu with hu | hu
  · have hform := (h.color u (Option.mem_toList.mp hu)).2.2
    exact hq.misses fun w hw => (hform.word hw).not_matches_keyword hplain hapart hletter
  · exact misses_blanked hq.isWord i u hu

/-- **The attachment is taken out next.** -/
theorem takePart_attachment (h : OfBackground c i r p z a) :
    takePart (Text.join [' '] (pieces c (blanked i) r p (slashed z) a)) Part.attachment =
      (a, Text.join [' '] (pieces c (blanked i) r p (slashed z) (blanked a))) := by
  have hxs : ∀ u ∈ c.toList ++ (blanked i).toList ++ (r.toList ++ (p.toList ++ (slashed z).toList)),
      Part.attachment.Misses u := by
    refine forall_mem_append.mpr ⟨h.misses_before Part.opens_attachment Part.usesPlain_attachments
      (Part.names_apart _ (by simp)) (by decide +kernel), fun u hu => ?_⟩
    have hlisted : Listed [backgroundRepeats, backgroundPositions, backgroundSizes] u := by
      simp only [mem_append, Option.mem_toList] at hu
      rcases hu with hu | hu | hu
      · exact (h.listed_repetition u hu).mono (by simp)
      · exact (h.listed_position u hu).mono (by simp)
      · exact (h.listed_size u hu).mono (by simp)
    exact Part.opens_attachment.misses fun w hw =>
      hlisted.not_matches_keyword Part.usesPlain_attachments (by decide +kernel) (by decide +kernel) hw
  have htake := Part.takePart_option Part.opens_attachment.isWord _ [] _ hxs (fun _ => nofun)
    fun u hu => Part.locate_plain rfl rfl Part.usesPlain_attachments
      (fun _ => Part.ne_nil_of_matches_keyword (by decide)) (h.attachment u hu) rfl
  simpa only [pieces, blanked, append_nil, append_assoc] using htake

/-- **The repetition is taken out next**, as far as it goes. -/
theorem takePart_repetition (h : OfBackground c i r p z a) :
    takePart (Text.join [' '] (pieces c (blanked i) r p (slashed z) (blanked a))) Part.repetition =
      (r, Text.join [' '] (pieces c (blanked i) (blanked r) p (slashed z) (blanked a))) := by
  have hwords : ∀ u ∈ p.toList ++ ((slashed z).toList ++ (blanked a).toList), ∀ w ∈ Text.words u,
      ¬Pattern.Matches (.keyword backgroundRepeats) w := by
    intro u hu w hw
    have hlisted : Listed [backgroundPositions, backgroundSizes] u := by
      simp only [mem_append, Option.mem_toList] at hu
      rcases hu with hu | hu | hu
      · exact (h.listed_position u hu).mono (by simp)
      · exact (h.listed_size u hu).mono (by simp)
      · rw [eq_of_mem_blanked hu]
        exact Part.listed_blank _
    exact hlisted.not_matches_keyword Part.usesPlain_repeats (by decide +kernel) (by decide +kernel) hw
  have htake := Part.takePart_option Part.opens_repetition.isWord _ _ _
    (h.misses_before Part.opens_repetition Part.usesPlain_repeats (Part.names_apart _ (by simp)) (by decide +kernel))
    (fun _ u hu => Part.opens_repetition.misses (hwords u hu)) fun u hu =>
      Part.locate_list rfl rfl rfl Part.ofWords_repeats (h.repetition u hu)
        (Pattern.endsAt_of_words (Part.atBreak_behind _) (fun w hw => by
          rw [Part.words_behind] at hw
          obtain ⟨x, hx, hw⟩ := mem_flatMap.mp hw
          exact hwords x hx w hw) Part.ofWords_repeats)
  simpa only [pieces, slashed, blanked, append_assoc] using htake

/-- What is left when the color is not there: spaces, a position and a size. -/
theorem listed_of_mem_left (h : OfBackground c i r p z a)
    (hu : u ∈ pieces none (blanked i) (blanked r) p (slashed z) (blanked a)) :
    Listed [backgroundPositions, backgroundSizes] u ∧ ∀ x ∈ u, IsListChar x := by
  have hblank : u = [' '] → Listed [backgroundPositions, backgroundSizes] u ∧ ∀ x ∈ u, IsListChar x := by
    rintro rfl
    exact ⟨Part.listed_blank _, forall_mem_singleton.mpr (Or.inr (Or.inl rfl))⟩
  rcases mem_pieces.mp hu with hu | hu | hu | hu | hu | hu
  · contradiction
  · exact hblank (eq_of_mem_blanked hu)
  · exact hblank (eq_of_mem_blanked hu)
  · exact ⟨(h.listed_position u hu).mono (by simp), h.isListChar_of_listed u (Or.inr (Or.inl hu))⟩
  · exact ⟨(h.listed_size u hu).mono (by simp), h.isListChar_of_listed u (Or.inr (Or.inr (Or.inl hu)))⟩
  · exact hblank (eq_of_mem_blanked hu)

/-- **What is left when the color is not there is no color.** -/
theorem locate_color_eq_none (h : OfBackground c i r p z a) :
    Part.color.locate 0 true (Text.join [' '] (pieces none (blanked i) (blanked r) p (slashed z) (blanked a))) =
      none := by
  refine Option.eq_none_iff_forall_ne_some.mpr fun place hplace => ?_
  obtain ⟨htext, hmatches, haccepts, -, hbefore, hafter⟩ := Part.isWord_color.of_locate hplace
  have hchars : ∀ x ∈ place.text, IsListChar x := by
    intro x hx
    have hmem := htext ▸ mem_append_right place.before (mem_append_left place.after hx)
    rcases Part.mem_join hmem with rfl | ⟨u, hu, hx⟩
    · exact Or.inr (Or.inl rfl)
    · exact (h.listed_of_mem_left hu).2 x hx
  -- What may be a color has a bracket or a hash sign, or is a word of its own.
  rcases Pattern.cases_of_matches_colorLike hmatches with ⟨n, inside, hcall, -⟩ | ⟨digits, hhash, -⟩ |
    ⟨hne, hplain⟩
  · exact absurd (hchars '(' (by simp [hcall])) (by decide)
  · exact absurd (hchars '#' (by simp [hhash])) (by decide)
  · have hword := Text.mem_words_iff.mpr ⟨hne, fun x hx => Text.isBlank_of_isPlain (hplain x hx).1,
      place.before, place.after, htext, hbefore, hafter⟩
    rw [Part.words_join] at hword
    obtain ⟨u, hu, hw⟩ := mem_flatMap.mp hword
    have hisColor : Color.isColor place.text = true := by
      rwa [Part.accepts, Part.color] at haccepts
    rcases (h.listed_of_mem_left hu).1 place.text hw with hslash | ⟨ks, hks, hordinary⟩
    · exact absurd (hplain '/' (by simp [hslash])).1 (by decide)
    · have hapart := Part.names_apart ks (mem_cons_of_mem _ (mem_cons_of_mem _ hks))
      rw [hordinary.not_isColor hapart (fun x hx => Or.inl (hplain x hx).1) hmatches] at hisColor
      contradiction

/-- **The color is taken out next.** -/
theorem takePart_color (h : OfBackground c i r p z a) :
    takePart (Text.join [' '] (pieces c (blanked i) (blanked r) p (slashed z) (blanked a))) Part.color =
      (c, Text.join [' '] (pieces (blanked c) (blanked i) (blanked r) p (slashed z) (blanked a))) := by
  cases c with
  | none =>
    rw [takePart, h.locate_color_eq_none]
    rfl
  | some u =>
    obtain ⟨hmatches, hcolor, -⟩ := h.color u rfl
    exact Part.takePart_join Part.isWord_color [] _ (forall_mem_nil _)
      (Part.locate_of_only Part.isWord_color hmatches hcolor (Part.atBreak_behind _) fun v s happend hv hs =>
        (Pattern.eq_of_colorLike hmatches hv (Part.atBreak_behind _) hs happend).symm)

/-- **The size is taken out next**, with its slash. -/
theorem takePart_size (h : OfBackground c i r p z a) :
    takePart (Text.join [' '] (pieces (blanked c) (blanked i) (blanked r) p (slashed z) (blanked a)))
        Part.size =
      (z, Text.join [' '] (pieces (blanked c) (blanked i) (blanked r) p (blanked z) (blanked a))) := by
  have hblank : ∀ {o : Option Text} {u : Text}, u ∈ (blanked o).toList → '/' ∉ u := fun hu => by
    rw [eq_of_mem_blanked (Option.mem_toList.mp hu)]
    decide
  have hposition : ∀ u ∈ p.toList, '/' ∉ u := fun u hu =>
    Part.not_mem_of_matches_position (h.position u (Option.mem_toList.mp hu))
  have htake := Part.takePart_size
    ((blanked c).toList ++ ((blanked i).toList ++ ((blanked r).toList ++ p.toList))) (blanked a).toList z
    (forall_mem_append.mpr ⟨fun _ => hblank, forall_mem_append.mpr ⟨fun _ => hblank,
      forall_mem_append.mpr ⟨fun _ => hblank, hposition⟩⟩⟩)
    (fun _ => hblank) h.size (Pattern.endsAt_of_words (Part.atBreak_behind _) (fun w hw => by
      rw [Part.words_behind] at hw
      obtain ⟨x, hx, hw⟩ := mem_flatMap.mp hw
      rw [eq_of_mem_blanked (Option.mem_toList.mp hx)] at hw
      exact absurd hw not_mem_nil) Part.ofWords_sizes)
  simpa only [pieces, slashed, blanked, append_assoc] using htake

/-- **The position is what is left.** -/
theorem takePart_position (h : OfBackground c i r p z a) :
    takePart (Text.join [' '] (pieces (blanked c) (blanked i) (blanked r) p (blanked z) (blanked a)))
        backgroundPosition =
      (p, Text.join [' '] (pieces (blanked c) (blanked i) (blanked r) (blanked p) (blanked z) (blanked a))) := by
  have hmisses := fun o => misses_blanked Part.opens_backgroundPosition.isWord o
  have htake := Part.takePart_option Part.opens_backgroundPosition.isWord
    ((blanked c).toList ++ ((blanked i).toList ++ (blanked r).toList))
    ((blanked z).toList ++ (blanked a).toList) p
    (forall_mem_append.mpr ⟨hmisses c, forall_mem_append.mpr ⟨hmisses i, hmisses r⟩⟩)
    (fun _ => forall_mem_append.mpr ⟨hmisses z, hmisses a⟩) fun u hu =>
      Part.locate_list rfl rfl rfl Part.ofWords_positions (h.position u hu)
        (Pattern.endsAt_of_words (Part.atBreak_behind _) (fun w hw => by
          rw [Part.words_behind] at hw
          obtain ⟨x, hx, hw⟩ := mem_flatMap.mp hw
          have hx : x ∈ blanked z ∨ x ∈ blanked a := by simpa using hx
          rw [hx.elim eq_of_mem_blanked eq_of_mem_blanked] at hw
          exact absurd hw not_mem_nil) Part.ofWords_positions)
  simpa only [pieces, slashed, blanked, append_assoc] using htake

/-- **The values of a background are found again.** -/
theorem slice_joined (h : OfBackground c i r p z a) :
    ∃ slices, slice (Text.join [' '] (pieces c i r p (slashed z) a)) Part.background = slices ∧
      slices.get? "-color" = c ∧ slices.get? "-image" = i ∧ slices.get? "-repeat" = r ∧
      slices.get? "-position" = p ∧ slices.get? "-size" = z ∧ slices.get? "-attachment" = a ∧
      slices.remaining = [] := by
  have hleft : Text.collapse (Text.join [' ']
      (pieces (blanked c) (blanked i) (blanked r) (blanked p) (blanked z) (blanked a))) = [] := by
    refine Text.collapse_of_blanks (blank_of_mem_join fun x hx => ?_)
    rcases mem_pieces.mp hx with hx | hx | hx | hx | hx | hx <;> exact eq_of_mem_blanked hx
  have hslice : slice (Text.join [' '] (pieces c i r p (slashed z) a)) Part.background =
      ⟨(i.map ("-image", ·)).toList ++ ((a.map ("-attachment", ·)).toList ++
        ((r.map ("-repeat", ·)).toList ++ ((c.map ("-color", ·)).toList ++
          ((z.map ("-size", ·)).toList ++ ((p.map ("-position", ·)).toList ++ []))))), []⟩ := by
    simp only [slice, Part.background_eq, takeParts_cons, h.takePart_image, h.takePart_attachment,
      h.takePart_repetition, h.takePart_color, h.takePart_size, h.takePart_position, takeParts_nil, hleft]
    rfl
  have hnil : ∀ name, get? ⟨[], []⟩ name = none := fun _ => rfl
  refine ⟨_, hslice, ?_, ?_, ?_, ?_, ?_, ?_, rfl⟩ <;> simp only [get?_option] <;> simp [hnil]

/-- The value of a color leads as a value does: it is not empty and starts with no mark. -/
theorem leads_color (h : OfBackground (some u) i r p z a) : Leads u := by
  obtain ⟨hm, -, hform⟩ := h.color u rfl
  obtain ⟨x, w, hcons, -⟩ := Part.isWord_color.starts u hm
  exact hform.leads (hcons ▸ cons_ne_nil x w)

theorem leads_repetition (h : OfBackground c i (some u) p z a) : Leads u := by
  cases h.repetition u rfl with
  | seq hw _ =>
    exact Pattern.leads_of_matches_measure Part.usesPlain_repeats (by decide) (by decide +kernel) (.right hw)

theorem leads_position (h : OfBackground c i r (some u) z a) : Leads u := by
  cases h.position u rfl with
  | seq hw _ =>
    exact Pattern.leads_of_matches_measure Part.usesPlain_positions (by decide) (by decide +kernel) hw

theorem leads_attachment (h : OfBackground c i r p z (some u)) : Leads u := by
  have hleads := Pattern.leads_of_matches_measure (x := []) Part.usesPlain_attachments (by decide)
    (by decide +kernel) (.right (h.attachment u rfl))
  rwa [append_nil] at hleads

/-- **The first of the values is no keyword for every property**; before a size stands a position. -/
theorem leads (h : OfBackground c i r p z a) (hz : z.isSome = true → p.isSome = true) {vs : List Text}
    (hv : pieces c i r p (slashed z) a = v :: vs) : Leads v := by
  -- By the first value there is: a color, an image, a repetition, a position or an attachment. A size is
  -- never first, as it comes with a position.
  cases c with
  | some u =>
    obtain rfl : u = v := (cons.inj hv).1
    exact h.leads_color
  | none =>
    cases i with
    | some u =>
      obtain rfl : u = v := (cons.inj hv).1
      exact Pattern.leads_of_matches_image (h.image u rfl)
    | none =>
      cases r with
      | some u =>
        obtain rfl : u = v := (cons.inj hv).1
        exact h.leads_repetition
      | none =>
        cases p with
        | some u =>
          obtain rfl : u = v := (cons.inj hv).1
          exact h.leads_position
        | none =>
          cases z with
          | some _ => exact absurd (hz rfl) (by decide)
          | none =>
            cases a with
            | some u =>
              obtain rfl : u = v := (cons.inj hv).1
              exact h.leads_attachment
            | none => exact absurd hv.symm (cons_ne_nil _ _)

end OfBackground

end Slices

end CssShorthand
