/-
  VALUES MADE OF PIECES.

  A value is made of pieces (`Slices.MadeOf`) if each of its characters is white space of CSS, a slash
  that begins no comment, or in a piece: a text that is closed (`Component.Closed`) and is a word or begins
  like a call, a block or a string.  Between two pieces stands white space or a slash; within a call, a
  block or a string it may stand anywhere.

    1.  The components of the value are those of its pieces and slashes (`MadeOf.tokens_eq`).
    2.  Cut at a break, the value falls into such values, if what is before the break opens nothing
        (`MadeOf.exists_append`); two of them with a gap between make one (`MadeOf.append`).
    3.  Trimmed, the value has the pieces that it had (`MadeOf.trim`), and collapsed as well if no piece holds
        more than single spaces (`MadeOf.collapse`, `Laid`).
    4.  A value of words alone is made of them (`exists_madeOf_of_ordinary`).
-/
import CssShorthand.Proofs.Component.Closed
import CssShorthand.Proofs.Component.Leading
import CssShorthand.Proofs.Slice.ColorWords
import CssShorthand.Proofs.Slice.Words
import Mathlib.Data.Set.List

namespace CssShorthand

open List

/-! ## Collapsing

  Collapsing a text in front of another one: the two are collapsed by themselves, with one blank between
  them if there was a break.
-/

namespace Text

variable {c : Char} {t x : Text}

/-- Where there is no word, there are only blanks. -/
theorem isBlank_of_words_eq_nil (h : words t = []) : ∀ d ∈ t, isBlank d = true := by
  induction t with
  | nil => simp
  | cons c t ih =>
    rw [words] at h
    split at h
    · rename_i hc
      exact forall_mem_cons.mpr ⟨hc, ih h⟩
    · split at h
      · contradiction
      · exact absurd h (extendFirst_ne_nil _ _)

/-- Collapsing leaves nothing of white space, and of nothing else. -/
theorem collapse_eq_nil_iff : collapse t = [] ↔ words t = [] := by
  constructor
  · intro h
    by_contra hne
    obtain ⟨w, ws, hws⟩ := exists_cons_of_ne_nil hne
    have hw := (mem_words_iff.mp (hws ▸ mem_cons_self : w ∈ words t)).1
    rw [collapse, hws, Part.join_cons] at h
    exact hw (append_eq_nil_iff.mp h).1
  · intro h
    rw [collapse, h]
    rfl

/-- White space in front is dropped. -/
theorem collapse_blank (hc : isBlank c = true) (t : Text) : collapse (c :: t) = collapse t := by
  rw [collapse, words, if_pos hc, collapse]

/-- Within a word nothing is changed. -/
theorem collapse_cons (hc : isBlank c = false) (ht : atBreak t = false) :
    collapse (c :: t) = c :: collapse t := by
  obtain ⟨w, ws, hws⟩ := exists_cons_of_ne_nil (words_ne_nil ht)
  rw [collapse, words, if_neg (by simp [hc]), if_neg (by simp [ht]), collapse, hws, extendFirst,
    Part.join_cons, Part.join_cons]
  rfl

/-- A word begins as it did. -/
theorem collapse_cons_eq (hc : isBlank c = false) (t : Text) :
    collapse (c :: t) = c :: (collapse (c :: t)).tail := by
  cases ht : atBreak t with
  | false => rw [collapse_cons hc ht, tail_cons]
  | true =>
    rw [collapse, words, if_neg (by simp [hc]), if_pos ht, Part.join_cons]
    rfl

/-- Texts with a blank between them have a space between them. -/
theorem collapse_append_blank (hc : isBlank c = true) (hx : words x ≠ []) (t : Text) :
    collapse (x ++ c :: t) = if collapse t = [] then collapse x else collapse x ++ ' ' :: collapse t := by
  rw [collapse, words_append_blank hc]
  split
  · rename_i ht
    rw [collapse_eq_nil_iff.mp ht, append_nil, collapse]
  · rename_i ht
    rw [Part.join_append_of_ne_nil hx (mt collapse_eq_nil_iff.mpr ht), collapse, collapse]

/-- A text that ends with a word is collapsed by itself, also if the word goes on behind it. -/
theorem collapse_append (hx : ∀ d ∈ x.getLast?, isBlank d = false) (ht : atBreak t = false) :
    collapse (x ++ t) = collapse x ++ collapse t := by
  induction x with
  | nil => rfl
  | cons c x ih =>
    cases x with
    | nil =>
      have hc : isBlank c = false := hx c rfl
      have hword : collapse [c] = [c] := by simp [collapse, words, hc, atBreak, join]
      rw [singleton_append, collapse_cons hc ht, hword]
      rfl
    | cons d x =>
      have hlast : ∀ e ∈ (d :: x).getLast?, isBlank e = false := fun e he => hx e (by rwa [getLast?_cons_cons])
      have hrest := ih hlast
      cases hc : isBlank c with
      | true => rw [cons_append, collapse_blank hc, collapse_blank hc, hrest]
      | false =>
        cases hd : isBlank d with
        | false =>
          have hbreak : ∀ u, atBreak (d :: u) = false := fun _ => hd
          rw [cons_append, cons_append, collapse_cons hc (hbreak _), collapse_cons hc (hbreak _), ← cons_append,
            hrest]
          rfl
        | true =>
          -- The word ends here, and others follow before the end of the text.
          have hword : words [c] ≠ [] := words_ne_nil hc
          have hmore : collapse x ≠ [] := by
            intro hnil
            have hblank := isBlank_of_words_eq_nil (collapse_eq_nil_iff.mp ((collapse_blank hd x).trans hnil))
            have hend := hlast _ (getLast?_eq_getLast_of_ne_nil (cons_ne_nil d x))
            rw [hblank _ (getLast_mem _)] at hend
            contradiction
          rw [cons_append, collapse_blank hd, collapse_blank hd] at hrest
          have hboth : collapse (x ++ t) ≠ [] := by
            rw [hrest]
            exact append_ne_nil_of_left_ne_nil hmore _
          show collapse ([c] ++ d :: (x ++ t)) = collapse ([c] ++ d :: x) ++ collapse t
          rw [collapse_append_blank hd hword, collapse_append_blank hd hword, if_neg hboth, if_neg hmore, hrest]
          simp

end Text

/-! ## Pieces

  What is enclosed in brackets or quotes is one piece, whatever is in it.
-/

namespace Slices

open Component (Closed atGap parse significant)
open Spot (isSpace)

/-- The characters that a string, a block or the arguments of a call begin with. -/
def isOpening (c : Char) : Bool := c == '"' || c == '\'' || c == '(' || c == '[' || c == '\x7b'

/-- A character of a word: no blank, no slash, and nothing that opens. -/
def isBare (c : Char) : Bool := !Text.isBlank c && c != '/' && !isOpening c

/-- A text that begins like a call, a block or a string: with a word, which may be empty, and what opens. -/
def Enclosing (x : Text) : Prop :=
  ∃ w c t, x = w ++ c :: t ∧ isOpening c = true ∧ ∀ d ∈ w, isBare d = true

/-- **A piece of a value**: a word, or a text that begins like a call, a block or a string.  It is parsed
    for itself, whatever stands in the gap behind it, and the white space of this gap does not belong to it. -/
structure Piece (x : Text) : Prop where
  ne_nil : x ≠ []
  closed : Closed x
  last : ∀ d ∈ x.getLast?, Text.isBlank d = false
  shape : (∀ c ∈ x, isBare c = true) ∨ Enclosing x

/-- A value that is made of pieces, and these with its slashes. -/
inductive MadeOf : Text → List Text → Prop
  | nil : MadeOf [] []
  | gap {c : Char} {t : Text} {xs : List Text} (hc : isSpace c = true) (h : MadeOf t xs) : MadeOf (c :: t) xs
  | slash {t : Text} {xs : List Text} (hstar : t.head? ≠ some '*') (h : MadeOf t xs) :
      MadeOf ('/' :: t) (['/'] :: xs)
  | piece {x t : Text} {xs : List Text} (hx : Piece x) (ht : atGap t = true) (h : MadeOf t xs) :
      MadeOf (x ++ t) (x :: xs)

variable {c : Char} {a b t u v x : Text} {xs ys : List Text}

/-- A bare character is not white space. -/
theorem isBlank_of_isBare (h : isBare c = true) : Text.isBlank c = false := by
  simp only [isBare, Bool.and_eq_true, Bool.not_eq_true'] at h
  exact h.1.1

/-- A bare character starts no comment. -/
theorem ne_slash_of_isBare (h : isBare c = true) : c ≠ '/' := by
  rintro rfl
  exact absurd h (by decide)

/-- A bare character opens nothing. -/
theorem isOpening_of_isBare (h : isBare c = true) : isOpening c = false := by
  simp only [isBare, Bool.and_eq_true, Bool.not_eq_true'] at h
  exact h.2

/-- What opens a string, a call or a block is neither white space nor a slash. -/
theorem isBlank_of_isOpening (h : isOpening c = true) : Text.isBlank c = false ∧ c ≠ '/' := by
  simp only [isOpening, Bool.or_eq_true, beq_iff_eq] at h
  rcases h with (((rfl | rfl) | rfl) | rfl) | rfl <;> decide

/-- At a gap neither a bare word goes on nor does a call start. -/
theorem isBare_of_atGap (h : atGap (c :: t) = true) : isBare c = false ∧ isOpening c = false := by
  rcases Bool.or_eq_true_iff.mp (show (isSpace c || c == '/') = true from h) with h | h
  · constructor
    · simp [isBare, Spot.isBlank_of_isSpace h]
    · simp only [isSpace, Text.isCssBlank, Bool.or_eq_true, beq_iff_eq] at h
      rcases h with (((rfl | rfl) | rfl) | rfl) | rfl <;> decide
  · obtain rfl : c = '/' := by simpa using h
    decide

/-- A piece begins with no blank and no slash. -/
theorem Piece.exists_cons (h : Piece x) : ∃ c t, x = c :: t ∧ Text.isBlank c = false ∧ c ≠ '/' := by
  rcases h.shape with hbare | ⟨w, d, t, rfl, hd, hw⟩
  · obtain ⟨c, t, rfl⟩ := exists_cons_of_ne_nil h.ne_nil
    have hc := hbare c mem_cons_self
    exact ⟨c, t, rfl, isBlank_of_isBare hc, ne_slash_of_isBare hc⟩
  · cases w with
    | nil => exact ⟨d, t, rfl, isBlank_of_isOpening hd⟩
    | cons c w =>
      have hc := hw c mem_cons_self
      exact ⟨c, w ++ d :: t, rfl, isBlank_of_isBare hc, ne_slash_of_isBare hc⟩

/-- A piece that is a word is collapsed to itself; what is enclosed may hold more than single spaces. -/
theorem Piece.collapse_eq (h : Piece x) (henclosing : Enclosing x → Text.collapse x = x) :
    Text.collapse x = x := by
  rcases h.shape with hbare | hx
  · rw [Text.collapse, Text.words_of_word h.ne_nil fun d hd => isBlank_of_isBare (hbare d hd)]
    simp [Text.join]
  · exact henclosing hx

/-- **What is cut off a piece at a break** has opened something. -/
theorem Piece.not_cut (h : Piece x) {e : Char} {y : Text} (ha : ∀ d ∈ c :: a, isOpening d = false)
    (he : Text.isBlank e = true) : x ≠ (c :: a) ++ e :: y := by
  rintro hx
  have hbare : ∀ d, isBare d = true → d ≠ e := by
    rintro d hd rfl
    rw [isBlank_of_isBare hd] at he
    contradiction
  rcases h.shape with hword | ⟨w, f, s, hw, hf, hword⟩
  · exact hbare e (hword e (by simp [hx])) rfl
  · have hfe : f ≠ e := by
      rintro rfl
      rw [(isBlank_of_isOpening hf).1] at he
      contradiction
    rcases append_eq_append_iff.mp (hx.symm.trans hw) with ⟨z, rfl, hz⟩ | ⟨z, hz, hfs⟩
    · cases z with
      | nil => exact hfe (cons.inj hz).1.symm
      | cons d z => exact hbare d (hword d (by simp)) (cons.inj hz).1.symm
    · cases z with
      | nil => exact hfe (cons.inj hfs).1
      | cons d z =>
        obtain ⟨rfl, -⟩ := cons.inj hfs
        exact absurd ((ha f (by simp [hz])).symm.trans hf) (by decide)

/-- A piece has a word. -/
theorem Piece.words_ne_nil (h : Piece x) : Text.words x ≠ [] := by
  obtain ⟨c, t, rfl, hc, -⟩ := h.exists_cons
  exact Text.words_ne_nil (t := c :: t) hc

/-! ## Components

  Pieces are closed, so the components of the value are theirs in a row; white space between them adds none.
-/

/-- The tokens of a text: its outermost components but for white space, as they are written. -/
def tokens (t : Text) : List Text := (significant (parse t)).map Component.write

namespace MadeOf

/-- **The components of a value are those of its pieces.** -/
theorem significant_eq (h : MadeOf v xs) : significant (parse v) = xs.flatMap fun x => significant (parse x) := by
  induction h with
  | nil => rw [Component.parse_nil]; rfl
  | gap hc _ ih => rw [Component.significant_parse_space hc]; exact ih
  | @slash t xs hstar _ ih =>
    have hslash : significant (parse ['/']) = [.literal ['/']] := by
      rw [Component.parse_slash (by simp), Component.parse_nil]
      rfl
    rw [flatMap_cons, ← ih, hslash, Component.parse_slash hstar]
    rfl
  | @piece x t xs hx ht _ ih => rw [flatMap_cons, ← ih, hx.closed t ht, Component.significant_append]

/-- **The tokens of a value are those of its pieces.** -/
theorem tokens_eq (h : MadeOf v xs) : tokens v = xs.flatMap tokens := by
  rw [tokens, h.significant_eq, map_flatMap]
  rfl

/-! ## Cutting and joining

  Where a value is cut at a break, no piece is cut, unless the text before the break opens something.
-/

/-- A front of what starts with a gap starts with one, the empty front by convention. -/
theorem atGap_of_append (h : atGap (a ++ b) = true) : atGap a = true := by
  cases a with
  | nil => rfl
  | cons c a => exact h

/-- A front starts as the whole, or is empty. -/
theorem head?_of_append (h : (a ++ b).head? ≠ some c) : a.head? ≠ some c := by
  cases a with
  | nil => simp
  | cons d a => exact h

/-- A gap is not a star: a slash before it opens no comment. -/
theorem head?_of_atGap (h : atGap t = true) : t.head? ≠ some '*' := by
  cases t with
  | nil => simp
  | cons c t =>
    rintro heq
    rw [Option.some.inj heq] at h
    contradiction

/-- A piece by itself is laid out. -/
theorem single (h : Piece x) : MadeOf x [x] := by
  have := piece h rfl nil
  rwa [append_nil] at this

/-- **MadeOf values with a gap between them make one.** -/
theorem append (ha : MadeOf a xs) (hgap : atGap b = true) (hb : MadeOf b ys) : MadeOf (a ++ b) (xs ++ ys) := by
  induction ha with
  | nil => exact hb
  | gap hc _ ih => exact .gap hc ih
  | @slash t xs hstar _ ih =>
    refine .slash ?_ ih
    cases t with
    | nil => exact head?_of_atGap hgap
    | cons d t => exact hstar
  | @piece x t xs hx ht _ ih =>
    rw [append_assoc]
    refine .piece hx ?_ ih
    cases t with
    | nil => exact hgap
    | cons d t => exact ht

/-- **A value made of pieces that is cut at a break** falls into such values, if what is before opens nothing: within
    a word there is no break, and what is enclosed begins with what opens. -/
theorem exists_append (h : MadeOf v xs) (huv : v = a ++ b) (hb : Text.atBreak b = true)
    (ha : ∀ c ∈ a, isOpening c = false) : ∃ ys zs, xs = ys ++ zs ∧ MadeOf a ys ∧ MadeOf b zs := by
  induction h generalizing a with
  | nil =>
    obtain ⟨rfl, rfl⟩ := append_eq_nil_iff.mp huv.symm
    exact ⟨[], [], rfl, nil, nil⟩
  | @gap c t xs hc h ih =>
    cases a with
    | nil =>
      obtain rfl : c :: t = b := huv
      exact ⟨[], xs, rfl, nil, .gap hc h⟩
    | cons d a =>
      obtain ⟨rfl, rfl⟩ := cons.inj huv
      obtain ⟨ys, zs, rfl, hys, hzs⟩ := ih rfl fun e he => ha e (mem_cons_of_mem _ he)
      exact ⟨ys, zs, rfl, .gap hc hys, hzs⟩
  | @slash t xs hstar h ih =>
    cases a with
    | nil =>
      obtain rfl : '/' :: t = b := huv
      exact ⟨[], _, rfl, nil, .slash hstar h⟩
    | cons d a =>
      obtain ⟨rfl, rfl⟩ := cons.inj huv
      obtain ⟨ys, zs, rfl, hys, hzs⟩ := ih rfl fun e he => ha e (mem_cons_of_mem _ he)
      exact ⟨_, zs, rfl, .slash (head?_of_append hstar) hys, hzs⟩
  -- The cut is behind the piece, before it, or inside; inside would cut the piece at a break.
  | @piece x t xs hx ht h ih =>
    rcases append_eq_append_iff.mp huv with ⟨y, rfl, rfl⟩ | ⟨y, hy, rfl⟩
    · obtain ⟨ys, zs, rfl, hys, hzs⟩ := ih rfl fun e he => ha e (mem_append_right _ he)
      exact ⟨_, zs, rfl, .piece hx (atGap_of_append ht) hys, hzs⟩
    · cases a with
      | nil =>
        exact ⟨[], _, rfl, nil, huv ▸ .piece hx ht h⟩
      | cons d a =>
        cases y with
        | nil =>
          rw [append_nil] at hy
          subst hy
          exact ⟨[_], xs, rfl, single hx, h⟩
        | cons e y => exact absurd hy (hx.not_cut ha hb)

/-- A value made of pieces that begins like a call begins with a piece that is enclosing. -/
theorem exists_enclosing (h : MadeOf v xs) (hv : v = a ++ c :: b) (hc : isOpening c = true)
    (ha : ∀ d ∈ a, isBare d = true) : ∃ x t ys, v = x ++ t ∧ xs = x :: ys ∧ Piece x ∧ Enclosing x ∧
      atGap t = true ∧ MadeOf t ys := by
  have hfirst : ∀ {d : Char} {t : Text}, d :: t = a ++ c :: b → isBare d = true ∨ isOpening d = true := by
    intro d t hdt
    cases a with
    | nil => exact Or.inr ((cons.inj hdt).1 ▸ hc)
    | cons e a => exact Or.inl ((cons.inj hdt).1 ▸ ha e mem_cons_self)
  -- The opening character is behind bare ones only, so it is in the first piece, and this is no bare word.
  cases h with
  | nil => exact absurd hv.symm (by simp)
  | @gap d t _ hspace _ =>
    obtain ⟨hbare, hopening⟩ := isBare_of_atGap (show atGap (d :: t) = true by simp [atGap, hspace])
    rcases hfirst hv with h | h
    · exact absurd (hbare.symm.trans h) (by decide)
    · exact absurd (hopening.symm.trans h) (by decide)
  | slash => rcases hfirst hv with h | h <;> exact absurd h (by decide)
  | @piece x t ys hx ht h =>
    refine ⟨x, t, ys, rfl, rfl, hx, hx.shape.resolve_left fun hbare => ?_, ht, h⟩
    have hend : t ≠ c :: b := by
      rintro rfl
      exact absurd ((isBare_of_atGap ht).2.symm.trans hc) (by decide)
    rcases append_eq_append_iff.mp hv with ⟨y, rfl, hy⟩ | ⟨y, hy, hyt⟩
    · cases y with
      | nil => exact hend hy
      | cons d y =>
        rw [hy] at ht
        exact absurd ((isBare_of_atGap ht).1.symm.trans (ha d (by simp))) (by decide)
    · cases y with
      | nil => exact hend hyt.symm
      | cons d y =>
        obtain ⟨rfl, -⟩ := cons.inj hyt
        exact absurd ((isOpening_of_isBare (hbare c (by simp [hy]))).symm.trans hc) (by decide)

/-- A slash at the beginning of a value made of pieces stands for itself. -/
theorem exists_of_slash (h : MadeOf ('/' :: t) xs) : ∃ ys, xs = ['/'] :: ys ∧ MadeOf t ys := by
  generalize hv : '/' :: t = v at h
  cases h with
  | nil => contradiction
  | gap hc =>
    obtain ⟨rfl, -⟩ := cons.inj hv
    contradiction
  | slash _ h =>
    obtain ⟨-, rfl⟩ := cons.inj hv
    exact ⟨_, rfl, h⟩
  | piece hx =>
    obtain ⟨c, y, rfl, -, hc⟩ := hx.exists_cons
    exact absurd (cons.inj hv).1.symm hc

/-! ## Trimming and collapsing

  What is done to the text that is left in the end.
-/

/-- Nothing is made of no pieces. -/
theorem eq_nil (h : MadeOf [] xs) : xs = [] := by
  generalize hv : ([] : Text) = v at h
  cases h with
  | nil => rfl
  | gap => contradiction
  | slash => contradiction
  | piece hx => exact absurd (append_eq_nil_iff.mp hv.symm).1 hx.ne_nil

/-- Without its first blanks a value made of pieces has the pieces that it had. -/
theorem of_blanks_append (ha : ∀ c ∈ a, Text.isBlank c = true) (h : MadeOf (a ++ v) xs) : MadeOf v xs := by
  induction a with
  | nil => exact h
  | cons c a ih =>
    have hc := ha c mem_cons_self
    generalize hw : (c :: a) ++ v = w at h
    cases h with
    | nil => contradiction
    | gap _ h =>
      obtain ⟨rfl, rfl⟩ := cons.inj hw
      exact ih (fun d hd => ha d (mem_cons_of_mem _ hd)) h
    | slash =>
      obtain ⟨rfl, -⟩ := cons.inj hw
      contradiction
    | piece hx =>
      obtain ⟨d, y, rfl, hd, -⟩ := hx.exists_cons
      rw [← (cons.inj hw).1, hc] at hd
      contradiction

/-- Without its last blanks a value made of pieces has the pieces that it had. -/
theorem of_append_blanks (h : MadeOf v xs) (hv : v = t ++ b) (hb : ∀ c ∈ b, Text.isBlank c = true) :
    MadeOf t xs := by
  induction h generalizing t with
  | nil => exact (append_eq_nil_iff.mp hv.symm).1 ▸ nil
  | @gap c u xs hc h ih =>
    cases t with
    | nil =>
      obtain rfl : c :: u = b := hv
      exact of_blanks_append hb (by rw [append_nil]; exact .gap hc h)
    | cons d t =>
      obtain ⟨rfl, rfl⟩ := cons.inj hv
      exact .gap hc (ih rfl)
  | @slash u xs hstar h ih =>
    cases t with
    | nil => exact absurd (hb '/' (by rw [← show _ = b from hv]; simp)) (by decide)
    | cons d t =>
      obtain ⟨rfl, rfl⟩ := cons.inj hv
      exact .slash (head?_of_append hstar) (ih rfl)
  | @piece x u xs hx hu h ih =>
    rcases append_eq_append_iff.mp hv with ⟨y, rfl, rfl⟩ | ⟨y, hy, rfl⟩
    · exact .piece hx (atGap_of_append hu) (ih rfl)
    · -- A piece ends with a character that is no white space, so the blanks begin behind it.
      rcases eq_nil_or_concat y with rfl | ⟨z, d, rfl⟩
      · obtain rfl : x = t := by simpa using hy
        obtain rfl : xs = [] := (of_blanks_append hb (by simpa using h)).eq_nil
        exact single hx
      · have hd := hx.last d (by rw [hy, concat_eq_append, ← append_assoc, getLast?_concat]; rfl)
        exact absurd (hd.symm.trans (hb d (by simp))) (by decide)

/-- **A value made of pieces that is trimmed** has the pieces that it had. -/
theorem trim (h : MadeOf v xs) : MadeOf (Text.trim v) xs := by
  obtain ⟨a, b, hv, ha, hb⟩ := Text.exists_append_trim v
  rw [hv] at h
  exact (of_blanks_append ha h).of_append_blanks rfl hb

/-- Behind a text that ends with a word, what follows is collapsed as it is alone, or with a space. -/
theorem exists_collapse_append (hcollapse : Text.collapse x = x) (hwords : Text.words x ≠ [])
    (hlast : ∀ d ∈ x.getLast?, Text.isBlank d = false) (t : Text) :
    ∃ s, Text.collapse (x ++ t) = x ++ s ∧
      (s = Text.collapse t ∧ (∃ c u w, t = c :: u ∧ s = c :: w) ∨ s = [] ∧ Text.collapse t = [] ∨
        s = ' ' :: Text.collapse t) := by
  cases hbreak : Text.atBreak t with
  | false =>
    refine ⟨_, by rw [Text.collapse_append hlast hbreak, hcollapse], Or.inl ⟨rfl, ?_⟩⟩
    cases t with
    | nil => contradiction
    | cons c u => exact ⟨c, u, _, rfl, Text.collapse_cons_eq hbreak u⟩
  | true =>
    cases t with
    | nil => exact ⟨[], by rw [append_nil, hcollapse], Or.inr (Or.inl ⟨rfl, rfl⟩)⟩
    | cons c u =>
      have hc : Text.isBlank c = true := hbreak
      rw [Text.collapse_append_blank hc hwords, hcollapse, Text.collapse_blank hc]
      split
      · rename_i hnil
        exact ⟨[], by rw [append_nil], Or.inr (Or.inl ⟨rfl, hnil⟩)⟩
      · exact ⟨_, rfl, Or.inr (Or.inr rfl)⟩

/-- **A value made of pieces that is collapsed** has the pieces that it had, if these hold single spaces only. -/
theorem collapse (h : MadeOf v xs) (hsingle : ∀ x ∈ xs, Enclosing x → Text.collapse x = x) :
    MadeOf (Text.collapse v) xs := by
  induction h with
  | nil => exact nil
  | gap hc _ ih =>
    rw [Text.collapse_blank (Spot.isBlank_of_isSpace hc)]
    exact ih hsingle
  | @slash t xs hstar _ ih =>
    have ih := ih fun x hx => hsingle x (mem_cons_of_mem _ hx)
    have hslash : Text.collapse ['/'] = ['/'] := rfl
    obtain ⟨s, hs, h⟩ := exists_collapse_append hslash (Text.words_ne_nil rfl) (by simp; decide) t
    show MadeOf (Text.collapse (['/'] ++ t)) _
    rw [hs]
    rcases h with ⟨rfl, c, u, w, rfl, hw⟩ | ⟨rfl, hnil⟩ | rfl
    · exact .slash (by rw [hw]; exact hstar) ih
    · rw [hnil] at ih
      exact .slash (by simp) ih
    · exact .slash (by simp) (.gap rfl ih)
  | @piece x t xs hx ht _ ih =>
    have ih := ih fun y hy => hsingle y (mem_cons_of_mem _ hy)
    have hcollapse := hx.collapse_eq (hsingle x mem_cons_self)
    obtain ⟨s, hs, h⟩ := exists_collapse_append hcollapse hx.words_ne_nil hx.last t
    rw [hs]
    rcases h with ⟨rfl, c, u, w, rfl, hw⟩ | ⟨rfl, hnil⟩ | rfl
    · exact .piece hx (by rw [hw]; exact ht) ih
    · exact .piece hx rfl (hnil ▸ ih)
    · exact .piece hx rfl (.gap rfl ih)

end MadeOf

/-- A value that is made of pieces with no white space in them but single spaces: it is laid out, so that
    collapsing it leaves its pieces as they are. -/
structure Laid (v : Text) (xs : List Text) : Prop where
  madeOf : MadeOf v xs
  collapse_eq : ∀ x ∈ xs, Text.collapse x = x

/-- **Collapsing a value that is laid out** leaves its components. -/
theorem Laid.significant_collapse (h : Laid v xs) :
    significant (parse (Text.collapse v)) = significant (parse v) := by
  rw [(h.madeOf.collapse fun x hx _ => h.collapse_eq x hx).significant_eq, h.madeOf.significant_eq]

/-! ## Values of words

  The simplest values: no brackets and no quotes at all.
-/

/-- A character of a word that is read as no part of a string, a block, an escape or a comment. -/
def isOrdinary (c : Char) : Bool :=
  isBare c && c != '\\' && c != ')' && c != ']' && c != '\x7d' && c != '*' && c != '\x00'

/-- The characters that need no escape are bare. -/
theorem isBare_of_isOrdinary (h : isOrdinary c = true) : isBare c = true := by
  simp only [isOrdinary, Bool.and_eq_true] at h
  exact h.1.1.1.1.1.1

/-- An ordinary character is not one of the marks. -/
theorem ne_of_isOrdinary {d : Char} (h : isOrdinary c = true) (hd : isOrdinary d = false) : c ≠ d := by
  rintro rfl
  rw [h] at hd
  contradiction

/-- Of ordinary characters only leaves are read. -/
theorem leaf_of_reading {r : Text} {ls : List Lexeme} (h : Lexeme.Reading c t ls r)
    (hx : ∀ d ∈ c :: t, isOrdinary d = true) :
    ∀ l ∈ ls, l.isFault = false ∧ l.isComment = false ∧ ∃ d, l = .leaf d := by
  have hc : ∀ d, isOrdinary d = false → c ≠ d := fun d hd => ne_of_isOrdinary (hx c mem_cons_self) hd
  have hparen : ∀ u, (Name.take (c :: t)).2 ≠ '(' :: u := by
    intro u hu
    exact absurd (hx '(' ((Name.take_suffix _).subset (hu ▸ mem_cons_self))) (by decide)
  cases h with
  | call _ hr => exact absurd hr (hparen _)
  | url hr => exact absurd hr (hparen _)
  | opened b h => cases b <;> exact absurd h (hc _ (by decide))
  | closed b h => cases b <;> exact absurd h (hc _ (by decide))
  | string h => rcases h with h | h <;> exact absurd h (hc _ (by decide))
  | comment h => exact absurd h (hc _ (by decide))
  | symbol =>
    obtain ⟨text, htext, -⟩ := Lexeme.readDelimiter_eq c t
    rw [htext]
    simp [Lexeme.delimiter, Lexeme.isFault, Lexeme.isComment, Component.isComment]
  | _ => simp [Lexeme.delimiter, Lexeme.isFault, Lexeme.isComment, Component.isComment]

/-- Words of ordinary characters are read as leaves, with no fault and no comment: none of their characters
    opens a string, a call or a block. By induction on what the scan still has to read. -/
theorem leaf_of_ordinary (hx : ∀ d ∈ x, isOrdinary d = true) :
    ∀ l ∈ Lexeme.scan x, l.item.isFault = false ∧ l.item.isComment = false ∧ ∃ d, l.item = .leaf d := by
  induction hn : x.length using Nat.strong_induction_on generalizing x with
  | _ n ih =>
    subst hn
    cases x with
    | nil => rw [Lexeme.scan]; simp
    | cons c t =>
      have hread := Lexeme.reading_read c t
      intro l hl
      rw [Lexeme.scan] at hl
      rcases mem_append.mp hl with hl | hl
      · obtain ⟨k, hk, rfl⟩ := mem_map.mp hl
        exact leaf_of_reading hread hx k hk
      · exact ih _ (Nat.lt_succ_of_le (Lexeme.read_length_le c t))
          (fun d hd => hx d (hread.suffix.subset hd)) rfl l hl

/-- **A word of ordinary characters is closed.** -/
theorem closed_of_ordinary (hx : ∀ d ∈ x, isOrdinary d = true) : Closed x := by
  have hleaf := leaf_of_ordinary hx
  have hne : ∀ d, isOrdinary d = false → d ∉ x := fun d hd hmem => ne_of_isOrdinary (hx d hmem) hd rfl
  have hnormal : Lexeme.Normal x := ⟨hne _ (by decide), hne _ (by decide), hne _ (by decide)⟩
  have hsettled : Lexeme.Settled x := by
    refine ⟨hne _ (by decide), fun l hl => (hleaf l hl).1, fun l hl => (hleaf l hl).2.1, fun d hd => ?_⟩
    by_contra hblank
    have hd := isBlank_of_isBare (isBare_of_isOrdinary (hx d (mem_of_getLast? hd)))
    rw [Text.isBlank_of_isCssBlank (by simpa using hblank)] at hd
    contradiction
  have hitems : ∀ l ∈ Lexeme.lexemes x, l.isFault = false ∧ ∃ d, l = .leaf d := by
    intro l hl
    obtain ⟨k, hk, rfl⟩ := mem_map.mp hl
    have hk := hleaf k (mem_filter.mp hk).1
    exact ⟨hk.1, hk.2.2⟩
  obtain ⟨ds, hds⟩ : Lexeme.lexemes x ∈ Set.range (map Lexeme.leaf) := by
    rw [Set.range_list_map]
    exact fun l hl => (hitems l hl).2.imp fun _ => Eq.symm
  have hisLeaf : ∀ d ∈ ds, Component.IsLeaf d := fun d hd =>
    Lexeme.isLeaf_of_mem_lexemes x (hds ▸ mem_map_of_mem hd)
  have hflat : Component.flatList ds = Lexeme.lexemes x := (Component.flatList_of_isLeaf hisLeaf).trans hds
  -- The leaves are parsed one by one, and nothing is open at the end.
  have hparse : parse x = ds := Component.parse_of_leaves hnormal hisLeaf hds.symm
  refine Component.closed_of_settled hsettled hnormal ?_ (by rw [hparse, hflat])
  rw [hparse]
  exact fun l hl => (hitems l (hflat ▸ hl)).1

/-- A word of ordinary characters is a piece. -/
theorem piece_of_ordinary (hne : x ≠ []) (hx : ∀ d ∈ x, isOrdinary d = true) : Piece x where
  ne_nil := hne
  closed := closed_of_ordinary hx
  last d hd := isBlank_of_isBare (isBare_of_isOrdinary (hx d (mem_of_getLast? hd)))
  shape := Or.inl fun d hd => isBare_of_isOrdinary (hx d hd)

/-- A closed call is a piece: it ends with its bracket. -/
theorem piece_of_call {n i : Text} (hx : x = n ++ '(' :: (i ++ [')'])) (hn : ∀ d ∈ n, isBare d = true)
    (hclosed : Closed x) : Piece x where
  ne_nil := by simp [hx]
  closed := hclosed
  last d hd := by
    rw [hx, ← cons_append, ← append_assoc, getLast?_concat] at hd
    rw [← Option.some.inj hd]
    decide
  shape := Or.inr ⟨n, '(', _, hx, rfl, hn⟩

/-- Neither a word of ordinary characters nor a slash encloses anything. -/
theorem not_enclosing_of_ordinary (hx : ∀ d ∈ x, isOrdinary d = true ∨ d = '/') : ¬Enclosing x := by
  rintro ⟨w, c, t, rfl, hc, -⟩
  rcases hx c (by simp) with h | rfl
  · rw [isOpening_of_isBare (isBare_of_isOrdinary h)] at hc
    contradiction
  · contradiction

/-- A gap stands where a character is not ordinary. -/
theorem atGap_dropWhile_isOrdinary (hv : ∀ c ∈ v, isOrdinary c = true ∨ isSpace c = true ∨ c = '/') :
    atGap (v.dropWhile isOrdinary) = true := by
  cases hrest : v.dropWhile isOrdinary with
  | nil => rfl
  | cons d r =>
    have hd := head_dropWhile_not isOrdinary (l := v) (by simp [hrest])
    simp only [hrest, head_cons] at hd
    rcases hv d ((dropWhile_suffix isOrdinary).subset (hrest ▸ mem_cons_self)) with h | h | rfl
    · rw [h] at hd
      contradiction
    · simp [atGap, h]
    · simp [atGap]

/-- **A value of ordinary characters, white space and slashes is made of its words.** -/
theorem exists_madeOf_of_ordinary (hv : ∀ c ∈ v, isOrdinary c = true ∨ isSpace c = true ∨ c = '/') :
    ∃ xs, MadeOf v xs ∧ ∀ x ∈ xs, ¬Enclosing x := by
  induction hn : v.length using Nat.strong_induction_on generalizing v with
  | _ n ih =>
    subst hn
    cases v with
    | nil => exact ⟨[], .nil, by simp⟩
    | cons c t =>
      rcases hv c mem_cons_self with hc | hc | rfl
      · -- A word ends where a character is not ordinary.
        have happend := takeWhile_append_dropWhile (p := isOrdinary) (l := c :: t)
        have hword : ∀ d ∈ (c :: t).takeWhile isOrdinary, isOrdinary d = true := fun d hd =>
          mem_takeWhile_imp hd
        have hne : (c :: t).takeWhile isOrdinary ≠ [] := by simp [hc]
        have hlt : ((c :: t).dropWhile isOrdinary).length < (c :: t).length := by
          have hpos := length_pos_iff.mpr hne
          have hlen := congrArg length happend
          rw [length_append] at hlen
          omega
        obtain ⟨xs, hxs, hall⟩ := ih _ hlt (fun d hd => hv d ((dropWhile_suffix _).subset hd)) rfl
        have hlaid := MadeOf.piece (piece_of_ordinary hne hword) (atGap_dropWhile_isOrdinary hv) hxs
        rw [happend] at hlaid
        refine ⟨_, hlaid, ?_⟩
        exact forall_mem_cons.mpr ⟨not_enclosing_of_ordinary fun d hd => Or.inl (hword d hd), hall⟩
      · obtain ⟨xs, hxs, hall⟩ := ih _ (by simp) (fun d hd => hv d (mem_cons_of_mem _ hd)) rfl
        exact ⟨xs, .gap hc hxs, hall⟩
      · obtain ⟨xs, hxs, hall⟩ := ih _ (by simp) (fun d hd => hv d (mem_cons_of_mem _ hd)) rfl
        refine ⟨_, .slash ?_ hxs, forall_mem_cons.mpr ⟨not_enclosing_of_ordinary (by simp), hall⟩⟩
        cases t with
        | nil => simp
        | cons d t =>
          intro hd
          rw [Option.some.inj hd] at hv
          rcases hv '*' (by simp) with h | h | h <;> exact absurd h (by decide)

end Slices

end CssShorthand
