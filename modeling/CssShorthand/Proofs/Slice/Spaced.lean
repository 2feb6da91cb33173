/-
  TEXTS WITH BLANKS BETWEEN THEM.

  A value holds texts in a row, with any blanks between them and around them (`Text.Spaced`).  A part
  that is one of these texts is taken out of the row, wherever it stands, if the search for it gets past
  the texts before it (`Part.Refuses`): what the part matches there is not accepted.  What is left is the
  row of the other texts (`Part.takePart_of_spaced`).

  So a table of parts can be taken out of a row one after the other, and the order of the row plays no
  role.
-/
import CssShorthand.Proofs.Slice.Words

namespace CssShorthand

open List

/-! ## Rows

  White space of any kind and length, also at the ends; taking out a text leaves white space where it stood.
-/

namespace Text

variable {a b r u v w : Text} {us : List Text} {c : Char}

/-- The text holds these texts in this order, with blanks between them and perhaps around them. -/
inductive Spaced : List Text → Text → Prop
  | nil {b : Text} (hb : ∀ c ∈ b, isBlank c = true) : Spaced [] b
  | cons {b u r : Text} {us : List Text} (hb : ∀ c ∈ b, isBlank c = true) (hr : atBreak r = true)
      (h : Spaced us r) : Spaced (u :: us) (b ++ (u ++ r))

/-- More white space may stand in front of the words. -/
theorem Spaced.blanks_append (hb : ∀ c ∈ b, isBlank c = true) (h : Spaced us r) : Spaced us (b ++ r) := by
  cases h with
  | nil hr => exact .nil (forall_mem_append.mpr ⟨hb, hr⟩)
  | cons ha hr h =>
    rw [← append_assoc]
    exact .cons (forall_mem_append.mpr ⟨hb, ha⟩) hr h

/-- Texts that are joined with blanks are such a row. -/
theorem spaced_join (hne : b ≠ []) (hb : ∀ c ∈ b, isBlank c = true) (us : List Text) :
    Spaced us (join b us) := by
  induction us with
  | nil => exact .nil (forall_mem_nil _)
  | cons u us ih =>
    cases us with
    | nil =>
      have hrest : Spaced [] [] := .nil (forall_mem_nil _)
      simpa [join] using Spaced.cons (u := u) (forall_mem_nil _) rfl hrest
    | cons w us =>
      have hjoin : join b (u :: w :: us) = u ++ (b ++ join b (w :: us)) := by
        simp [join, intercalate_cons_cons]
      have hbreak : atBreak (b ++ join b (w :: us)) = true := by
        obtain ⟨c, b, rfl⟩ := exists_cons_of_ne_nil hne
        exact hb c mem_cons_self
      rw [hjoin]
      exact .cons (b := []) (forall_mem_nil _) hbreak (ih.blanks_append hb)

/-- The words of a row are those of its texts. -/
theorem Spaced.words_eq (h : Spaced us v) : words v = us.flatMap words := by
  induction h with
  | nil hb => exact words_of_blanks hb
  | cons hb hr _ ih => rw [words_blanks_append hb, words_append_of_atBreak hr, ih, flatMap_cons]

/-- The characters of a row are blanks and those of its texts. -/
theorem Spaced.mem (h : Spaced us v) (hc : c ∈ v) : isBlank c = true ∨ ∃ u ∈ us, c ∈ u := by
  induction h with
  | nil hb => exact Or.inl (hb c hc)
  | cons hb hr _ ih =>
    rcases mem_append.mp hc with hc | hc
    · exact Or.inl (hb c hc)
    · rcases mem_append.mp hc with hc | hc
      · exact Or.inr ⟨_, mem_cons_self, hc⟩
      · exact (ih hc).imp_right fun ⟨x, hx, hcx⟩ => ⟨x, mem_cons_of_mem _ hx, hcx⟩

/-- A front of what starts at a break starts at one, the empty front by convention. -/
theorem atBreak_of_append (h : atBreak (a ++ b) = true) : atBreak a = true := by
  cases a with
  | nil => rfl
  | cons d a => exact h

/-- A word around a character that is no blank holds it, or stands on one side of it. -/
theorem mem_words_append_cons (hc : isBlank c = false) (hw : w ∈ words (a ++ c :: b)) :
    c ∈ w ∨ w ∈ words a ∨ w ∈ words b := by
  obtain ⟨hne, hblank, x, r, hx, hbefore, hafter⟩ := mem_words_iff.mp hw
  rw [← append_assoc] at hx
  rcases append_eq_append_iff.mp hx with ⟨y, hy, hrest⟩ | ⟨y, rfl, hrest⟩
  · -- The word does not end before the character.
    cases y with
    | nil =>
      rw [nil_append] at hrest
      rw [← hrest, atBreak, hc] at hafter
      contradiction
    | cons d y =>
      obtain ⟨rfl, rfl⟩ := cons.inj hrest
      rcases append_eq_append_iff.mp hy with ⟨z, rfl, rfl⟩ | ⟨z, rfl, hz⟩
      · exact Or.inl (by simp)
      · cases z with
        | nil =>
          rw [nil_append] at hz
          exact Or.inl (hz ▸ mem_cons_self)
        | cons e z =>
          obtain ⟨rfl, rfl⟩ := cons.inj hz
          have hbreak : atBreak z.reverse = true := by
            refine atBreak_of_append (b := c :: a.reverse) ?_
            simpa using hbefore
          exact Or.inr (Or.inr (mem_words_iff.mpr ⟨hne, hblank, z, r, append_assoc z w r, hbreak, hafter⟩))
  · -- It ends before the character, where a break is on this side too.
    have hbreak : atBreak y = true := atBreak_of_append (hrest ▸ hafter)
    exact Or.inr (Or.inl (mem_words_iff.mpr ⟨hne, hblank, x, y, append_assoc x w y, hbefore, hbreak⟩))

end Text

/-! ## The search

  Past the texts that are refused, up to the one that is found.
-/

namespace Part

open Text (Spaced)

variable {p : Part} {r t u v x : Text} {us us₁ us₂ : List Text}

/-- The search steps over white space in front. -/
theorem locate_blanks_append (h : p.IsWord) {b : Text} (hb : ∀ c ∈ b, Text.isBlank c = true) (t : Text) :
    p.locate 0 true (b ++ t) = (p.locate 0 true t).map (Place.behind b) := by
  induction b with
  | nil => simp
  | cons c b ih =>
    rw [cons_append, locate_blank h (hb c mem_cons_self), ih fun d hd => hb d (mem_cons_of_mem _ hd),
      Option.map_map, Place.push_comp_behind]

/-- Nothing is found in a row of texts that the search refuses. -/
theorem locate_of_refuses (h : p.IsWord) (hv : Spaced us v) (hrefuses : ∀ x ∈ us, p.Refuses x) :
    p.locate 0 true v = none := by
  induction hv with
  | @nil b hb =>
    have hnone := locate_blanks_append h hb []
    rw [append_nil] at hnone
    rw [hnone]
    simp [locate]
  | cons hb hr _ ih =>
    rw [locate_blanks_append h hb, locate_append_of_refuses h (hrefuses _ mem_cons_self) hr,
      ih fun x hx => hrefuses x (mem_cons_of_mem _ hx)]
    rfl

/-- **The search finds a text of a row** behind the texts that it refuses, and leaves the others. -/
theorem exists_locate_of_spaced (h : p.IsWord) (hv : Spaced (us₁ ++ u :: us₂) v)
    (hrefuses : ∀ x ∈ us₁, p.Refuses x)
    (hfound : ∀ r, Text.atBreak r = true → Spaced us₂ r → p.locate 0 true (u ++ r) = some ⟨[], u, r⟩) :
    ∃ a r, v = a ++ (u ++ r) ∧ p.locate 0 true v = some ⟨a, u, r⟩ ∧ Spaced (us₁ ++ us₂) (a ++ ' ' :: r) := by
  have hspace : ∀ c ∈ [' '], Text.isBlank c = true := forall_mem_singleton.mpr rfl
  -- on the texts before it: each is passed, and stays in the row that is left
  induction us₁ generalizing v with
  | nil =>
    cases hv with
    | @cons b _ r _ hb hr hrest =>
      -- the blanks on its two sides and the space in its place are blanks before the next text
      refine ⟨b, r, rfl, ?_, (hrest.blanks_append hspace).blanks_append hb⟩
      rw [locate_blanks_append h hb, hfound r hr hrest]
      simp
  | cons x us₁ ih =>
    cases hv with
    | @cons b _ t _ hb ht hrest =>
      obtain ⟨a, r, rfl, hlocate, hleft⟩ := ih hrest fun y hy => hrefuses y (mem_cons_of_mem _ hy)
      refine ⟨b ++ (x ++ a), r, by simp, ?_, ?_⟩
      · rw [locate_blanks_append h hb, locate_append_of_refuses h (hrefuses x mem_cons_self) ht, hlocate]
        simp
      · have hbreak : Text.atBreak (a ++ ' ' :: r) = true := by
          cases a with
          | nil => rfl
          | cons c a => exact ht
        simpa using Spaced.cons (u := x) hb hbreak hleft

/-- **A part of a row is taken out**, wherever it stands. -/
theorem takePart_of_spaced (h : p.IsWord) (hv : Spaced (us₁ ++ u :: us₂) v)
    (hrefuses : ∀ x ∈ us₁, p.Refuses x)
    (hfound : ∀ r, Text.atBreak r = true → Spaced us₂ r → p.locate 0 true (u ++ r) = some ⟨[], u, r⟩) :
    ∃ v', Slices.takePart v p = (some u, v') ∧ Spaced (us₁ ++ us₂) v' := by
  obtain ⟨a, r, -, hlocate, hleft⟩ := exists_locate_of_spaced h hv hrefuses hfound
  exact ⟨a ++ ' ' :: r, by simp [Slices.takePart, hlocate, h.content_eq], hleft⟩

end Part

/-- A list does not go on in blanks. -/
theorem Pattern.endsAt_of_blanks {p : Pattern} {r : Text} (hp : p.OfWords)
    (hr : ∀ c ∈ r, Text.isBlank c = true) : p.EndsAt r := by
  refine endsAt_of_words (Text.atBreak_of_blanks hr) (fun w hw => ?_) hp
  rw [Text.words_of_blanks hr] at hw
  exact absurd hw not_mem_nil

end CssShorthand
