/-
  VALUES THAT ARE DECLARED AS THEY ARE.

  A value without marks that neither begins nor ends with a blank, and does not end with a semicolon, is
  declared as it is (`AsIs.declarationOfText?`).  So are such values joined with spaces
  (`AsIs.joined`).

  Everything that is stored goes through cleaning, also what the program has made itself. So each statement
  about a store that is folded or expanded needs that the texts in it are not changed once more; this is the
  condition under which they are not, and it is closed under joining.
-/
import CssShorthand.Folding
import CssShorthand.Proofs.Cascade.Spread
import CssShorthand.Proofs.Slice.Image

namespace CssShorthand

open List

namespace Folding

variable {v w : Text} {ws : List Text}

/-- One word is joined to itself. -/
theorem joined_singleton (w : Text) : joined [w] = w := by
  simp [joined, Text.join]

/-- Words are joined with a blank between two of them. -/
theorem joined_cons_cons (w v : Text) (ws : List Text) :
    joined (w :: v :: ws) = w ++ ' ' :: joined (v :: ws) := by
  simp [joined, Text.join, intercalate_cons_cons]

/-- A value that is declared as it is. -/
structure AsIs (w : Text) : Prop where
  mark : '!' ∉ w
  first : ∃ c t, w = c :: t ∧ Text.isBlank c = false
  last : ∃ t d, w = t ++ [d] ∧ Text.isBlank d = false ∧ d ≠ ';'

namespace AsIs

/-- A value that is stored as it is has a first character. -/
theorem ne_nil (h : AsIs w) : w ≠ [] := by
  obtain ⟨c, t, rfl, -⟩ := h.first
  exact cons_ne_nil _ _

/-- Neither end is white space, so trimming keeps the value. -/
theorem trim (h : AsIs w) : Text.trim w = w := by
  obtain ⟨c, t, rfl, hc⟩ := h.first
  obtain ⟨u, d, hend, hd, -⟩ := h.last
  exact Text.trim_of_ends hc hd hend

/-- What is declared by it is the value itself. -/
theorem declarationOfText? (h : AsIs w) (important : Bool) :
    Value.declarationOfText? w important = some ⟨w, important⟩ := by
  refine (Cleaning.declarationOfText?_eq_self_iff h.trim).mpr ⟨h.ne_nil, fun u hu => ?_, ?_⟩
  · exact Cleaning.afterMark?_of_not_mem fun hm => h.mark (hu.subset hm)
  · obtain ⟨t, d, rfl, -, hd⟩ := h.last
    simpa using hd

/-- **Joined values are declared as they are** if each of them is. -/
theorem joined (hne : ws ≠ []) (h : ∀ w ∈ ws, AsIs w) : AsIs (joined ws) := by
  induction ws with
  | nil => contradiction
  | cons w ws ih =>
    have hw := h w mem_cons_self
    cases ws with
    | nil => rwa [joined_singleton]
    | cons v ws =>
      have hrest := ih (cons_ne_nil _ _) fun x hx => h x (mem_cons_of_mem _ hx)
      obtain ⟨c, t, rfl, hc⟩ := hw.first
      obtain ⟨u, d, hu, hd⟩ := hrest.last
      rw [joined_cons_cons]
      refine ⟨fun hm => ?_, ⟨c, _, rfl, hc⟩, c :: t ++ ' ' :: u, d, by rw [hu]; simp, hd⟩
      rcases mem_append.mp hm with hm | hm
      · exact hw.mark hm
      · exact (mem_cons.mp hm).elim (by decide) hrest.mark

/-- A word of plain characters is stored as it is: the marks of an importance and the semicolon are not plain.
    -/
theorem of_plain (hne : w ≠ []) (h : ∀ c ∈ w, Text.isPlain c = true) : AsIs w where
  mark hm := absurd (h _ hm) (by decide)
  first := by
    obtain ⟨c, t, rfl⟩ := exists_cons_of_ne_nil hne
    exact ⟨c, t, rfl, Text.isBlank_of_isPlain (h c mem_cons_self)⟩
  last := Text.exists_concat_of_plain hne h

/-- A keyword is stored as it is. -/
theorem of_keyword {ks : List String} (hks : Pattern.UsesPlain (.keyword ks))
    (hne : "" ∉ ks) (h : Pattern.Matches (.keyword ks) w) : AsIs w :=
  of_plain (Part.ne_nil_of_matches_keyword hne h) (h.forall_mem hks)

/-- An image is declared as it is, if there are no marks in it. -/
theorem of_image (h : Pattern.Matches .image w) (hmark : '!' ∉ w) : AsIs w where
  mark := hmark
  first := by
    obtain ⟨c, t, rfl, hc⟩ := Pattern.exists_cons_of_matches_image h
    exact ⟨c, t, rfl, Text.isBlank_of_isPlain hc⟩
  last := Pattern.exists_concat_of_matches_image h

end AsIs

/-- Values of which the first is no keyword for every property are none together. -/
theorem cssWideKeyword?_joined (h : Leads v) (vs : List Text) : cssWideKeyword? (joined (v :: vs)) = none := by
  rw [joined, Part.join_cons]
  refine h.front _ ?_
  cases vs with
  | nil => exact Or.inl rfl
  | cons w vs => exact Or.inr ⟨_, rfl⟩

/-- Values that are declared as they are make declarations of these values. -/
theorem declarationsOf_of_asIs {es : List (String × Text)} (h : ∀ e ∈ es, AsIs e.2) :
    declarationsOf false es = es.map fun e => (e.1, ⟨e.2, false⟩) := by
  unfold declarationsOf
  rw [← filterMap_eq_map]
  refine filterMap_congr fun e he => ?_
  rw [(h e he).declarationOfText?]
  rfl

end Folding

end CssShorthand
