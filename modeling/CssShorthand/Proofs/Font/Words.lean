/-
  WHAT A FONT VALUE SETS IS READ AGAIN.

  A style, a variant, a weight, a size or a line height that is taken out of the value of a font is a
  component of it, and it is set as it is written.

    1.  The text of such a component is read as this component again (`IsFontWord.parse_write`): a number
        does not go on with a percent sign or with the letters of a unit.
    2.  A field is `normal`, or it was taken by its test (`FontReading.takes_of_ofValue`).  So each longhand
        gets a text that its own test takes (`FontReading.exists_spelled_of_ofValue`).
-/
import CssShorthand.Proofs.Component.Leading
import CssShorthand.Proofs.Component.Outermost
import CssShorthand.Proofs.Font.Reading

namespace CssShorthand

open List

variable {c : Char} {n r t u v : Text} {d : Component}

namespace Lexeme

/-- A name of letters and hyphens is read to its end. -/
theorem lexemes_of_isHyphened (h : Text.isHyphened n = true) : lexemes n = [.leaf (.ident n)] := by
  cases n with
  | nil => contradiction
  | cons c n =>
    simp only [Text.isHyphened, Bool.and_eq_true, Bool.or_eq_true, beq_iff_eq, all_eq_true] at h
    obtain ⟨hc, hn⟩ := h
    have hchars : ∀ d ∈ c :: n, Name.isChar d = true := by
      refine forall_mem_cons.mpr ⟨by simp [Name.isChar, Name.isStart, hc], fun d hd => ?_⟩
      rcases hn d hd with halpha | rfl
      · simp [Name.isChar, Name.isStart, halpha]
      · rfl
    have hident := lexemes_ident (z := []) hchars
      (startsIdentifier_of_isStart (by simp [Name.isStart, hc]) _) rfl (by simp)
    rwa [append_nil, lexemes_nil] at hident

end Lexeme

namespace Component

open Lexeme (lexemes)

/-- A numeral among the components of a text was read as a number. -/
theorem exists_take?_of_mem_parse (hd : d ∈ parse t) (hn : d.numeral? = some n) :
    ∃ w r, Number.take? w = some (n, r) := by
  suffices h : ∀ d ∈ parse t, ∀ n, d.numeral? = some n → ∃ w r, Number.take? w = some (n, r) from h d hd n hn
  refine forall_mem_parse (fun o cs n hn => by cases o <;> contradiction) (fun b n hn => by contradiction) ?_
  intro l hl hcomment d hd n hn
  refine exists_take?_of_mem_lexemes (t := Lexeme.normalize t) ?_ hn
  rw [← hd]
  exact mem_map_of_mem (mem_filter.mpr ⟨hl, by simp [hcomment]⟩)

namespace IsFontWord

variable (hd : IsFontWord d) (hread : ∀ n, d.numeral? = some n → ∃ w r, Number.take? w = some (n, r))

include hd hread

/-- A word of a font is well formed, if its numeral can be read. -/
theorem formed : Lexeme.Formed (.leaf d) := by
  have hnumeral : ∀ {n : Text}, d.numeral? = some n → Number.IsNumeral n := by
    intro n hn
    obtain ⟨w, r, hw⟩ := hread n hn
    exact ⟨(Number.take?_append hw).2, fun c hc => Number.isNumeralChar_of_take hw hc⟩
  cases hd with
  | @keyword n hn =>
    cases n with
    | nil => contradiction
    | cons c n =>
      simp only [Text.isHyphened, Bool.and_eq_true, Bool.or_eq_true, beq_iff_eq, all_eq_true] at hn
      refine ⟨fun hm => ?_, cons_ne_nil c n⟩
      rcases mem_cons.mp hm with rfl | hm
      · exact absurd hn.1 (by decide)
      · exact absurd (hn.2 _ hm) (by decide)
  | number n => exact ⟨not_mem_nil, hnumeral rfl⟩
  | percentage n => exact ⟨not_mem_nil, hnumeral rfl⟩
  | @dimension n u hu =>
    obtain ⟨halpha, -⟩ := Name.writeUnit_of_isLength hu
    exact ⟨fun hm => absurd (halpha _ hm) (by decide), hnumeral rfl⟩

/-- **The text of a word of a font is read as this word**, if its numeral can be read. -/
theorem parse_write : parse d.write = [d] := by
  refine parse_of_leaves (hd.formed hread).normal_write (forall_mem_singleton.mpr hd.flat_eq) ?_
  cases hd with
  | @keyword n hn =>
    rw [write, Name.writeIdentifier_of_isHyphened hn, Lexeme.lexemes_of_isHyphened hn]
    rfl
  | number n =>
    obtain ⟨w, r, hw⟩ := hread n rfl
    have hnumber := Lexeme.lexemes_number (Number.take?_again hw Number.ended_nil) rfl nofun
    rwa [append_nil, Lexeme.lexemes_nil] at hnumber
  | percentage n =>
    obtain ⟨w, r, hw⟩ := hread n rfl
    exact (Lexeme.lexemes_percentage hw []).trans (by rw [Lexeme.lexemes_nil]; rfl)
  | @dimension n u hu =>
    obtain ⟨w, r, hw⟩ := hread n rfl
    obtain ⟨halpha, hne, hunit⟩ := Name.writeUnit_of_isLength hu
    obtain ⟨c, y, rfl⟩ := exists_cons_of_ne_nil hne
    have hstart : ∀ e ∈ c :: y, Name.isStart e = true := fun e he => by simp [Name.isStart, halpha e he]
    have hdimension := Lexeme.lexemes_dimension (z := []) hw (fun e he => by simp [Name.isChar, hstart e he])
      (Lexeme.startsIdentifier_of_isStart (hstart c mem_cons_self) _)
      (by rw [append_nil]; exact Number.ended_of_isAlpha halpha) rfl
    rw [append_nil, Lexeme.lexemes_nil] at hdimension
    rw [write, hunit, hdimension]
    rfl

end IsFontWord

/-- A word of a font that is taken out of a text spells its own text. -/
theorem spelled_of_mem_parse (hmem : d ∈ parse t) (hd : IsFontWord d) : Spelled d.write d where
  parse_eq := hd.parse_write fun _ hn => exists_take?_of_mem_parse hmem hn
  write_eq := rfl

end Component

/-! ## What a font value sets

  Following a component from the text through the reader to the longhand that is set from it.
-/

namespace Cursor

variable {a b : Cursor} {p : Component → Bool} {o : Option Component}

/-- What is left after a component is taken, or is not, was there before. -/
theorem rest_suffix_of_consume (h : a.consume p = (o, b)) : b.rest <:+ a.rest := by
  have hskip : a.skip.rest <:+ a.rest := by
    rw [rest_skip]
    exact dropWhile_suffix _
  unfold consume at h
  split at h
  · split at h
    · obtain ⟨-, rfl⟩ := Prod.mk.inj h
      rw [rest_advance]
      exact (drop_suffix 1 _).trans hskip
    · obtain ⟨-, rfl⟩ := Prod.mk.inj h
      exact hskip
  · obtain ⟨-, rfl⟩ := Prod.mk.inj h
    exact hskip

/-- What is taken was still to be read, and is what was asked for. -/
theorem mem_of_consume (h : a.consume p = (some d, b)) : d ∈ a.rest ∧ p d = true := by
  obtain ⟨hrest, hp⟩ := rest_of_consume h
  rw [rest_skip] at hrest
  exact ⟨(dropWhile_suffix _).subset (hrest ▸ mem_cons_self), hp⟩

/-- A style, a variant or a weight that is taken stood in what was left. -/
theorem mem_of_consumeField {o : Option (FontField × Component)} (h : a.consumeField = (o, b)) :
    b.rest <:+ a.rest ∧ ∀ f d, o = some (f, d) → d ∈ a.rest ∧ f.accepts d = true := by
  -- The three kinds are asked for in turn; each asking leaves a suffix of what it was given.
  unfold consumeField at h
  split at h
  · rename_i d c hstyle
    obtain ⟨rfl, rfl⟩ := Prod.mk.inj h
    refine ⟨rest_suffix_of_consume hstyle, ?_⟩
    rintro f d ⟨⟩
    exact mem_of_consume hstyle
  · rename_i c₁ hstyle
    have hsub₁ := rest_suffix_of_consume hstyle
    split at h
    · rename_i d c hvariant
      obtain ⟨rfl, rfl⟩ := Prod.mk.inj h
      refine ⟨(rest_suffix_of_consume hvariant).trans hsub₁, ?_⟩
      rintro f d ⟨⟩
      exact (mem_of_consume hvariant).imp_left (hsub₁.subset ·)
    · rename_i c₂ hvariant
      have hsub₂ := (rest_suffix_of_consume hvariant).trans hsub₁
      split at h
      · rename_i d c hweight
        obtain ⟨rfl, rfl⟩ := Prod.mk.inj h
        refine ⟨(rest_suffix_of_consume hweight).trans hsub₂, ?_⟩
        rintro f d ⟨⟩
        exact (mem_of_consume hweight).imp_left (hsub₂.subset ·)
      · rename_i c₃ hweight
        obtain ⟨rfl, rfl⟩ := Prod.mk.inj h
        exact ⟨(rest_suffix_of_consume hweight).trans hsub₂, nofun⟩

end Cursor

/-- A text that is written for one of these components, which the test takes. -/
def Takes (cs : List Component) (test : Component → Bool) (u : Text) : Prop :=
  ∃ d ∈ cs, test d = true ∧ d.write = u

namespace Cursor

variable {a b : Cursor} {cs : List Component} {x y : FontValues}

/-- **Each field is as it was, or gets what its test takes.** -/
theorem takes_consumeFields (hcs : a.rest <:+ cs) (h : a.consumeFields x = (y, b)) :
    b.rest <:+ cs ∧ y.lineHeight = x.lineHeight ∧
      ∀ f : FontField, f.get y = f.get x ∨ Takes cs f.accepts (f.get y) := by
  fun_induction consumeFields x a with
  | case1 x a field d c hfield ih =>
    obtain ⟨hsub, hd⟩ := mem_of_consumeField hfield
    obtain ⟨hmem, haccepts⟩ := hd field d rfl
    obtain ⟨hb, hheight, hfields⟩ := ih (hsub.trans hcs) h
    refine ⟨hb, hheight.trans FontField.lineHeight_set, fun f => ?_⟩
    rcases hfields f with hf | hf
    · by_cases heq : f = field
      · exact Or.inr ⟨d, hcs.subset hmem, heq ▸ haccepts, by rw [hf, heq, FontField.get_set_self]⟩
      · exact Or.inl (hf.trans (FontField.get_set_of_ne heq))
    · exact Or.inr hf
  | case2 x a c hfield =>
    obtain ⟨rfl, rfl⟩ := Prod.mk.inj h
    exact ⟨(mem_of_consumeField hfield).1.trans hcs, rfl, fun f => Or.inl rfl⟩

end Cursor

namespace FontReading

variable {cs : List Component} {family : Option Text} {x y : FontValues} {a b : Cursor}

/-- The test that a longhand of `font` puts to a component, by its suffix.  The family has none. -/
def test? : String → Option (Component → Bool)
  | "-style" => some Component.isFontStyle
  | "-variant" => some Component.isFontVariant
  | "-weight" => some Component.isFontWeight
  | "-size" => some Component.isFontSize
  | "line-height" => some Component.isLineHeight
  | _ => none

/-- The line height is taken from the text or kept, and the other fields are not touched. -/
theorem takes_readLineHeight (hcs : a.rest <:+ cs) (h : readLineHeight v x a = .ok (y, b)) :
    y.size = x.size ∧ (∀ f : FontField, f.get y = f.get x) ∧
      (y.lineHeight = x.lineHeight ∨ Takes cs Component.isLineHeight y.lineHeight) := by
  unfold readLineHeight at h
  split at h
  · obtain ⟨rfl, rfl⟩ := Prod.mk.inj (Except.ok.inj h)
    exact ⟨rfl, fun f => rfl, Or.inl rfl⟩
  · rename_i slash c hslash
    split at h
    · rename_i d c' hheight
      obtain ⟨rfl, rfl⟩ := Prod.mk.inj (Except.ok.inj h)
      obtain ⟨hmem, htest⟩ := Cursor.mem_of_consume hheight
      refine ⟨rfl, fun f => by cases f <;> rfl, Or.inr ⟨d, ?_, htest, rfl⟩⟩
      exact hcs.subset ((Cursor.rest_suffix_of_consume hslash).subset hmem)
    · contradiction

/-- **What a font value sets**: `normal`, or what the test of the longhand takes. -/
theorem takes_of_ofValue (h : ofValue v = .ok (.parts y family)) :
    (∀ f : FontField, f.get y = normal ∨ Takes (Component.parse v) f.accepts (f.get y)) ∧
      Takes (Component.parse v) Component.isFontSize y.size ∧
      (y.lineHeight = normal ∨ Takes (Component.parse v) Component.isLineHeight y.lineHeight) := by
  unfold ofValue at h
  dsimp only at h
  split at h
  · cases h
  · generalize hfields : (Cursor.start (Component.parse v)).consumeFields .initial = r at h
    obtain ⟨x, a⟩ := r
    have hstart : (Cursor.start (Component.parse v)).rest <:+ Component.parse v := suffix_refl _
    obtain ⟨hrest, hheight, hx⟩ := Cursor.takes_consumeFields hstart hfields
    -- What was read comes from three places: the loop over the fields, the size, and the line height.
    unfold readSize at h
    split at h
    · contradiction
    · rename_i d c hsize
      obtain ⟨hmem, htest⟩ := Cursor.mem_of_consume hsize
      split at h
      · contradiction
      · rename_i z c' hline
        obtain ⟨rfl, -⟩ := FontReading.parts.inj (Except.ok.inj h)
        obtain ⟨hzsize, hz, hzheight⟩ :=
          takes_readLineHeight ((Cursor.rest_suffix_of_consume hsize).trans hrest) hline
        refine ⟨fun f => ?_, ⟨d, hrest.subset hmem, htest, hzsize.symm⟩, ?_⟩
        · have hget : f.get z = f.get x := (hz f).trans (by cases f <;> rfl)
          rw [hget]
          exact (hx f).imp_left fun hf => hf.trans (by cases f <;> rfl)
        · exact hzheight.imp_left fun hh => hh.trans hheight

/-- **A longhand that a font value sets gets a text that its own test takes.** -/
theorem exists_spelled_of_ofValue (h : ofValue v = .ok (.parts y family)) {suffix : String} {test : Component → Bool}
    {w : Text} (htest : test? suffix = some test) (hw : Expansion.fontPart? y family suffix = some w) :
    ∃ d, Component.Spelled w d ∧ Component.IsFontWord d ∧ test d = true := by
  obtain ⟨hfields, hsize, hheight⟩ := takes_of_ofValue h
  have htaken : ∀ {test : Component → Bool} {w : Text}, (∀ {d}, test d = true → Component.IsFontWord d) →
      Takes (Component.parse v) test w → ∃ d, Component.Spelled w d ∧ Component.IsFontWord d ∧ test d = true := by
    rintro test w hword ⟨d, hmem, hd, rfl⟩
    exact ⟨d, Component.spelled_of_mem_parse hmem (hword hd), hword hd, hd⟩
  have hnormal : ∀ {test : Component → Bool} {w : Text}, (∀ {d}, test d = true → Component.IsFontWord d) →
      test (.ident normal) = true → w = normal ∨ Takes (Component.parse v) test w →
      ∃ d, Component.Spelled w d ∧ Component.IsFontWord d ∧ test d = true := by
    rintro test w hword hnormal (rfl | hw)
    · refine ⟨.ident normal, ⟨?_, by decide⟩, hword hnormal, hnormal⟩
      exact Component.IsFontWord.parse_write (hword hnormal) nofun
    · exact htaken hword hw
  unfold test? at htest
  split at htest <;> cases htest <;> cases hw
  · exact hnormal Component.IsFontWord.of_isFontStyle (by decide) (hfields .style)
  · exact hnormal Component.IsFontWord.of_isFontVariant (by decide) (hfields .variant)
  · exact hnormal Component.IsFontWord.of_isFontWeight (by decide) (hfields .weight)
  · exact htaken Component.IsFontWord.of_isFontSize hsize
  · exact hnormal Component.IsFontWord.of_isLineHeight (by decide) hheight

end FontReading

end CssShorthand
