/-
  LENGTHS ARE READ AGAIN.

  A length may be found with digits of any script, and these are characters of names: a length need not be a
  single dimension.  It is written as it was found, or with a comment where a name or a unit ends and a number
  begins; either way the same is read of it again (`isRewritten_of_length`).

  The surprise in this module is that a pattern of the program counts digits of any script as digits, and
  the tokenizer does not: for it they are letters. So `1٢px` is found as a length and read as a number with
  a unit `٢px`, and `٢px` as a name. The lemmas follow the text character by character and show that in each
  case what is written is read back.
-/
import CssShorthand.Proofs.Component.Leading
import CssShorthand.Proofs.Slice.Joined

namespace CssShorthand

open List

variable {c : Char} {d f m n s t u x z : Text}

/-! ## Units

  A unit is a name that cannot be taken for an exponent, or is written so that it is not.
-/

/-- A text that is read as a unit, and is written as it stands. -/
structure IsUnit (u : Text) : Prop where
  isChar : ∀ c ∈ u, Name.isChar c = true
  head : ∃ c t, u = c :: t ∧ Name.isStart c = true
  ended : ∀ z, Number.Ended (u ++ z)
  writeUnit_eq : Name.writeUnit u = u

namespace IsUnit

/-- A character that starts a name is not one that does not. -/
theorem ne_of_isStart (hc : Name.isStart c = true) {e : Char} (he : Name.isStart e = false) : c ≠ e := by
  rintro rfl
  rw [hc] at he
  contradiction

/-- No name starts with an ASCII digit. -/
theorem isDigit_of_isStart (hc : Name.isStart c = true) : c.isDigit = false := by
  by_contra h
  rw [Number.isStart_of_isDigit (by simpa using h)] at hc
  contradiction

/-- What begins with no `e`, or goes on with a letter, is no exponent. -/
theorem of_cons (hc : Name.isStart c = true) (ht : ∀ d ∈ t, Name.isChar d = true)
    (he : (c ≠ 'e' ∧ c ≠ 'E') ∨ ∃ d u, t = d :: u ∧ Name.isStart d = true) : IsUnit (c :: t) where
  isChar := forall_mem_cons.mpr ⟨by simp [Name.isChar, hc], ht⟩
  head := ⟨c, t, rfl, hc⟩
  ended z := by
    by_cases hexp : c = 'e' ∨ c = 'E'
    · obtain ⟨d, u, rfl, hd⟩ := he.resolve_left fun h => hexp.elim h.1 h.2
      exact Number.ended_exponent hexp (isDigit_of_isStart hd) (ne_of_isStart hd rfl) (ne_of_isStart hd rfl) _
    · rw [not_or] at hexp
      exact Number.ended_cons (isDigit_of_isStart hc) (ne_of_isStart hc rfl) hexp.1 hexp.2 _
  -- by := A unit that starts with `e` is written with an escape if an exponent could be read; the condition
  -- on the second character excludes this.
  writeUnit_eq := by
    have hident := Name.writeIdentifier_of_isStart hc ht
    unfold Name.writeUnit
    split
    · rename_i a heq
      obtain ⟨rfl, rfl⟩ := cons.inj heq
      have hexp : c ≠ 'e' ∧ c ≠ 'E' := he.resolve_right <| by
        rintro ⟨d, u, hd, -⟩
        exact cons_ne_nil d u hd.symm
      rw [if_neg (not_or.mpr hexp), hident]
    · rename_i a rest heq
      obtain ⟨rfl, rfl⟩ := cons.inj heq
      have hexp : c ≠ 'e' ∧ c ≠ 'E' := he.resolve_right <| by
        rintro ⟨d, u, hd, hstart⟩
        exact ne_of_isStart hstart (e := '-') rfl (cons.inj hd).1.symm
      rw [if_neg (not_or.mpr hexp), hident]
    · exact hident

variable (h : IsUnit u)
include h

/-- A unit is not empty. -/
theorem ne_nil : u ≠ [] := by
  obtain ⟨c, t, rfl, -⟩ := h.head
  exact cons_ne_nil c t

theorem startsIdentifier_eq (z : Text) : Name.startsIdentifier (u ++ z) = true := by
  obtain ⟨c, t, rfl, hc⟩ := h.head
  exact Lexeme.startsIdentifier_of_isStart hc _

/-- A unit needs no escape when it is written. -/
theorem writeIdentifier_eq : Name.writeIdentifier u = u := by
  obtain ⟨c, t, rfl, hc⟩ := h.head
  exact Name.writeIdentifier_of_isStart hc fun d hd => h.isChar d (mem_cons_of_mem _ hd)

end IsUnit

namespace Pattern

/-- The form of a keyword of letters that is found in a value is made of characters that begin names. -/
theorem isStart_of_matches_keyword {ks : List String}
    (hletters : ∀ k ∈ ks, (k.toList.all fun f => 'a' ≤ Text.foldCase f && Text.foldCase f ≤ 'z') = true)
    (h : Matches (keyword ks) u) : ∀ c ∈ u, Name.isStart c = true :=
  h.forall_mem (uses_oneOf fun p hp => by
    obtain ⟨k, hk, rfl⟩ := mem_map.mp hp
    intro f hf c hfc
    exact Text.isStart_of_letter (hfc ▸ all_eq_true.mp (hletters k hk) f hf))

/-- The unit of a length is a unit, also with letters that only stand for cases. -/
theorem isUnit_of_matches (h : Matches (keyword lengthUnits) u) : IsUnit u := by
  have hstart := isStart_of_matches_keyword (by decide) h
  obtain ⟨k, hk, hku⟩ := exists_of_matches_keyword h
  match u, hstart, hku with
  | [], _, hku =>
    have hne : ∀ k ∈ lengthUnits, (Text.ofString k).map Text.foldCase ≠ [] := by decide
    exact absurd hku (hne k hk)
  | [c], hstart, hku =>
    -- No unit is an `e` alone.
    have hexp : ∀ k ∈ lengthUnits, (Text.ofString k).map Text.foldCase ≠ ['e'] := by decide
    refine .of_cons (hstart c mem_cons_self) nofun (Or.inl ⟨?_, ?_⟩)
    · rintro rfl
      exact hexp k hk hku
    · rintro rfl
      exact hexp k hk hku
  | c :: d :: u, hstart, _ =>
    have hd := hstart d (by simp)
    refine .of_cons (hstart c mem_cons_self) (fun e he => ?_) (Or.inr ⟨d, u, rfl, hd⟩)
    simp [Name.isChar, hstart e (mem_cons_of_mem _ he)]

end Pattern

/-! ## Digits of any script

  A run of digits is a number followed by a name, either of which may be missing.
-/

/-- A digit of another script starts a name: what the pattern calls a digit need not be one for the tokenizer.
    -/
theorem Text.isStart_of_isDigit (h : Text.isDigit c = true) (hc : c.isDigit = false) :
    0x7F < c.toNat ∧ Name.isStart c = true := by
  unfold Text.isDigit at h
  split at h
  · rw [hc] at h
    contradiction
  · have hlarge : 0x7F < c.toNat := by omega
    exact ⟨hlarge, by simp [Name.isStart, hlarge]⟩

/-- Every digit may stand in a name. -/
theorem Text.isChar_of_isDigit (h : Text.isDigit c = true) : Name.isChar c = true := by
  cases hc : c.isDigit with
  | true => simp [Name.isChar, hc]
  | false => simp [Name.isChar, (Text.isStart_of_isDigit h hc).2]

/-- The text is a unit, or nothing. -/
def IsUnitOrNil (m : Text) : Prop := m = [] ∨ IsUnit m

/-- The characters of a unit may stand in a name. -/
theorem IsUnitOrNil.isChar (h : IsUnitOrNil m) : ∀ c ∈ m, Name.isChar c = true := by
  rcases h with rfl | h
  · nofun
  · exact h.isChar

/-- **Digits with a unit or nothing behind them** are digits of ASCII, and then a unit or nothing: the first
    digit of another script begins a name. -/
theorem exists_digits (hu : ∀ c ∈ u, Text.isDigit c = true) (hx : IsUnitOrNil x) :
    ∃ d m, u ++ x = d ++ m ∧ (∀ c ∈ d, c.isDigit = true) ∧ IsUnitOrNil m ∧ (x ≠ [] → m ≠ []) := by
  refine ⟨u.takeWhile Char.isDigit, u.dropWhile Char.isDigit ++ x, ?_, fun c => mem_takeWhile_imp, ?_,
    fun hne h => hne (append_eq_nil_iff.mp h).2⟩
  · rw [← append_assoc, takeWhile_append_dropWhile]
  · cases hdrop : u.dropWhile Char.isDigit with
    | nil => exact hx
    | cons c t =>
      have hmem : ∀ e ∈ c :: t, Text.isDigit e = true := fun e he =>
        hu e ((dropWhile_suffix _).subset (hdrop ▸ he))
      have hc : c.isDigit = false := by
        have := head?_dropWhile_not Char.isDigit u
        rw [hdrop] at this
        simpa using this
      obtain ⟨hlarge, hstart⟩ := Text.isStart_of_isDigit (hmem c mem_cons_self) hc
      refine Or.inr (.of_cons hstart (fun e he => ?_) (Or.inl ⟨?_, ?_⟩))
      · exact (mem_append.mp he).elim (fun he => Text.isChar_of_isDigit (hmem e (mem_cons_of_mem _ he)))
          (hx.isChar e)
      · rintro rfl
        exact absurd hlarge (by decide)
      · rintro rfl
        exact absurd hlarge (by decide)

/-! ## In front of a point

  A point ends a name, and goes on with a number if a digit follows.
-/

open Lexeme (lexemes startsName)
open Component (between parse writeList)
open Number (IsSign)

/-- What stands behind the first components of a length: nothing, a point that begins no number if digits
    stand before it, or a comment. -/
structure Follows (m z : Text) : Prop where
  head : ∀ c ∈ z.head?, c = '.' ∨ c = '/'
  point : m = [] → ∀ t, z = '.' :: t → ∀ c ∈ t.head?, c.isDigit = false

namespace Follows

variable (h : Follows m z)
include h

/-- No name starts behind the number. -/
theorem startsName_eq : startsName z = false := by
  cases z with
  | nil => rfl
  | cons c z => rcases h.head c rfl with rfl | rfl <;> rfl

theorem startsIdentifier_eq : Name.startsIdentifier z = false := by
  cases z with
  | nil => rfl
  | cons c z => rcases h.head c rfl with rfl | rfl <;> rfl

/-- What is behind the number is neither a point nor a slash. -/
theorem head_ne {e : Char} (he : e ≠ '.' ∧ e ≠ '/') : ∀ c ∈ z.head?, c ≠ e := by
  rintro c hc rfl
  exact (h.head c hc).elim he.1 he.2

end Follows

/-- The components that the first part of a length is read as: that of the text `x`, which ends with the
    unit `m`. -/
structure ReadFirst (x m : Text) (cs : List Component) : Prop where
  writeList_eq : writeList cs = x
  isLeaf : ∀ c ∈ cs, c.IsLeaf
  lexemes_append : ∀ z, Follows m z → lexemes (x ++ z) = cs.map .leaf ++ lexemes z
  before_point : cs.getLast?.elim [] (between · (.literal ['.'])) = []
  before_number : m ≠ [] → ∀ n u, cs.getLast?.elim [] (between · (.dimension n u)) = ['/', '*', '*', '/']

/-- Digits of ASCII alone are a number. -/
theorem readFirst_number (hs : IsSign s) (hd : ∀ c ∈ d, c.isDigit = true) (hne : d ≠ []) :
    ReadFirst (s ++ d) [] [.number (s ++ d)] where
  writeList_eq := by simp [writeList, Component.write]
  isLeaf := forall_mem_singleton.mpr rfl
  lexemes_append z hz := by
    have hnumber : Number.take? (s ++ d ++ z) = some (s ++ d, z) := by
      have hdigits := Number.take?_digits hs hd (Or.inl ⟨rfl, hne⟩)
      rw [append_nil] at hdigits
      cases z with
      | nil => exact Number.take?_again hdigits Number.ended_nil
      | cons c z =>
        rcases hz.head c rfl with rfl | rfl
        · exact Number.take?_point hs hd hne (hz.point rfl z rfl)
        · exact Number.take?_again hdigits (Number.ended_cons rfl (by decide) (by decide) (by decide) z)
    refine Lexeme.lexemes_number hnumber hz.startsIdentifier_eq fun h => ?_
    exact hz.head_ne (e := '%') (by decide) _ h rfl
  before_point := rfl
  before_number h := absurd rfl h

/-- Digits of ASCII with a unit behind them are a dimension. -/
theorem readFirst_dimension (hs : IsSign s) (hd : ∀ c ∈ d, c.isDigit = true) (hne : d ≠ []) (hm : IsUnit m) :
    ReadFirst (s ++ d ++ m) m [.dimension (s ++ d) m] where
  writeList_eq := by simp [writeList, Component.write, hm.writeUnit_eq]
  isLeaf := forall_mem_singleton.mpr rfl
  lexemes_append z hz := by
    have hnumber := Number.take?_digits hs hd (Or.inl ⟨rfl, hne⟩)
    rw [append_nil] at hnumber
    rw [append_assoc]
    exact Lexeme.lexemes_dimension hnumber hm.isChar (hm.startsIdentifier_eq z) (hm.ended z) hz.startsName_eq
  before_point := rfl
  before_number _ _ _ := rfl

/-- Without digits of ASCII a unit is a name, and a minus sign belongs to it. -/
theorem exists_readFirst_name (hs : IsSign s) (hm : IsUnit m) : ∃ cs, ReadFirst (s ++ m) m cs := by
  obtain ⟨c, t, rfl, hc⟩ := hm.head
  have hchars := hm.isChar
  have hident : ∀ z, Follows (c :: t) z → lexemes (c :: t ++ z) = .leaf (.ident (c :: t)) :: lexemes z :=
    fun z hz => Lexeme.lexemes_ident hchars (hm.startsIdentifier_eq z) hz.startsName_eq fun e he =>
      ⟨hz.head_ne (by decide) e he, hz.head_ne (by decide) e he, hz.head_ne (by decide) e he⟩
  -- Without a sign a name is read; a plus is a component of its own; a hyphen belongs to the name.
  rcases hs with rfl | rfl | rfl
  · exact ⟨[.ident (c :: t)], hm.writeIdentifier_eq, forall_mem_singleton.mpr rfl, hident, rfl, fun _ _ _ => rfl⟩
  · refine ⟨[.literal ['+'], .ident (c :: t)], ?_, ?_, fun z hz => ?_, rfl, fun _ _ _ => rfl⟩
    · show ['+'] ++ [] ++ Name.writeIdentifier (c :: t) = _
      rw [hm.writeIdentifier_eq]
      rfl
    · exact forall_mem_cons.mpr ⟨rfl, forall_mem_singleton.mpr rfl⟩
    · have hnone : Number.take? ('+' :: (c :: t ++ z)) = none := by
        refine Number.take?_eq_none (t := ['+']) (Or.inr (Or.inl rfl)) (fun e he => ?_) fun u hu => ?_
        · obtain rfl : c = e := Option.some.inj he
          exact ⟨IsUnit.isDigit_of_isStart hc, IsUnit.ne_of_isStart hc rfl, IsUnit.ne_of_isStart hc rfl⟩
        · exact absurd (cons.inj hu).1 (IsUnit.ne_of_isStart hc rfl)
      show lexemes ('+' :: (c :: t ++ z)) = _
      rw [Lexeme.lexemes_delimiter (by simp) hnone rfl, hident z hz]
      rfl
  · refine ⟨[.ident ('-' :: c :: t)], ?_, forall_mem_singleton.mpr rfl, fun z hz => ?_, rfl, fun _ _ _ => rfl⟩
    · have hhyphen : c ≠ '-' := IsUnit.ne_of_isStart hc rfl
      have hwrite := Name.write_of_isChar fun e he => hchars e (mem_cons_of_mem _ he)
      show Name.writeIdentifier ('-' :: c :: t) = _
      simp [Name.writeIdentifier, Name.writeStart, hc, hwrite]
    · refine Lexeme.lexemes_ident (forall_mem_cons.mpr ⟨rfl, hchars⟩) ?_ hz.startsName_eq fun e he =>
        ⟨hz.head_ne (by decide) e he, hz.head_ne (by decide) e he, hz.head_ne (by decide) e he⟩
      have hback : c ≠ '\\' := IsUnit.ne_of_isStart hc rfl
      simp [Name.startsIdentifier, hc]

/-- A sign alone is a delimiter. -/
theorem exists_readFirst_sign (hs : IsSign s) : ∃ cs, ReadFirst s [] cs := by
  have hsign : ∀ c, c = '+' ∨ c = '-' → ReadFirst [c] [] [.literal [c]] := by
    intro c hc
    refine ⟨rfl, forall_mem_singleton.mpr rfl, fun z hz => ?_, ?_, fun h => absurd rfl h⟩
    · have hnone : Number.take? ([c] ++ z) = none := by
        refine Number.take?_eq_none (hc.elim (fun h => ?_) fun h => ?_) (fun e he => ?_) (hz.point rfl)
        · exact Or.inr (Or.inl (h ▸ rfl))
        · exact Or.inr (Or.inr (h ▸ rfl))
        · rcases hz.head e he with rfl | rfl <;> decide
      refine Lexeme.lexemes_delimiter (by tauto) hnone ?_
      rcases hc with rfl | rfl
      · rfl
      · cases z with
        | nil => rfl
        | cons e z => rcases hz.head e rfl with rfl | rfl <;> rfl
    · rcases hc with rfl | rfl <;> rfl
  rcases hs with rfl | rfl | rfl
  · exact ⟨[], rfl, nofun, fun z _ => rfl, rfl, fun h => absurd rfl h⟩
  · exact ⟨_, hsign '+' (Or.inl rfl)⟩
  · exact ⟨_, hsign '-' (Or.inr rfl)⟩

/-- **The first part of a length is read as components that are written as it stands.** -/
theorem exists_readFirst (hs : IsSign s) (hd : ∀ c ∈ d, c.isDigit = true) (hm : IsUnitOrNil m) :
    ∃ cs, ReadFirst (s ++ d ++ m) m cs := by
  by_cases hne : d = []
  · -- Without digits of ASCII a sign may be read for itself, or as the beginning of the unit.
    subst hne
    rw [append_nil]
    rcases hm with rfl | hm
    · rw [append_nil]
      exact exists_readFirst_sign hs
    · exact exists_readFirst_name hs hm
  · rcases hm with rfl | hm
    · rw [append_nil]
      exact ⟨_, readFirst_number hs hd hne⟩
    · exact ⟨_, readFirst_dimension hs hd hne hm⟩

/-! ## The last component

  The unit at the end is read as the unit of a number, as a name, or as the name behind a point.
-/

/-- A name at the end of a text. -/
theorem IsUnit.lexemes_eq (h : IsUnit m) : lexemes m = [.leaf (.ident m)] := by
  obtain ⟨c, t, rfl, -⟩ := h.head
  have hident := Lexeme.lexemes_ident (z := []) h.isChar (h.startsIdentifier_eq []) rfl nofun
  rwa [append_nil, Lexeme.lexemes_nil] at hident

/-- A numeral and its unit at the end of a text. -/
theorem IsUnit.lexemes_dimension (h : IsUnit m) (hn : Number.take? n = some (n, [])) :
    lexemes (n ++ m) = [.leaf (.dimension n m)] := by
  have hdimension := Lexeme.lexemes_dimension (z := []) hn h.isChar (h.startsIdentifier_eq []) (h.ended []) rfl
  rwa [append_nil, Lexeme.lexemes_nil] at hdimension

/-- A point before a name is a delimiter. -/
theorem IsUnit.lexemes_point (h : IsUnit m) :
    lexemes ('.' :: m) = [.leaf (.literal ['.']), .leaf (.ident m)] := by
  have hnone : Number.take? ('.' :: m) = none := by
    obtain ⟨c, t, rfl, hc⟩ := h.head
    refine Number.take?_eq_none (t := []) (Or.inl rfl) (by simp) fun u hu e he => ?_
    obtain rfl := (cons.inj hu).2
    exact Option.some.inj he ▸ isDigit_of_isStart hc
  rw [Lexeme.lexemes_delimiter (by simp) hnone rfl, h.lexemes_eq]

/-! ## Lengths

  All combinations of a sign, digits, a point, digits and a unit.
-/

/-- The text is written as it stands, or it is several components, and these are written with comments
    between, and read again of what is written. -/
def IsRewritten (u : Text) : Prop :=
  writeList (parse u) = u ∨ 2 ≤ (parse u).length ∧ parse (writeList (parse u)) = parse u ∧
    ∀ c ∈ writeList (parse u), c ∈ u ∨ c = '/' ∨ c = '*'

/-- A part without a point is written as it stands. -/
theorem isRewritten_whole (hs : IsSign s) (hd : ∀ c ∈ d, c.isDigit = true) (hm : IsUnitOrNil m)
    (hnormal : Lexeme.Normal (s ++ d ++ m)) : IsRewritten (s ++ d ++ m) := by
  obtain ⟨cs, hcs⟩ := exists_readFirst hs hd hm
  have hlexemes := hcs.lexemes_append [] ⟨nofun, nofun⟩
  rw [append_nil, Lexeme.lexemes_nil, append_nil] at hlexemes
  rw [IsRewritten, Component.parse_of_leaves hnormal hcs.isLeaf hlexemes]
  exact Or.inl hcs.writeList_eq

/-- A point before a name is a delimiter, and stands next to what is before it. -/
theorem isRewritten_point {cs : List Component} (hcs : ReadFirst x m cs) (hu : IsUnit u)
    (hnormal : Lexeme.Normal (x ++ '.' :: u)) : IsRewritten (x ++ '.' :: u) := by
  have hfollows : Follows m ('.' :: u) := by
    refine ⟨by simp, fun _ t ht c hc => ?_⟩
    obtain ⟨e, v, rfl, he⟩ := hu.head
    obtain rfl := (cons.inj ht).2
    exact Option.some.inj hc ▸ IsUnit.isDigit_of_isStart he
  have hparse : parse (x ++ '.' :: u) = cs ++ [.literal ['.'], .ident u] := by
    refine Component.parse_of_leaves hnormal (fun c hc => ?_) ((hcs.lexemes_append _ hfollows).trans ?_)
    · rcases mem_append.mp hc with hc | hc
      · exact hcs.isLeaf c hc
      · simp only [mem_cons, not_mem_nil, or_false] at hc
        rcases hc with rfl | rfl <;> rfl
    · rw [hu.lexemes_point, map_append]
      rfl
  have hend : writeList [.literal ['.'], .ident u] = '.' :: u := by
    show ['.'] ++ [] ++ Name.writeIdentifier u = _
    rw [hu.writeIdentifier_eq]
    rfl
  rw [IsRewritten, hparse, Component.writeList_append, hcs.before_point, hcs.writeList_eq, hend]
  exact Or.inl rfl

/-- A point between digits belongs to the number that these are. -/
theorem isRewritten_between (hs : IsSign s) (hd : ∀ c ∈ d, c.isDigit = true) (hf : ∀ c ∈ f, c.isDigit = true)
    (hne : f ≠ []) (hu : IsUnit u) (hnormal : Lexeme.Normal (s ++ d ++ '.' :: f ++ u)) :
    IsRewritten (s ++ d ++ '.' :: f ++ u) := by
  have hnumber := Number.take?_digits hs hd (Or.inr ⟨f, rfl, hne, hf⟩)
  have hparse : parse (s ++ d ++ '.' :: f ++ u) = [.dimension (s ++ d ++ '.' :: f) u] :=
    Component.parse_of_leaves hnormal (forall_mem_singleton.mpr rfl) (hu.lexemes_dimension hnumber)
  rw [IsRewritten, hparse]
  exact Or.inl (congrArg (s ++ d ++ '.' :: f ++ ·) hu.writeUnit_eq)

/-- **A point between a name and digits begins a number of its own**, and a comment is written before it. -/
theorem isRewritten_behind {cs : List Component} (hcs : ReadFirst x m cs) (hm : m ≠ [])
    (hf : ∀ c ∈ f, c.isDigit = true) (hne : f ≠ []) (hu : IsUnit u)
    (hnormal : Lexeme.Normal (x ++ '.' :: (f ++ u))) : IsRewritten (x ++ '.' :: (f ++ u)) := by
  have hnumber : Number.take? ('.' :: f) = some ('.' :: f, []) :=
    Number.take?_digits (t := []) (d := []) (Or.inl rfl) nofun (Or.inr ⟨f, rfl, hne, hf⟩)
  have hlast : lexemes ('.' :: (f ++ u)) = [.leaf (.dimension ('.' :: f) u)] := hu.lexemes_dimension hnumber
  have hleaf : ∀ c ∈ cs ++ [.dimension ('.' :: f) u], c.IsLeaf := fun c hc =>
    (mem_append.mp hc).elim (hcs.isLeaf c) fun hc => by rw [mem_singleton.mp hc]; rfl
  -- The same is read with and without the comment.
  have hparse : ∀ z, Lexeme.Normal (x ++ z) → Follows m z → lexemes z = [.leaf (.dimension ('.' :: f) u)] →
      parse (x ++ z) = cs ++ [.dimension ('.' :: f) u] := by
    intro z hz hfollows hlexemes
    refine Component.parse_of_leaves hz hleaf ((hcs.lexemes_append z hfollows).trans ?_)
    rw [hlexemes, map_append]
    rfl
  have hread := hparse ('.' :: (f ++ u)) hnormal ⟨by simp, fun h => absurd h hm⟩ hlast
  have hwrite : writeList (cs ++ [.dimension ('.' :: f) u]) =
      x ++ (['/', '*', '*', '/'] ++ '.' :: (f ++ u)) := by
    have hend : writeList [.dimension ('.' :: f) u] = '.' :: (f ++ u) :=
      congrArg ('.' :: f ++ ·) hu.writeUnit_eq
    rw [Component.writeList_append, hcs.before_number hm, hcs.writeList_eq, hend]
  refine Or.inr ⟨?_, ?_, fun c hc => ?_⟩
  · have hcs : cs ≠ [] := by
      rintro rfl
      exact absurd (hcs.before_number hm [] []) (by simp)
    have hpos := length_pos_iff.mpr hcs
    rw [hread, length_append, length_singleton]
    omega
  · rw [hread, hwrite]
    refine hparse _ ?_ ⟨by simp, fun h => absurd h hm⟩ (by rw [Lexeme.lexemes_between, hlast])
    rw [Lexeme.normal_append] at hnormal ⊢
    exact hnormal.imp_right fun h => Lexeme.normal_append.mpr ⟨by decide, h⟩
  · rw [hread, hwrite] at hc
    simp only [mem_append, mem_cons, not_mem_nil, or_false] at hc ⊢
    tauto

/-- **A part with a point is written as it stands**, or with a comment before the point. -/
theorem isRewritten_decimal (hs : IsSign s) (hd : ∀ c ∈ d, c.isDigit = true) (hm : IsUnitOrNil m)
    (hf : ∀ c ∈ f, c.isDigit = true) (hu : IsUnit u) (hnormal : Lexeme.Normal (s ++ d ++ m ++ '.' :: (f ++ u))) :
    IsRewritten (s ++ d ++ m ++ '.' :: (f ++ u)) := by
  obtain ⟨cs, hcs⟩ := exists_readFirst hs hd hm
  by_cases hne : f = []
  · subst hne
    exact isRewritten_point hcs hu hnormal
  by_cases hnil : m = []
  · subst hnil
    have htext : s ++ d ++ [] ++ '.' :: (f ++ u) = s ++ d ++ '.' :: f ++ u := by simp
    rw [htext] at hnormal ⊢
    exact isRewritten_between hs hd hf hne hu hnormal
  · exact isRewritten_behind hcs hnil hf hne hu hnormal

/-- The parts of a number as they are found. -/
theorem Pattern.exists_of_matches_number (h : Pattern.Matches .number u) :
    ∃ s w, IsSign s ∧ (∀ c ∈ w, Text.isDigit c = true) ∧ ((u = s ++ w ∧ w ≠ []) ∨
      ∃ f, u = s ++ w ++ '.' :: f ∧ ∀ c ∈ f, Text.isDigit c = true) := by
  have hdigit : Uses (fun c => Text.isDigit c = true) digit := fun c hc => hc
  cases h with
  | @seq _ _ s v hs hv =>
    have hsign : IsSign s := by
      cases hs with
      | left hs =>
        cases hs with
        | char hc =>
          simp only [Bool.or_eq_true, beq_iff_eq] at hc
          exact Or.inr (hc.imp (by rintro rfl; rfl) (by rintro rfl; rfl))
      | right hs =>
        cases hs
        exact Or.inl rfl
    -- Digits and a point, with or without more digits, or digits alone.
    cases hv with
    | left hv =>
      simp only [matches_all_cons_iff, matches_all_nil_iff] at hv
      obtain ⟨w, _, rfl, hw, _, _, rfl, hp, f, _, rfl, hf, rfl⟩ := hv
      obtain rfl := eq_of_matches_just hp
      exact ⟨s, w, hsign, hw.forall_mem hdigit, Or.inr ⟨f, by simp, hf.forall_mem ⟨hdigit, hdigit⟩⟩⟩
    | right hv =>
      obtain ⟨c, hc, -⟩ := exists_isDigit_of_matches_digits hv
      exact ⟨s, v, hsign, hv.forall_mem ⟨hdigit, hdigit⟩, Or.inl ⟨rfl, ne_nil_of_mem hc⟩⟩

/-- **A length is read again of what is written**: it is written as it stands, or it is several components. -/
theorem isRewritten_of_length (h : Pattern.Matches .length u) : IsRewritten u := by
  have hnormal := Lexeme.normal_of_plain (h.forall_mem Pattern.usesPlain_length)
  cases h with
  | left h =>
    cases h with
    | @seq _ _ v x hv hx =>
      have hunit := Pattern.isUnit_of_matches hx
      obtain ⟨s, w, hs, hw, ⟨rfl, -⟩ | ⟨f, rfl, hf⟩⟩ := Pattern.exists_of_matches_number hv
      · obtain ⟨d, m, hdm, hd, hm, -⟩ := exists_digits hw (Or.inr hunit)
        rw [append_assoc, hdm, ← append_assoc] at hnormal ⊢
        exact isRewritten_whole hs hd hm hnormal
      · -- From the first digit that is not of ASCII on, what is found as digits is read as a name.
        obtain ⟨d, m, hdm, hd, hm, -⟩ := exists_digits hw (Or.inl rfl)
        obtain ⟨e, y, hey, he, hy, hne⟩ := exists_digits hf (Or.inr hunit)
        have htext : s ++ w ++ '.' :: f ++ x = s ++ d ++ m ++ '.' :: (e ++ y) := by
          rw [append_nil] at hdm
          rw [hdm, ← hey]
          simp
        rw [htext] at hnormal ⊢
        exact isRewritten_decimal hs hd hm he (hy.resolve_left (hne hunit.ne_nil)) hnormal
  | right h =>
    obtain rfl := Pattern.eq_of_matches_just h
    exact isRewritten_whole (s := []) (d := ['0']) (m := []) (Or.inl rfl) (forall_mem_singleton.mpr rfl)
      (Or.inl rfl) hnormal

end CssShorthand
