/-
  PLAIN TEXTS.

  A plain text is made of letters, digits, signs, points, and characters beyond ASCII that are no
  blanks: the keywords and lengths that slicing finds are plain.  A plain text is scanned into lexemes
  that hold nothing and separate nothing (`read_of_plain`), so that it is a single part, written as
  something that no cleaning takes away (`split_of_plain`).

  The use of plain texts is that nothing has to be computed about them: which lexemes such a text is cut
  into does not matter, only that all of them are leaves. So keywords of every table are read as one part,
  and so is a number with any unit, by one lemma.
-/
import CssShorthand.Component.Split
import CssShorthand.Proofs.Component.Flat
import CssShorthand.Proofs.Declaration.Cleaning

namespace CssShorthand

open Cleaning (StartsKept)

namespace Text

/-- A letter, digit, sign or point, or anything beyond ASCII that is no blank. -/
def isPlain (c : Char) : Bool :=
  c.isAlphanum || c == '+' || c == '-' || c == '.' || (0x7F < c.toNat && !isBlank c)

/-- A plain character is none that is not. -/
theorem ne_of_isPlain {c d : Char} (hc : isPlain c = true) (hd : isPlain d = false) : c ≠ d := by
  rintro rfl
  rw [hc] at hd
  exact Bool.noConfusion hd

/-- A plain character is no blank. -/
theorem isBlank_of_isPlain {c : Char} (h : isPlain c = true) : isBlank c = false := by
  simp only [isPlain, Bool.or_eq_true, beq_iff_eq, Bool.and_eq_true, Bool.not_eq_true'] at h
  rcases h with (((h | rfl) | rfl) | rfl) | h
  · simp only [Char.isAlphanum, Char.isAlpha, Char.isUpper, Char.isLower, Char.isDigit,
      Bool.or_eq_true, Bool.and_eq_true, decide_eq_true_eq, UInt32.le_iff_toNat_le] at h
    simp only [isBlank, Char.toNat]
    have : c.val.toNat < 128 := by
      rcases h with (h | h) | h <;> exact Nat.lt_of_le_of_lt h.2 (by decide)
    rw [if_pos this]
    have h0 : '0'.val.toNat = 48 := rfl
    have hA : 'A'.val.toNat = 65 := rfl
    have ha : 'a'.val.toNat = 97 := rfl
    simp only [Bool.or_eq_false_iff, Bool.and_eq_false_iff, decide_eq_false_iff_not]
    omega
  · rfl
  · rfl
  · rfl
  · exact h.2

/-- A plain character begins a text that no cleaning takes away. -/
theorem startsKept_of_isPlain {c : Char} (h : isPlain c = true) (t : Text) : StartsKept (c :: t) :=
  ⟨c, t, rfl, isBlank_of_isPlain h, ne_of_isPlain h rfl, ne_of_isPlain h rfl⟩

/-- A plain text is clean. -/
theorem clean_of_plain {t : Text} (ht : ∀ c ∈ t, isPlain c = true) :
    Cleaning.clean t = (t, false) := by
  rw [Cleaning.clean_eq_trim, trim_of_forall fun c hc => isBlank_of_isPlain (ht c hc)]
  · exact fun h => ne_of_isPlain (ht _ h) (by decide : isPlain '!' = false) rfl
  · exact fun h => ne_of_isPlain (ht _ h) (by decide : isPlain ';' = false) rfl

/-- So does a backslash. -/
theorem startsKept_backslash (t : Text) : StartsKept ('\\' :: t) :=
  ⟨'\\', t, rfl, rfl, by decide, by decide⟩

end Text

namespace Name

/-- An identifier is written with its first character first, or with a backslash. -/
theorem startsKept_writeIdentifier {c : Char} (hc : Text.isPlain c = true) (t : Text) :
    StartsKept (writeIdentifier (c :: t)) := by
  have hstart : StartsKept (writeStart c) := by
    unfold writeStart
    split
    · exact Text.startsKept_of_isPlain hc []
    · split
      · exact Text.startsKept_backslash _
      · unfold escaped
        split
        · exact Text.startsKept_backslash _
        · split
          · exact Text.startsKept_backslash _
          · split <;> exact Text.startsKept_backslash _
  unfold writeIdentifier
  split
  · contradiction
  · exact Text.startsKept_backslash _
  · exact Text.startsKept_of_isPlain (c := '-') rfl _
  · exact Text.startsKept_of_isPlain (c := '-') rfl _
  · rename_i heq
    obtain ⟨rfl, rfl⟩ := heq
    exact hstart.append _

variable {t : Text}

/-- What is left behind characters of a class is part of the text. -/
theorem mem_of_mem_takeAtMost {p : Char → Bool} {n : Nat} {x : Char}
    (h : x ∈ (takeAtMost p n t).2) : x ∈ t := by
  induction n generalizing t with
  | zero => exact h
  | succ n ih =>
    cases t with
    | nil => simp [takeAtMost] at h
    | cons c t =>
      simp only [takeAtMost] at h
      split at h
      · exact List.mem_cons_of_mem _ (ih h)
      · exact h

/-- A name in a plain text ends before its rest, without an escape. -/
theorem mem_of_mem_take (ht : ∀ x ∈ t, Text.isPlain x = true) :
    ∀ x ∈ (take t).2, x ∈ t := by
  fun_induction take t with
  | case1 => simp
  | case2 c t _ _ ih =>
    exact fun x hx => List.mem_cons_of_mem _ (ih (fun y hy => ht y (List.mem_cons_of_mem _ hy)) x hx)
  | case3 c t _ hc _ _ _ =>
    exact absurd hc.1 (Text.ne_of_isPlain (ht c (by simp)) rfl)
  | case4 => exact fun x hx => hx

/-- What starts an identifier in a plain text is the first character of its name. -/
theorem take_cons_of_starts {c : Char} (hc : Text.isPlain c = true)
    (h : startsIdentifier (c :: t) = true) : take (c :: t) = (c :: (take t).1, (take t).2) := by
  have hchar : isChar c = true := by
    unfold startsIdentifier at h
    split at h
    · rename_i heq
      obtain ⟨rfl, -⟩ := heq
      rfl
    · rename_i heq
      obtain ⟨rfl, -⟩ := heq
      rfl
    · rename_i heq
      obtain ⟨rfl, -⟩ := heq
      exact absurd rfl (Text.ne_of_isPlain hc (by decide : Text.isPlain '\\' = false))
    · rename_i heq
      obtain ⟨rfl, -⟩ := heq
      simp [isChar, h]
    · contradiction
  rw [take]
  simp [hchar]

end Name

/-- The reader of ranges leaves part of what it was given. -/
theorem UnicodeRange.mem_of_mem_take {t : Text} {x : Char} (h : x ∈ (UnicodeRange.take t).2) :
    x ∈ t := by
  unfold UnicodeRange.take at h
  dsimp only at h
  split at h
  · split at h
    · rename_i c r hr
      split at h
      · have hmem : x ∈ '-' :: c :: r := List.mem_cons_of_mem _ (Name.mem_of_mem_takeAtMost h)
        exact Name.mem_of_mem_takeAtMost (hr ▸ hmem)
      · exact Name.mem_of_mem_takeAtMost h
    · exact Name.mem_of_mem_takeAtMost h
  · exact Name.mem_of_mem_takeAtMost (Name.mem_of_mem_takeAtMost h)

namespace Lexeme

variable {c : Char} {t : Text}

/-- A component that holds nothing, separates nothing, and is written so that it stays. -/
structure IsSolid (d : Component) : Prop where
  not_whitespace : d.isWhitespace = false
  not_comment : d.isComment = false
  not_fault : (leaf d).isFault = false
  isLeaf : d.IsLeaf
  starts_kept : StartsKept d.write

/-- A name that is read of a plain text holds nothing and separates nothing, and a plain text is left. -/
theorem solid_readName (ht : ∀ x ∈ c :: t, Text.isPlain x = true)
    (hs : Name.startsIdentifier (c :: t) = true) :
    ∃ d r, readName (c :: t) = ([.leaf d], r) ∧ (∀ x ∈ r, x ∈ t) ∧ IsSolid d := by
  have hc := ht c (by simp)
  have htake := Name.take_cons_of_starts hc hs
  have hrest := Name.mem_of_mem_take fun x hx => ht x (List.mem_cons_of_mem _ hx)
  unfold readName
  rw [htake]
  dsimp only
  split
  · rename_i r hr
    have hmem := hrest '(' (hr ▸ List.mem_cons_self)
    exact absurd rfl (Text.ne_of_isPlain (ht '(' (List.mem_cons_of_mem _ hmem)) (by decide))
  · exact ⟨_, _, rfl, hrest, rfl, rfl, rfl, rfl, Name.startsKept_writeIdentifier hc _⟩

/-- So does a number, with its unit or its percent sign. -/
theorem solid_readNumber {numeral r : Text} (hr : ∀ x ∈ r, Text.isPlain x = true)
    (hn : StartsKept numeral) :
    ∃ d r', readNumber numeral r = ([.leaf d], r') ∧ (∀ x ∈ r', x ∈ r) ∧ IsSolid d := by
  unfold readNumber
  split
  · exact ⟨_, _, rfl, Name.mem_of_mem_take hr, rfl, rfl, rfl, rfl, hn.append _⟩
  · split
    · exact ⟨_, _, rfl, fun x hx => List.mem_cons_of_mem _ hx, rfl, rfl, rfl, rfl, hn.append _⟩
    · exact ⟨_, _, rfl, fun x hx => hx, rfl, rfl, rfl, rfl, hn⟩

/-- So does a delimiter. -/
theorem solid_readDelimiter (ht : ∀ x ∈ c :: t, Text.isPlain x = true) :
    ∃ d r, readDelimiter c t = ([.leaf d], r) ∧ (∀ x ∈ r, x ∈ t) ∧ IsSolid d := by
  have hne : ∀ x ∈ t, ∀ y, Text.isPlain y = false → x ≠ y := fun x hx y hy =>
    Text.ne_of_isPlain (ht x (List.mem_cons_of_mem _ hx)) hy
  have hsolid : IsSolid (.literal [c]) :=
    ⟨rfl, rfl, rfl, rfl, Text.startsKept_of_isPlain (ht c (by simp)) []⟩
  unfold readDelimiter
  split
  · exact absurd rfl (hne '!' (by simp) '!' (by decide))
  · exact absurd rfl (hne '|' (by simp) '|' (by decide))
  · exact absurd rfl (hne '=' (by simp) '=' (by decide))
  · exact ⟨_, _, rfl, fun x hx => hx, hsolid⟩

/-- What is read by one plain character is a delimiter: quotes, brackets, slashes, hash signs and at-signs are
    not plain. -/
theorem solid_readSymbol (ht : ∀ x ∈ c :: t, Text.isPlain x = true) :
    ∃ d r, readSymbol c t = ([.leaf d], r) ∧ (∀ x ∈ r, x ∈ t) ∧ IsSolid d := by
  have hc : ∀ y, Text.isPlain y = false → c ≠ y := fun y hy => Text.ne_of_isPlain (ht c (by simp)) hy
  unfold readSymbol
  split
  · exact absurd rfl (hc '@' (by decide))
  · exact absurd rfl (hc '#' (by decide))
  · exact absurd rfl (hc '{' (by decide))
  · exact absurd rfl (hc '[' (by decide))
  · exact absurd rfl (hc '(' (by decide))
  · exact absurd rfl (hc '}' (by decide))
  · exact absurd rfl (hc ']' (by decide))
  · exact absurd rfl (hc ')' (by decide))
  · exact absurd rfl (hc '"' (by decide))
  · exact absurd rfl (hc '\'' (by decide))
  · exact absurd rfl (hc '/' (by decide))
  · exact solid_readDelimiter ht

/-- A plain text begins with one lexeme, and it is solid. -/
theorem read_of_plain (ht : ∀ x ∈ c :: t, Text.isPlain x = true) :
    ∃ d r, read c t = ([.leaf d], r) ∧ (∀ x ∈ r, x ∈ t) ∧ IsSolid d := by
  have hc := ht c (by simp)
  have htail : ∀ x ∈ t, Text.isPlain x = true := fun x hx => ht x (List.mem_cons_of_mem _ hx)
  -- None of the branches for white space, the arrow or a bracket is taken by plain characters.
  unfold read
  split
  · rename_i hblank
    have := Text.isBlank_of_isCssBlank hblank
    rw [Text.isBlank_of_isPlain hc] at this
    exact Bool.noConfusion this
  · split
    · refine ⟨_, _, rfl, fun x hx => List.mem_of_mem_drop (UnicodeRange.mem_of_mem_take hx), rfl, rfl,
        rfl, rfl, ?_⟩
      exact Text.startsKept_of_isPlain (c := 'U') rfl _
    · split
      · rename_i r hr
        have hmem : '>' ∈ c :: t := by rw [Text.dropFront?_eq_some_iff.mp hr]; simp
        exact absurd rfl (Text.ne_of_isPlain (ht '>' hmem) (by decide))
      · split
        · rename_i hs
          exact solid_readName ht hs
        · split
          · rename_i numeral r hr
            obtain ⟨happend, hne⟩ := Number.take?_append hr
            obtain ⟨e, numeral, rfl⟩ := List.exists_cons_of_ne_nil hne
            obtain ⟨rfl, rfl⟩ := List.cons.inj happend
            obtain ⟨d, r', hd, hr', hsolid⟩ :=
              solid_readNumber (fun x hx => htail x (List.mem_append_right _ hx))
                (Text.startsKept_of_isPlain hc numeral)
            exact ⟨d, r', hd, fun x hx => List.mem_append_right _ (hr' x hx), hsolid⟩
          · exact solid_readSymbol ht

/-- A plain text is scanned into solid components. -/
theorem scan_of_plain (ht : ∀ x ∈ t, Text.isPlain x = true) :
    ∃ ds : List (Found Component), scan t = ds.map (fun d => ⟨.leaf d.item, d.suffix⟩) ∧
      (∀ d ∈ ds, IsSolid d.item) ∧ (t ≠ [] → ds ≠ []) := by
  fun_induction scan t with
  | case1 => exact ⟨[], rfl, by simp, fun h => absurd rfl h⟩
  | case2 c t here ih =>
    obtain ⟨d, r, hread, hr, hsolid⟩ := read_of_plain ht
    simp only [here, hread] at ih ⊢
    obtain ⟨ds, hds, hall, -⟩ := ih fun x hx => ht x (List.mem_cons_of_mem _ (hr x hx))
    refine ⟨⟨d, c :: t⟩ :: ds, by rw [hds]; rfl, ?_, fun _ => List.cons_ne_nil _ _⟩
    intro e he
    rcases List.mem_cons.mp he with rfl | he
    · exact hsolid
    · exact hall e he

/-- Nothing is done to a plain text before it is scanned. -/
theorem normalize_of_plain (ht : ∀ x ∈ t, Text.isPlain x = true) : normalize t = t := by
  have hline : Text.unifyLineEnds t = t := by
    induction t with
    | nil => rfl
    | cons c t ih =>
      have hc := Text.ne_of_isPlain (ht c (by simp)) (by decide : Text.isPlain '\r' = false)
      rw [Text.unifyLineEnds]
      · rw [if_neg hc, ih fun x hx => ht x (List.mem_cons_of_mem _ hx)]
      · intro u hu
        exact fun _ => hc hu
  rw [normalize, hline]
  refine (List.map_congr_left fun c hc => ?_).trans (List.map_id t)
  rw [if_neg (Text.ne_of_isPlain (ht c hc) (by decide)),
    if_neg (Text.ne_of_isPlain (ht c hc) (by decide))]
  rfl

end Lexeme

namespace Nesting

/-- Lexemes that hold nothing go to the state one after the other, on the level that it is on. -/
theorem foldl_step_leaves (ds : List (Found Component)) (n : Nesting) :
    (ds.map fun d => (⟨.leaf d.item, d.suffix⟩ : Found Lexeme)).foldl step n =
      ⟨ds.reverse ++ n.current, n.frames⟩ := by
  induction ds generalizing n with
  | nil => rfl
  | cons d ds ih =>
    rw [List.map_cons, List.foldl_cons, ih]
    simp [step, push]

/-- Components that hold nothing make themselves. -/
theorem ofLexemes_leaves (ds : List (Found Component)) :
    ofLexemes (ds.map fun d => ⟨.leaf d.item, d.suffix⟩) = ds := by
  rw [ofLexemes, foldl_step_leaves]
  simp [empty, finish]

end Nesting

namespace Component

open Lexeme (IsSolid)

/-- **A plain text is parsed into components that are solid**, at least one. -/
theorem parse_of_plain {t : Text} (ht : ∀ x ∈ t, Text.isPlain x = true) (hne : t ≠ []) :
    (∀ d ∈ parse t, IsSolid d) ∧ parse t ≠ [] := by
  obtain ⟨ds, hds, hall, hds_ne⟩ := Lexeme.scan_of_plain ht
  have hfilter : (Lexeme.scan t).filter (fun l => !l.item.isComment) =
      ds.map fun d => ⟨.leaf d.item, d.suffix⟩ := by
    rw [hds]
    refine List.filter_eq_self.mpr fun l hl => ?_
    obtain ⟨d, hd, rfl⟩ := List.mem_map.mp hl
    simp [Lexeme.isComment, (hall d hd).not_comment]
  rw [parse, parseFound, Lexeme.normalize_of_plain ht, hfilter, Nesting.ofLexemes_leaves]
  refine ⟨fun d hd => ?_, by simpa using hds_ne hne⟩
  obtain ⟨e, he, rfl⟩ := List.mem_map.mp hd
  exact hall e he

/-- Nothing in a plain text is a fault. -/
theorem faultless_of_plain {t : Text} (ht : ∀ x ∈ t, Text.isPlain x = true) (hne : t ≠ []) :
    Faultless (parse t) := by
  have hsolid := (parse_of_plain ht hne).1
  intro l hl
  rw [flatList_of_isLeaf fun d hd => (hsolid d hd).isLeaf] at hl
  obtain ⟨d, hd, rfl⟩ := List.mem_map.mp hl
  exact (hsolid d hd).not_fault

/-- Components with no white space among them are one group. -/
theorem groups_of_forall {cs : List Component} (h : ∀ c ∈ cs, c.isWhitespace = false)
    (hne : cs ≠ []) : groups cs = [cs] := by
  induction cs with
  | nil => exact absurd rfl hne
  | cons c cs ih =>
    have hc := h c (by simp)
    cases cs with
    | nil => simp [groups, hc]
    | cons d ds =>
      have hd := h d (by simp)
      have := ih (fun e he => h e (List.mem_cons_of_mem _ he)) (List.cons_ne_nil _ _)
      rw [groups]
      simp [hc, hd, this, joinFirst]

/-- What is written of components begins as the first of them does. -/
theorem startsKept_writeList {c : Component} (h : StartsKept c.write) (cs : List Component) :
    StartsKept (writeList (c :: cs)) := by
  cases cs with
  | nil => simpa [writeList] using h
  | cons d ds =>
    rw [writeList, List.append_assoc]
    exact h.append _

/-- **A plain text is a single part**, and no cleaning takes that away. -/
theorem split_of_plain {t : Text} (ht : ∀ x ∈ t, Text.isPlain x = true) (hne : t ≠ []) :
    ∃ w, split t = [w] ∧ StartsKept w := by
  obtain ⟨hsolid, hparse⟩ := parse_of_plain ht hne
  rw [split, groups_of_forall (fun c hc => (hsolid c hc).not_whitespace) hparse]
  obtain ⟨c, cs, hcs⟩ := List.exists_cons_of_ne_nil hparse
  refine ⟨_, rfl, ?_⟩
  rw [hcs]
  exact startsKept_writeList (hsolid c (hcs ▸ List.mem_cons_self)).starts_kept cs

end Component

end CssShorthand
