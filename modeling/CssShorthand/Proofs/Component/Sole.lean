/-
  VALUES OF ONE COMPONENT.

  A text of which one component is left next to white space and comments is read from its front as this
  component (`exists_reading_of_sole`).  So the keyword that a value stands for is the name that the
  value begins with (`lower_take_of_soleKeyword?`).

  Keywords of every property are recognised by the only component of a value. To show that a value is none
  of them it is enough to look at the name it begins with; this is how values of a font or a color are told
  apart from these keywords without parsing them.
-/
import CssShorthand.Proofs.Component.Joined
import CssShorthand.Proofs.Slice.Color

namespace CssShorthand

open List

namespace Component

open Lexeme (lexemes)

variable {c : Char} {d : Component} {k : String} {t u : Text}

/-- White space is no fault. -/
theorem faultless_of_isWhitespace {cs : List Component} (h : ∀ c ∈ cs, c.isWhitespace = true) :
    Faultless cs := by
  intro l hl
  rw [flatList_of_isWhitespace h] at hl
  obtain ⟨c, hc, rfl⟩ := mem_map.mp hl
  have hc := h c hc
  cases c <;> first | rfl | contradiction

/-- What is read of a text of one component: the component, and white space around it. -/
theorem exists_parse_of_sole (hsole : significant (parse u) = [d]) :
    ∃ front back : List Component, parse u = front ++ [d] ++ back ∧
      (∀ c ∈ front, c.isWhitespace = true) ∧ ∀ c ∈ back, c.isWhitespace = true := by
  obtain ⟨front, back, hparse, hfront, -, hback⟩ := exists_append_of_groups
    (groups_of_significant isComment_of_mem_parse hsole)
  exact ⟨front, back, hparse, hfront, hback⟩

/-- So a text of one component without a fault in it has none. -/
theorem faultless_of_sole (hsole : significant (parse u) = [d]) (hd : Faultless [d]) :
    Faultless (parse u) := by
  obtain ⟨front, back, hparse, hfront, hback⟩ := exists_parse_of_sole hsole
  intro l hl
  rw [hparse, flatList_append, flatList_append] at hl
  rcases mem_append.mp hl with hl | hl
  · exact (mem_append.mp hl).elim (faultless_of_isWhitespace hfront l) (hd l)
  · exact faultless_of_isWhitespace hback l hl

/-- **A text that begins with no white space and no comment begins with its one component.** -/
theorem exists_reading_of_sole (hsole : significant (parse u) = [d]) (hd : Faultless [d])
    (htext : Lexeme.normalize u = c :: t) (hblank : Text.isCssBlank c = false) (hslash : c ≠ '/') :
    ∃ (r : Text) (rest closing : List Lexeme) (back : List Component),
      flat d = d.head :: rest ∧ Lexeme.Reading c t [d.head] r ∧
      lexemes r ++ closing = rest ++ back.map .leaf ∧ (∀ b ∈ back, b.isWhitespace = true) ∧
      ∀ l ∈ closing, ∃ b, l = .closed b := by
  obtain ⟨front, back, hparse, hfront, hback⟩ := exists_parse_of_sole hsole
  have hfaultless := faultless_of_sole hsole hd
  have hflat : flatList (parse u) = front.map .leaf ++ (flat d ++ back.map .leaf) := by
    rw [hparse, flatList_append, flatList_append, flatList_of_isWhitespace hfront,
      flatList_of_isWhitespace hback]
    show _ ++ (flat d ++ []) ++ _ = _
    simp
  obtain ⟨closing, hclosing, hclosed⟩ := exists_flatList_parse hfaultless
  have hfault : ∀ l ∈ lexemes (Lexeme.normalize u), l.isFault = false := fun l hl =>
    hfaultless l (hclosing ▸ mem_append_left _ hl)
  have hlexemes := hclosing.symm.trans hflat
  rw [htext] at hlexemes hfault
  have hreading := Lexeme.reading_read c t
  obtain ⟨k, hk⟩ := hreading.eq_singleton fun l hl => Lexeme.isFault_of_mem_read hfault hl
  rw [hk] at hreading
  have hcomment : k.isComment = false := by
    by_contra hcomment
    obtain ⟨u, hc, -⟩ := hreading.of_comment (mem_singleton_self k) (by simpa using hcomment)
    exact hslash hc
  rw [Lexeme.lexemes_cons, hk] at hlexemes
  simp only [filter_cons, hcomment, Bool.not_false, if_true, filter_nil, cons_append, nil_append]
    at hlexemes
  -- The text starts with no white space, so nothing stands before the component.
  cases front with
  | cons f front =>
    obtain rfl : k = .leaf f := (cons.inj hlexemes).1
    have := hreading.of_whitespace (mem_singleton_self _) (hfront f mem_cons_self)
    rw [hblank] at this
    contradiction
  | nil =>
    obtain ⟨rest, hhead⟩ : ∃ rest, flat d = d.head :: rest := by
      cases d <;> exact ⟨_, rfl⟩
    rw [hhead] at hlexemes
    obtain ⟨rfl, hrest⟩ := cons.inj hlexemes
    exact ⟨_, rest, closing, back, hhead, hreading, hrest, hback, hclosed⟩

end Component

namespace Lexeme

variable {c : Char} {d : Component} {n r t : Text}

/-- An identifier is read to the end of its name, and a hash begins with its sign. -/
theorem Reading.of_leaf (h : Reading c t [.leaf d] r) :
    (∀ n, d = .ident n → Name.take (c :: t) = (n, r)) ∧ ∀ n b, d = .hash n b → c = '#' := by
  have hleaf : ∀ {e : Component}, [Lexeme.leaf d] = [.leaf e] → d = e := fun heq =>
    leaf.inj (cons.inj heq).1
  generalize hls : [Lexeme.leaf d] = ls at h
  -- Only the reading of a name gives a name, and only that of a hash a hash.
  cases h with
  | ident h =>
    obtain rfl := hleaf hls
    exact ⟨fun n hn => by rw [← Component.ident.inj hn], nofun⟩
  | hash h => exact ⟨fun n hn => absurd ((hleaf hls).symm.trans hn) (by simp), fun _ _ _ => h⟩
  | url hr =>
    rcases mem_ofUrl (hls ▸ mem_singleton_self (Lexeme.leaf d)) with ⟨u, b, h⟩ | ⟨f, h⟩ <;>
      obtain rfl := leaf.inj h <;> exact ⟨nofun, nofun⟩
  | string hq =>
    rcases mem_ofString (hls ▸ mem_singleton_self (Lexeme.leaf d)) with ⟨u, b, h⟩ | ⟨f, h⟩ <;>
      obtain rfl := leaf.inj h <;> exact ⟨nofun, nofun⟩
  | symbol hb hs hn =>
    obtain ⟨text, htext, -⟩ := readDelimiter_eq c t
    rw [htext] at hls
    obtain rfl := hleaf hls
    exact ⟨nofun, nofun⟩
  | call h hr => simp at hls
  | opened b h => simp at hls
  | closed b h => simp at hls
  | _ =>
    obtain rfl := hleaf hls
    exact ⟨nofun, nofun⟩

/-- An identifier is read to the end of its name. -/
theorem Reading.of_ident (h : Reading c t [.leaf (.ident n)] r) : Name.take (c :: t) = (n, r) :=
  h.of_leaf.1 n rfl

end Lexeme

namespace Component

variable {c : Char} {k : String} {t u : Text}

/-- **The keyword that a value stands for is the name that the value begins with.** -/
theorem lower_take_of_soleKeyword? (h : soleKeyword? (significant (parse u)) = some k)
    (htext : Lexeme.normalize u = c :: t) (hblank : Text.isCssBlank c = false) (hslash : c ≠ '/') :
    Text.toString (Text.lower (Name.take (c :: t)).1) = k := by
  unfold soleKeyword? at h
  split at h
  · rename_i d hd
    cases d with
    | ident n =>
      obtain ⟨r, rest, closing, back, -, hreading, -⟩ :=
        exists_reading_of_sole hd (by simp [Faultless, flatList, flat, Lexeme.isFault]) htext hblank hslash
      rw [Lexeme.Reading.of_ident hreading]
      exact Option.some.inj h
    | _ => contradiction
  · contradiction

end Component

end CssShorthand
