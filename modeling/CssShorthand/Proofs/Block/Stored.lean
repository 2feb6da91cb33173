/-
  WHAT A BLOCK STORES.

  The declarations of a block are stored one after the other (`store_parse`), so that a name has what
  the last declaration of this name makes (`get?_parse`).  That is not always the value that was read:
  its text is cleaned like a text that someone else gives, whatever the marks and semicolons in it
  belong to.  `get?_parse_eq_iff` says which values stay as they are read, and `not_get?_parse_eq` has a
  string that does not.
-/
import CssShorthand.Block
import CssShorthand.Proofs.Declaration.Cleaning

namespace CssShorthand

open List

namespace Block

/-- A declaration as it is read in a block. -/
structure Given where
  name : Text
  value : List Component
  important : Bool

namespace Given

/-- The name under which it is stored. -/
def key (g : Given) : String := trimName (Text.toString g.name)

/-- The text of its value. -/
def text (g : Given) : Text := Component.writeTrimmed g.value

/-- Stores it. -/
def store (s : Store) (g : Given) : Store := s.add (Text.toString g.name) (.text g.text) g.important

end Given

/-- The declaration that an item is, if it is one. -/
def given? : BlockItem → Option Given
  | .declaration name value important => some ⟨name, value, important⟩
  | .rule | .malformed _ => none

/-- The declarations that are read in a block, in their order. -/
def given (block : Text) : List Given := (items block).filterMap fun i => given? i.item

/-! ## Storing them in turn

  A fold over the declarations; the last one of a name is the one that is kept.
-/

/-- The store after a block is the store of the declarations it gives, one after another; the items that are
    not stored only add notices. -/
theorem store_foldl_declare (whole : Text) (is : List (Found BlockItem)) (r : Store × List Notice) :
    (is.foldl (declare whole) r).1 = (is.filterMap fun i => given? i.item).foldl Given.store r.1 := by
  induction is generalizing r with
  | nil => rfl
  | cons i is ih =>
    obtain ⟨item, suffix⟩ := i
    cases item <;> exact ih _

/-- A block stores its declarations one after the other. -/
theorem store_parse (block : Text) : (parse block).1 = (given block).foldl Given.store .empty :=
  store_foldl_declare _ _ _

/-- One declaration changes its own name only. -/
theorem get?_store (s : Store) (g : Given) (n : String) :
    (g.store s).get? n =
      if g.key = trimName n then Value.declarationOfText? g.text g.important else s.get? n :=
  s.get?_add _ _ _ _

/-- What is stored under other names changes nothing for a name. -/
theorem get?_foldl_store {gs : List Given} {n : String} (h : ∀ g ∈ gs, g.key ≠ trimName n)
    (s : Store) : (gs.foldl Given.store s).get? n = s.get? n := by
  induction gs generalizing s with
  | nil => rfl
  | cons g gs ih =>
    rw [foldl_cons, ih fun x hx => h x (mem_cons_of_mem _ hx), get?_store,
      if_neg (h g mem_cons_self)]

variable {block : Text} {before after : List Given} {g : Given}

/-- **A name has what its last declaration makes.** -/
theorem get?_parse (h : given block = before ++ g :: after) (hlast : ∀ x ∈ after, x.key ≠ g.key) :
    (parse block).1.get? g.key = Value.declarationOfText? g.text g.important := by
  have hkey : trimName g.key = g.key := trimName_idem _
  rw [store_parse, h, foldl_append, foldl_cons,
    get?_foldl_store fun x hx => hkey.symm ▸ hlast x hx, get?_store, hkey, if_pos rfl]

/-! ## What stays as it is read

  The condition is on the text of the value alone, and it is that of cleaning.
-/

/-- **Which values a block stores as they are read.**  The last declaration of a name is stored with its
    value as it is written again, and with its importance, if and only if no mark is in this text,
    whatever the mark stands in, and no semicolon at its end.  Otherwise it is stored as the cleaned
    text declares. -/
theorem get?_parse_eq_iff (h : given block = before ++ g :: after)
    (hlast : ∀ x ∈ after, x.key ≠ g.key) :
    (parse block).1.get? g.key = Value.declarationOfText? g.text g.important ∧
      ((parse block).1.get? g.key = some ⟨g.text, g.important⟩ ↔ Cleaning.Stays g.text) := by
  refine ⟨get?_parse h hlast, ?_⟩
  rw [get?_parse h hlast]
  exact Cleaning.declarationOfText?_eq_self_iff (Text.trim_idem _)

/-- Two declarations of one name, and one of another. -/
def repeating : Text := "color: red; content: \";a\"; color: blue !important".toList

/-- A name that is given twice, with a quoted semicolon between: the later one is stored, with its importance.
    -/
theorem repeating_get?_parse_eq_iff : ∃ before g after, given repeating = before ++ g :: after ∧
    (∀ x ∈ after, x.key ≠ g.key) ∧
    (parse repeating).1.get? g.key = Value.declarationOfText? g.text g.important ∧
      ((parse repeating).1.get? g.key = some ⟨g.text, g.important⟩ ↔ Cleaning.Stays g.text) := by
  have hkeys : (given repeating).map Given.key = ["color", "content", "color"] := by decide +kernel
  match hg : given repeating with
  | [a, g, b] =>
    rw [hg] at hkeys
    obtain ⟨-, hcontent, hcolor⟩ : a.key = "color" ∧ g.key = "content" ∧ b.key = "color" := by
      simpa using hkeys
    have hlast : ∀ x ∈ [b], x.key ≠ g.key := by
      rw [hcontent]
      simp [hcolor]
    have hsplit : given repeating = [a] ++ g :: [b] := hg
    exact ⟨[a], g, [b], rfl, hlast, get?_parse_eq_iff hsplit hlast⟩
  | [] | [_] | [_, _] | _ :: _ :: _ :: _ :: _ => simp [hg] at hkeys

/-- A mark within a string. -/
def quoted : Text := "content: \"a !important\"".toList

/-- **A value is not always stored as it is read.**  The mark in the string is taken for one of the
    declaration. -/
theorem not_get?_parse_eq :
    ¬∀ (block : Text) (before : List Given) (g : Given) (after : List Given),
      given block = before ++ g :: after → (∀ x ∈ after, x.key ≠ g.key) →
      (∃ c ∈ g.value, c.isWhitespace = false) →
      (parse block).1.get? g.key = some ⟨g.text, g.important⟩ := by
  intro h
  have hgiven : (given quoted).map (fun g =>
      (g.key, g.text, g.important, g.value.any fun c => !c.isWhitespace)) =
        [("content", "\"a !important\"".toList, false, true)] := by
    decide +kernel
  obtain ⟨g, hg, heq⟩ := map_eq_singleton_iff.mp hgiven
  obtain ⟨hkey, htext, himportant, hvalue⟩ : g.key = "content" ∧ g.text = "\"a !important\"".toList ∧
      g.important = false ∧ ∃ c ∈ g.value, c.isWhitespace = false := by
    simpa using heq
  have hstored := h quoted [] g [] hg (by simp) hvalue
  rw [hkey, htext, himportant] at hstored
  have hmarked : (parse quoted).1.get? "content" = some ⟨"\"a \"".toList, true⟩ := by decide +kernel
  rw [hmarked] at hstored
  exact absurd hstored (by decide)

end Block

end CssShorthand
