/-
  A COLOR IS A SINGLE PART.

  A text that is a color has one component next to white space, so that it is a single part, and that
  part is written as something that no cleaning takes away (`split_of_isColor`).

  Being a color is decided by the program on the parsed text; being single is what a box asks of its value.
  The two meet in the components next to white space: a color has one of them, and so has a value that is a
  single part.
-/
import CssShorthand.Proofs.Component.Outermost
import CssShorthand.Proofs.Component.Plain
import CssShorthand.Slice.Color

namespace CssShorthand

open Cleaning (StartsKept)

namespace Component

/-- Comments are dropped before a text is parsed. -/
theorem isComment_of_mem_parse {t : Text} : ∀ c ∈ parse t, c.isComment = false := by
  refine forall_mem_parse (fun o cs => ?_) (fun b => rfl) fun l _ hl c hc => ?_
  · cases o <;> rfl
  · rwa [hc] at hl

/-- White space at the front starts no group. -/
theorem groups_of_isWhitespace {d : Component} (h : d.isWhitespace = true) (ds : List Component) :
    groups (d :: ds) = groups ds := by
  cases ds <;> simp [groups, h]

/-- One component next to white space is one group. -/
theorem groups_of_significant {cs : List Component} {c : Component}
    (hcs : ∀ d ∈ cs, d.isComment = false) (h : significant cs = [c]) : groups cs = [[c]] := by
  have hsep : ∀ {d : Component}, d.isComment = false → d.isSeparator = d.isWhitespace := by
    intro d hd
    cases d <;> simp_all [isComment, isSeparator, isWhitespace]
  induction cs with
  | nil => simp [significant] at h
  | cons d ds ih =>
    have hd := hsep (hcs d (by simp))
    have hds : ∀ e ∈ ds, e.isComment = false := fun e he => hcs e (List.mem_cons_of_mem _ he)
    rw [significant, List.filter_cons, hd] at h
    cases hw : d.isWhitespace with
    | true =>
      rw [hw] at h
      rw [groups_of_isWhitespace hw]
      exact ih hds h
    | false =>
      rw [hw] at h
      simp only [Bool.not_false, if_true, List.cons.injEq] at h
      obtain ⟨rfl, hrest⟩ := h
      -- All that follows is white space.
      have hblank : ∀ e ∈ ds, e.isWhitespace = true := by
        intro e he
        have := List.filter_eq_nil_iff.mp hrest e he
        simpa [hsep (hds e he)] using this
      have hnil : groups ds = [] := by
        clear ih hrest hds hcs
        induction ds with
        | nil => rfl
        | cons e es ih =>
          rw [groups_of_isWhitespace (hblank e (by simp))]
          exact ih fun x hx => hblank x (List.mem_cons_of_mem _ hx)
      cases ds with
      | nil => simp [groups, hw]
      | cons e es =>
        have he := hblank e (by simp)
        rw [groups]
        simp [hw, he, hnil]

end Component

namespace Color

/-- The names of colors and of the functions that make colors begin with a letter. -/
theorem isAlpha_head : ∀ n ∈ names ++ ["rgb", "rgba", "hsl", "hsla"],
    ∃ c t, Text.ofString n = c :: t ∧ c.isAlpha = true := by
  have h : ∀ n ∈ names ++ ["rgb", "rgba", "hsl", "hsla"],
      ((Text.ofString n).head?.any Char.isAlpha) = true := by
    decide +kernel
  intro n hn
  have := h n hn
  cases ht : Text.ofString n with
  | nil => simp [ht] at this
  | cons c t =>
    rw [ht] at this
    exact ⟨c, t, rfl, by simpa using this⟩

/-- They are made of letters. -/
theorem all_isAlpha : ∀ n ∈ names ++ ["rgb", "rgba", "hsl", "hsla"],
    (Text.ofString n).all Char.isAlpha = true := by
  decide +kernel

/-- A name that is one of these in lower case begins with a letter. -/
theorem exists_isAlpha {name : Text}
    (h : Text.toString (Text.lower name) ∈ names ++ ["rgb", "rgba", "hsl", "hsla"]) :
    ∃ d u, name = d :: u ∧ d.isAlpha = true := by
  obtain ⟨c, t, hct, hc⟩ := isAlpha_head _ h
  have hlower : Text.lower name = c :: t := by
    rw [← hct]
    simp [Text.toString, Text.ofString]
  cases name with
  | nil => simp [Text.lower] at hlower
  | cons d u =>
    have hd : d.toLower = c := by
      simp only [Text.lower, List.map_cons, List.cons.injEq] at hlower
      exact hlower.1
    refine ⟨d, u, rfl, ?_⟩
    unfold Char.toLower at hd
    split at hd
    · rename_i hupper
      simpa [Char.isAlpha, Char.isUpper] using Or.inl hupper
    · exact hd ▸ hc

/-- A name that is a color in lower case is written so that it stays. -/
theorem startsKept_writeIdentifier {name : Text}
    (h : Text.toString (Text.lower name) ∈ names ++ ["rgb", "rgba", "hsl", "hsla"]) :
    StartsKept (Name.writeIdentifier name) := by
  obtain ⟨d, u, rfl, halpha⟩ := exists_isAlpha h
  exact Name.startsKept_writeIdentifier (by simp [Text.isPlain, Char.isAlphanum, halpha]) u

/-- A color starts with a letter or a hash, which cleaning keeps. -/
theorem startsKept_write {c : Component} (h : isComponent c = true) : StartsKept c.write := by
  unfold isComponent at h
  split at h
  · rename_i name
    rw [Component.write]
    refine startsKept_writeIdentifier (List.mem_append_left _ ?_)
    simpa using h
  · rw [Component.write]
    exact ⟨'#', _, rfl, rfl, by decide, by decide⟩
  · rename_i name arguments
    split at h
    · rw [Component.write, List.append_assoc]
      refine (startsKept_writeIdentifier (List.mem_append_right _ ?_)).append _
      unfold isCall at h
      split at h <;> simp_all
    · contradiction
  · contradiction

/-- **A color is a single part**, and no cleaning takes that away. -/
theorem split_of_isColor {t : Text} (h : isColor t = true) :
    ∃ w, Component.split t = [w] ∧ StartsKept w := by
  unfold isColor at h
  split at h
  · rename_i c hc
    rw [Component.split, Component.groups_of_significant Component.isComment_of_mem_parse hc]
    exact ⟨_, rfl, by simpa [Component.writeList] using startsKept_write h⟩
  · contradiction

end Color

end CssShorthand
