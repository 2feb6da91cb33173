/-
  EXPANDING DECLARATIONS THAT KEEP OUT OF EACH OTHER'S WAY.

  If no two declarations of a store can set the same name (`Separate`), then none overrules another, and
  the store once all is expanded holds what each of them sets on its own (`mem_after_iff`).  It can be
  expanded exactly if each of them can be read (`exists_after_iff`).

  `cover` is all that a name can reach on both levels. Separate declarations cover different names, so the
  merge is just the union of what they set; this holds for the folded stores, for the sides of a border, and
  for a single declaration.
-/
import CssShorthand.Proofs.Cascade.Alone

namespace CssShorthand

namespace Shorthand

/-- The names that a declaration of the name `n` may set on either level. -/
def cover (n : String) : List String := (reach n).flatMap reach

/-- Every name reaches itself. -/
theorem mem_reach_self (n : String) : n ∈ reach n := List.mem_cons_self

/-- What is reached in one step is covered. -/
theorem reach_subset_cover (n : String) : reach n ⊆ cover n := fun _ hm =>
  List.mem_flatMap.mpr ⟨n, mem_reach_self n, hm⟩

/-- A name of no shorthand covers itself alone. -/
theorem eq_of_mem_cover {m n : String} (hn : ofName? n = none) (hm : m ∈ cover n) : m = n := by
  have hreach : reach n = [n] := by rw [reach, hn]
  simpa [cover, hreach] using hm

end Shorthand

namespace Cascade

open Shorthand (cover reach)

variable {s t s' t' : Store} {x y z : String × Declaration} {n : String}

/-- The first level stays within reach. -/
theorem mem_reach_of_mem_first (h : y ∈ first x) : y.1 ∈ reach x.1 := by
  unfold first at h
  split at h
  · exact mem_reach_of_mem_spread (Entries.mem_names_of_mem h)
  · rw [List.mem_singleton.mp h]
    exact Shorthand.mem_reach_self _

/-- What a declaration spreads into is in its cover. -/
theorem mem_cover_of_mem_full (h : z ∈ full x) : z.1 ∈ cover x.1 := by
  obtain ⟨y, hy, hz⟩ := List.mem_flatMap.mp h
  exact List.mem_flatMap.mpr
    ⟨y.1, mem_reach_of_mem_first hy, mem_reach_of_mem_spread (Entries.mem_names_of_mem hz)⟩

/-- A declaration of no shorthand is all that it spreads into. -/
theorem full_of_not_shorthand (h : Shorthand.ofName? x.1 = none) : full x = [x] := by
  have hborder : x.1 ≠ Shorthand.border.name := fun hx => by
    rw [hx, Shorthand.ofName?_name] at h
    contradiction
  have hfirst : first x = [x] := (first_cases x).elim (·.2) fun hx => absurd hx.1 hborder
  rw [full, hfirst, List.flatMap_singleton, spread_of_not_shorthand h x.2]

/-- No two declarations of the store can set the same name. -/
def Separate (s : Store) : Prop := ∀ m ∈ s.names, ∀ n ∈ s.names, ∀ k ∈ cover m, k ∈ cover n → m = n

namespace Separate

/-- Separate declarations do not overrule each other on the first level. -/
theorem decided_eq (h : Separate s) (hx : x ∈ s.entries) : decided s x = first x := by
  refine List.filter_eq_self.mpr fun y hy => decide_eq_true fun b hb hyb => ?_
  obtain ⟨w, hw, hwy⟩ := Entries.mem_names_iff.mp hyb
  have hxb : x.1 = b.1 := h _ (Entries.mem_names_of_mem hx) _ (Entries.mem_names_of_mem hb) y.1
    (Shorthand.reach_subset_cover _ (mem_reach_of_mem_first hy))
    (Shorthand.reach_subset_cover _ (hwy ▸ mem_reach_of_mem_first hw))
  rw [Store.eq_of_mem_of_name_eq hb hx hxb.symm]

/-- **Declarations that cannot set the same name do not compete.** -/
theorem mem_after_iff (h : Separate s) (ht : Edit.expandAll.after s = .ok t) :
    z ∈ t.entries ↔ ∃ x ∈ s.entries, z ∈ full x := by
  rw [(after_expandAll s).1 t ht, mem_merge]
  refine exists_congr fun x => and_congr_right fun hx => ?_
  rw [settled, h.decided_eq hx]
  refine and_iff_left_of_imp fun hz b hb hzb => ?_
  rw [settled, h.decided_eq hb] at hzb
  obtain ⟨w, hw, hwz⟩ := Entries.mem_names_iff.mp hzb
  have hxb : x.1 = b.1 := h _ (Entries.mem_names_of_mem hx) _ (Entries.mem_names_of_mem hb) z.1
    (mem_cover_of_mem_full hz) (hwz ▸ mem_cover_of_mem_full hw)
  rw [Store.eq_of_mem_of_name_eq hb hx hxb.symm]

/-- The store can be expanded if the values of its shorthands can be read. -/
theorem exists_after_iff (h : Separate s) : (∃ t, Edit.expandAll.after s = .ok t) ↔
    ∀ x ∈ s.entries, ∀ y ∈ first x, ∀ sh ∈ Shorthand.afterBorder, y.1 = sh.name → Reads y := by
  rw [(after_expandAll s).2]
  refine forall₂_congr fun x hx => ?_
  rw [h.decided_eq hx]

end Separate

end Cascade

end CssShorthand
