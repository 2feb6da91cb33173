/-
  EXPANDING WHAT NOTHING OVERRULES.

  If none of the longhands of a shorthand is declared next to it, expansion takes the shorthand out and
  puts in all that it spreads into; nothing else changes.

  A folded store is of this kind, since folding takes out all longhands that it has used. So the modules on
  folding use this instead of the general cascade.
-/
import CssShorthand.Proofs.Cascade.Spread

namespace CssShorthand

open List

namespace Store

/-- A store holds these entries if they have its names and are all there. -/
theorem perm_of_subset {s : Store} {l : Entries Declaration} (hnames : s.names ~ l.names)
    (hsub : ∀ x ∈ l, x ∈ s.entries) : s.entries ~ l := by
  have hnodup : l.Nodup := Nodup.of_map _ (hnames.nodup s.nodup_names)
  have hlength : s.entries.length ≤ l.length := by
    have := hnames.length_eq
    simp only [Store.names, Entries.names, length_map] at this
    omega
  exact ((hnodup.subperm hsub).perm_of_length_le hlength).symm

/-- What is said about an expansion depends on the value alone. -/
theorem expand_of_map_eq_ok {s t : Store} {sh : Shorthand} {d : Declaration} {es : List (String × Text)}
    {ignored : Text} (hmem : (sh.name, d) ∈ s.entries)
    (he : expandValue sh.name d.value = .ok (.longhands es ignored))
    (ht : (s.expand sh.name).map (·.1) = .ok t) :
    s.expand sh.name = .ok (t, Expansion.notices sh.name d.value (.longhands es ignored)) := by
  simp only [expand, get?_of_mem hmem, he] at ht ⊢
  cases hr : s.replace sh.name (es.map fun e => (e.1, .text e.2)) true with
  | error f =>
    rw [hr] at ht
    contradiction
  | ok u =>
    rw [hr] at ht
    obtain rfl : u = t := Except.ok.inj ht
    rfl

/-- **Expansion of a shorthand that sets new names only** takes it out and puts in what it spreads into. -/
theorem exists_expand_of_new {s : Store} (sh : Shorthand) {d : Declaration} {es : List (String × Text)}
    {ignored : Text} {rest : Entries Declaration} (hs : s.entries ~ (sh.name, d) :: rest)
    (he : expandValue sh.name d.value = .ok (.longhands es ignored))
    (hnew : ∀ n ∈ (spread (sh.name, d)).names, n ∉ s.names) :
    ∃ t, s.expand sh.name = .ok (t, Expansion.notices sh.name d.value (.longhands es ignored)) ∧
      t.entries ~ spread (sh.name, d) ++ rest := by
  have hmem : (sh.name, d) ∈ s.entries := hs.mem_iff.mpr mem_cons_self
  obtain ⟨before, after, hsplit⟩ := append_of_mem hmem
  obtain ⟨t, ht, hcase⟩ := map_expand_of_ok hsplit he
  have hexpand := expand_of_map_eq_ok hmem he ht
  have hentries := (hcase.resolve_left fun h => by simp at h).2
  -- As all names are new, no entry stands against what is spread, and none is taken out of the rest.
  have hyields : (spread (sh.name, d)).filter (fun x => s.yields before x.1 x.2) =
      spread (sh.name, d) := filter_eq_self.mpr fun x hx => by
    have hnone := Entries.find?_eq_none_iff.mpr (hnew x.1 (Entries.mem_names_of_mem hx))
    simp [yields, hnone]
  have hwithout : ∀ es : Entries Declaration, (∀ x ∈ es, x ∈ s.entries) →
      es.without (spread (sh.name, d)) = es := by
    intro es hes
    refine filter_eq_self.mpr fun x hx => ?_
    have : x.1 ∉ (spread (sh.name, d)).names := fun hn =>
      hnew x.1 hn (Entries.mem_names_of_mem (hes x hx))
    simpa using this
  refine ⟨t, hexpand, ?_⟩
  rw [hentries, hyields, spliced, hwithout before fun x hx => by simp [hsplit, hx],
    hwithout after fun x hx => by simp [hsplit, hx]]
  have hrest : before ++ after ~ rest := by
    have := hsplit ▸ hs
    exact (perm_middle.symm.trans this).cons_inv
  calc before ++ spread (sh.name, d) ++ after
      ~ spread (sh.name, d) ++ before ++ after := perm_append_comm.append_right after
    _ = spread (sh.name, d) ++ (before ++ after) := append_assoc _ _ _
    _ ~ spread (sh.name, d) ++ rest := hrest.append_left _

end Store

end CssShorthand
