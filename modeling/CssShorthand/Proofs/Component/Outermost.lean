/-
  WHAT HOLDS OF THE OUTERMOST COMPONENTS.

  An outermost component of a text is a lexeme of it, a block or function that was put together, or the
  fault of a bracket that closes nothing.  What holds of these holds of every component that is read
  (`Component.forall_mem_parse`); the invariant of the reading is `Nesting.Every`.

  The state of the reading holds components at several levels, of which only the outermost are spoken of in
  the end. The invariant is therefore about what stands at the bottom of the stack, and a group enters it
  when it is closed, or when it is still open at the end of the text.
-/
import CssShorthand.Component.Nesting

namespace CssShorthand

variable {P : Component → Prop}

namespace Nesting

/-- What was read on any level satisfies `P`. -/
def Every (P : Component → Prop) (n : Nesting) : Prop :=
  (∀ c ∈ n.current, P c.item) ∧ ∀ f ∈ n.frames, ∀ c ∈ f.before, P c.item

namespace Every

variable {n : Nesting}

theorem push (h : Every P n) {c : Component} (hc : P c) (start : Text) : Every P (n.push c start) :=
  ⟨List.forall_mem_cons.mpr ⟨hc, h.1⟩, h.2⟩

theorem enter (h : Every P n) (o : Opening) (start : Text) : Every P (n.enter o start) :=
  ⟨by simp [Nesting.enter], List.forall_mem_cons.mpr h⟩

/-- Closing a group puts it among the components outside of it, which keep what they had. -/
theorem close {frames : List Frame} {f : Frame} (hgroup : ∀ (o : Opening) cs, P (o.component cs))
    (h : ∀ g ∈ f :: frames, ∀ c ∈ g.before, P c.item) : Every P (n.close f frames) :=
  ⟨List.forall_mem_cons.mpr ⟨hgroup _ _, h f List.mem_cons_self⟩,
    fun g hg => h g (List.mem_cons_of_mem f hg)⟩

/-- **One lexeme keeps it**, if it holds of the lexeme, of groups and of brackets that close nothing. -/
theorem step (h : Every P n) (hgroup : ∀ (o : Opening) cs, P (o.component cs))
    (hfault : ∀ b, P (.fault (.unmatched b))) {l : Found Lexeme} (hl : ∀ c, l.item = .leaf c → P c) :
    Every P (n.step l) := by
  unfold Nesting.step
  split
  · rename_i c hc
    exact h.push (hl c hc) _
  · exact h.enter _ _
  · exact h.enter _ _
  · split
    · rename_i f frames hf
      split
      · exact close hgroup (hf ▸ h.2)
      · exact h.push (hfault _) _
    · exact h.push (hfault _) _

/-- So all lexemes of a text keep it. -/
theorem foldl_step (h : Every P n) (hgroup : ∀ (o : Opening) cs, P (o.component cs))
    (hfault : ∀ b, P (.fault (.unmatched b))) (ls : List (Found Lexeme))
    (hls : ∀ l ∈ ls, ∀ c, l.item = .leaf c → P c) : Every P (ls.foldl Nesting.step n) := by
  induction ls generalizing n with
  | nil => exact h
  | cons l ls ih =>
    obtain ⟨hl, hls⟩ := List.forall_mem_cons.mp hls
    exact ih (h.step hgroup hfault hl) hls

end Every

/-- What is still open is closed at the end. -/
theorem forall_mem_finish (hgroup : ∀ (o : Opening) cs, P (o.component cs))
    {current : List (Found Component)} {frames : List Frame} (hcurrent : ∀ c ∈ current, P c.item)
    (hframes : ∀ f ∈ frames, ∀ c ∈ f.before, P c.item) : ∀ c ∈ finish current frames, P c.item := by
  induction frames generalizing current with
  | nil => exact fun c hc => hcurrent c (List.mem_reverse.mp hc)
  | cons f frames ih =>
    obtain ⟨hf, hframes⟩ := List.forall_mem_cons.mp hframes
    exact ih (List.forall_mem_cons.mpr ⟨hgroup _ _, hf⟩) hframes

end Nesting

/-- **What holds of the lexemes of a text**, of all groups and of brackets that close nothing holds of the
    components of the text. -/
theorem Component.forall_mem_parse {t : Text} (hgroup : ∀ (o : Opening) cs, P (o.component cs))
    (hfault : ∀ b, P (.fault (.unmatched b)))
    (hleaf : ∀ l ∈ Lexeme.scan (Lexeme.normalize t), l.item.isComment = false → ∀ c, l.item = .leaf c → P c) :
    ∀ c ∈ parse t, P c := by
  intro c hc
  obtain ⟨d, hd, rfl⟩ := List.mem_map.mp hc
  have hnone : Nesting.Every P .empty := ⟨nofun, nofun⟩
  have hlast := hnone.foldl_step hgroup hfault
    ((Lexeme.scan (Lexeme.normalize t)).filter fun l => !l.item.isComment) fun l hl => by
      obtain ⟨hscan, hcomment⟩ := List.mem_filter.mp hl
      exact hleaf l hscan (by simpa using hcomment)
  exact Nesting.forall_mem_finish hgroup hlast.1 hlast.2 d hd

end CssShorthand
