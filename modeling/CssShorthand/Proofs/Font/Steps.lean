/-
  WORKING A CURSOR STEP BY STEP.

  A step asks for the next significant component, takes it under some test, takes it for a style, a
  variant or a weight, or takes all that is left (`Cursor.Step`).

    1.  From one cursor to the next the components that are passed are a front of those that were left
        (`Moves`), so that the cursor stands as much further as it has passed (`Moves.position_eq`).
    2.  Of the components that a step passes, the significant ones are those that it takes
        (`exists_moves_run`).  So it is for steps one after the other (`exists_moves_runAll`).
    3.  Where nothing is left, a step gives nothing (`isNothing_run`).
    4.  Taking fields for as long as there are any is so many steps that take a component, and one that
        does not (`exists_fields`).

  The headline is `runAll_one_way`.
-/
import Mathlib.Data.List.TakeWhile
import CssShorthand.Font.Value

namespace CssShorthand

open List

namespace Cursor

open Component (significant significant_append)

/-! ## Steps

  The operations of a cursor as data, with their answers, so that a run is a list of them.
-/

/-- One thing to do with a cursor. -/
inductive Step where
  /-- Looks at the next component. -/
  | peek
  /-- Takes the next component if it satisfies a test. -/
  | consume (p : Component → Bool)
  /-- Takes the next component as a style, a variant or a weight. -/
  | consumeField
  /-- Takes all that is left. -/
  | consumeRest

/-- What a step gives. -/
inductive Answer where
  | component (d : Option Component)
  | field (f : Option (FontField × Component))
  | text (t : Text)

/-- Nothing is given: no component, and no text. -/
def Answer.IsNothing : Answer → Prop
  | .component d => d = none
  | .field f => f = none
  | .text t => t = []

namespace Step

/-- Does a step: what it gives, and where the cursor is then. -/
def run : Step → Cursor → Answer × Cursor
  | .peek, c => (.component c.peek.1, c.peek.2)
  | .consume p, c => (.component (c.consume p).1, (c.consume p).2)
  | .consumeField, c => (.field c.consumeField.1, c.consumeField.2)
  | .consumeRest, c => (.text c.consumeRest.1, c.consumeRest.2)

/-- The component that a step has taken, if it has taken one and gives it. -/
def taken : Step → Answer → List Component
  | .consume _, .component d => d.toList
  | .consumeField, .field f => (f.map (·.2)).toList
  | _, _ => []

end Step

/-- Does steps one after the other: what they give, and where the cursor is in the end. -/
def runAll : List Step → Cursor → List Answer × Cursor
  | [], c => ([], c)
  | step :: steps, c =>
    let here := step.run c
    let later := runAll steps here.2
    (here.1 :: later.1, later.2)

/-- The components that steps have taken, in order, by what they give. -/
def takenAll (steps : List Step) (answers : List Answer) : List Component :=
  (steps.zip answers).flatMap fun x => x.1.taken x.2

variable {b c d : Cursor} {cs ds : List Component} {p : Component → Bool} {step : Step} {steps : List Step}

/-! ## What a step passes

  A step moves over separators and over what it takes, and over nothing else.
-/

/-- The cursor gets from `c` to `d` and passes the components `cs`. -/
structure Moves (c : Cursor) (cs : List Component) (d : Cursor) : Prop where
  components_eq : d.components = c.components
  rest_eq : c.rest = cs ++ d.rest

/-- The cursor has passed what is not left. -/
theorem position_add_length_rest (c : Cursor) : c.position + c.rest.length = c.components.length := by
  have := c.position_le
  rw [rest, length_drop]
  omega

/-- **The cursor stands as much further as it has passed.** -/
theorem Moves.position_eq (h : Moves c cs d) : d.position = c.position + cs.length := by
  have hc := c.position_add_length_rest
  have hd := d.position_add_length_rest
  rw [h.components_eq] at hd
  rw [h.rest_eq, length_append] at hc
  omega

/-- Standing still moves over nothing. -/
theorem Moves.refl (c : Cursor) : Moves c [] c := ⟨rfl, rfl⟩

/-- One move after another moves over both. -/
theorem Moves.trans (h : Moves b cs c) (h' : Moves c ds d) : Moves b (cs ++ ds) d :=
  ⟨h'.components_eq.trans h.components_eq, by rw [h.rest_eq, h'.rest_eq, append_assoc]⟩

/-- Looking for the next component passes nothing significant. -/
theorem exists_moves_skip (c : Cursor) : ∃ cs, Moves c cs c.skip ∧ significant cs = [] := by
  refine ⟨c.rest.takeWhile (·.isSeparator), ⟨rfl, ?_⟩, filter_eq_nil_iff.mpr fun x hx => ?_⟩
  · rw [rest_skip, takeWhile_append_dropWhile]
  · simpa using mem_takeWhile_imp hx

/-- Behind what was passed stands a significant component. -/
theorem isSeparator_of_rest_skip {x : Component} {xs : List Component} (h : c.skip.rest = x :: xs) :
    x.isSeparator = false := by
  rw [rest_skip] at h
  have hhead := head_dropWhile_not (·.isSeparator) (l := c.rest) (by simp [h])
  simpa [h] using hhead

/-- The component that is looked at is the next significant one. -/
theorem peek_eq (c : Cursor) : c.peek.1 = (significant c.rest).head? := by
  obtain ⟨cs, hmoves, hcs⟩ := exists_moves_skip c
  rw [hmoves.rest_eq, significant_append, hcs, nil_append]
  cases hrest : c.skip.rest with
  | nil => simp [peek, hrest, significant]
  | cons x xs => simp [peek, hrest, significant, isSeparator_of_rest_skip hrest]

/-- Taking a component passes it, and nothing else that is significant. -/
theorem exists_moves_consume (p : Component → Bool) (c : Cursor) :
    ∃ cs, Moves c cs (c.consume p).2 ∧ significant cs = (c.consume p).1.toList := by
  obtain ⟨cs, hmoves, hcs⟩ := exists_moves_skip c
  cases hrest : c.skip.rest with
  | nil => exact ⟨cs, by simpa [consume, hrest] using hmoves, by simp [consume, hrest, hcs]⟩
  | cons x xs =>
    cases hp : p x with
    | false => exact ⟨cs, by simpa [consume, hrest, hp] using hmoves, by simp [consume, hrest, hp, hcs]⟩
    | true =>
      have htake : Moves c.skip [x] (c.skip.advance 1) := ⟨rfl, by rw [rest_advance, hrest]; rfl⟩
      have hx := isSeparator_of_rest_skip hrest
      refine ⟨cs ++ [x], by simpa [consume, hrest, hp] using hmoves.trans htake, ?_⟩
      rw [significant_append, hcs]
      simp [consume, hrest, hp, significant, hx]

/-- A test that fails passes nothing significant before what is done next. -/
theorem exists_moves_of_refused (h : c.consume p = (none, b)) (hnext : ∃ cs, Moves b cs d ∧ significant cs = ds) :
    ∃ cs, Moves c cs d ∧ significant cs = ds := by
  obtain ⟨cs, hmoves, hcs⟩ := exists_moves_consume p c
  obtain ⟨cs', hmoves', hcs'⟩ := hnext
  rw [h] at hmoves hcs
  refine ⟨cs ++ cs', hmoves.trans hmoves', ?_⟩
  rw [significant_append, hcs, hcs']
  rfl

/-- So does taking a field, after the tests that fail. -/
theorem exists_moves_consumeField (c : Cursor) :
    ∃ cs, Moves c cs c.consumeField.2 ∧ significant cs = (c.consumeField.1.map (·.2)).toList := by
  have hstyle := exists_moves_consume FontField.style.accepts c
  unfold consumeField
  rcases h₁ : c.consume FontField.style.accepts with ⟨_ | d₁, c₁⟩
  · refine exists_moves_of_refused h₁ ?_
    have hvariant := exists_moves_consume FontField.variant.accepts c₁
    dsimp only
    rcases h₂ : c₁.consume FontField.variant.accepts with ⟨_ | d₂, c₂⟩
    · refine exists_moves_of_refused h₂ ?_
      have hweight := exists_moves_consume FontField.weight.accepts c₂
      dsimp only
      rcases h₃ : c₂.consume FontField.weight.accepts with ⟨_ | d₃, c₃⟩ <;> rwa [h₃] at hweight
    · rwa [h₂] at hvariant
  · rwa [h₁] at hstyle

/-- Taking all that is left passes it. -/
theorem moves_consumeRest (c : Cursor) : Moves c c.rest c.consumeRest.2 := by
  refine ⟨rfl, ?_⟩
  rw [consumeRest, rest_advance, drop_length, append_nil]

/-- **Of what a step passes, it takes what is significant**, unless it takes all that is left. -/
theorem exists_moves_run (step : Step) (c : Cursor) :
    ∃ cs, Moves c cs (step.run c).2 ∧
      (step ≠ .consumeRest → significant cs = step.taken (step.run c).1) := by
  cases step with
  | peek =>
    obtain ⟨cs, hmoves, hcs⟩ := exists_moves_skip c
    exact ⟨cs, hmoves, fun _ => hcs⟩
  | consume p =>
    obtain ⟨cs, hmoves, hcs⟩ := exists_moves_consume p c
    exact ⟨cs, hmoves, fun _ => hcs⟩
  | consumeField =>
    obtain ⟨cs, hmoves, hcs⟩ := exists_moves_consumeField c
    exact ⟨cs, hmoves, fun _ => hcs⟩
  | consumeRest => exact ⟨c.rest, moves_consumeRest c, fun h => absurd rfl h⟩

/-- **So it is for steps one after the other.** -/
theorem exists_moves_runAll (steps : List Step) (c : Cursor) :
    ∃ cs, Moves c cs (runAll steps c).2 ∧
      (.consumeRest ∉ steps → significant cs = takenAll steps (runAll steps c).1) := by
  induction steps generalizing c with
  | nil => exact ⟨[], .refl c, fun _ => rfl⟩
  | cons step steps ih =>
    obtain ⟨cs, hmoves, hcs⟩ := exists_moves_run step c
    obtain ⟨ds, hmoves', hds⟩ := ih (step.run c).2
    refine ⟨cs ++ ds, hmoves.trans hmoves', fun h => ?_⟩
    rw [mem_cons, not_or] at h
    rw [significant_append, hcs (Ne.symm h.1), hds h.2]
    rfl

/-! ## Where nothing is left

  Behind the last significant component each step answers with nothing.
-/

/-- Where nothing is left, a step gives nothing, and nothing is left. -/
theorem isNothing_run (h : c.rest = []) (step : Step) :
    (step.run c).1.IsNothing ∧ (step.run c).2.rest = [] := by
  obtain ⟨cs, hmoves, -⟩ := exists_moves_run step c
  have hskip : ∀ {c : Cursor}, c.rest = [] → c.skip.rest = [] := fun h => by rw [rest_skip, h]; rfl
  have hconsume : ∀ {c : Cursor} (p : Component → Bool), c.rest = [] → c.consume p = (none, c.skip) :=
    fun p h => by simp [consume, hskip h]
  refine ⟨?_, (append_eq_nil_iff.mp (hmoves.rest_eq.symm.trans h)).2⟩
  cases step with
  | peek => exact congrArg head? (hskip h)
  | consume p => exact congrArg Prod.fst (hconsume p h)
  | consumeField =>
    show c.consumeField.1 = none
    rw [consumeField, hconsume _ h]
    simp only [hconsume FontField.variant.accepts (hskip h),
      hconsume FontField.weight.accepts (hskip (hskip h))]
  | consumeRest =>
    show Component.writeTrimmed c.rest = []
    rw [h]
    rfl

/-- Once all that is left was taken, nothing is left. -/
theorem rest_runAll_of_mem (h : .consumeRest ∈ steps) (c : Cursor) : (runAll steps c).2.rest = [] := by
  induction steps generalizing c with
  | nil => contradiction
  | cons step steps ih =>
    rcases mem_cons.mp h with rfl | h
    · obtain ⟨cs, hmoves, -⟩ := exists_moves_runAll steps c.consumeRest.2
      have hend : c.consumeRest.2.rest = [] := by rw [consumeRest, rest_advance, drop_length]
      exact (append_eq_nil_iff.mp (hmoves.rest_eq.symm.trans hend)).2
    · exact ih h _

/-! ## Taking fields for as long as there are any

  The loop of the program as a run of single steps, which ends because each of them takes a component.
-/

/-- **The fields are taken by as many steps, and a last one that takes nothing.**  There are not more of
    them than significant components are left. -/
theorem exists_fields (v : FontValues) (c : Cursor) :
    ∃ fields : List (FontField × Component), fields.length ≤ (significant c.rest).length ∧
      c.consumeFields v = (fields.foldl (fun v f => f.1.set f.2.write v) v,
        (runAll (replicate (fields.length + 1) .consumeField) c).2) ∧
      (runAll (replicate (fields.length + 1) .consumeField) c).1 =
        fields.map (fun f => .field (some f)) ++ [.field none] := by
  fun_induction consumeFields v c with
  | case1 v c field d c' hstep ih =>
    obtain ⟨fields, hlen, heq, hanswers⟩ := ih
    obtain ⟨cs, hmoves, hcs⟩ := exists_moves_consumeField c
    rw [hstep] at hmoves hcs
    have hrun : Step.consumeField.run c = (.field (some (field, d)), c') := by rw [Step.run, hstep]
    refine ⟨(field, d) :: fields, ?_, ?_, ?_⟩
    · rw [hmoves.rest_eq, significant_append, hcs]
      exact Nat.succ_le_succ hlen
    · rw [length_cons, replicate_succ, runAll, hrun]
      exact heq
    · rw [length_cons, replicate_succ, runAll, hrun]
      simpa using hanswers
  | case2 v c c' hstep =>
    have hrun : Step.consumeField.run c = (.field none, c') := by rw [Step.run, hstep]
    exact ⟨[], Nat.zero_le _, by simp [runAll, hrun], by simp [runAll, hrun]⟩

/-! ## One way

  The statement about any run and any step behind it.
-/

/-- **A cursor loses, repeats and reorders nothing.**  After any steps from the start:

    - a step more does not go back, nor behind the end;
    - before all that is left is taken, the significant components are those that were taken, in order,
      and those that are still left;
    - a step that takes nothing leaves the significant components that are to come as they are, and the
      one that is looked at is the next of them;
    - once all that is left was taken, a step gives nothing;
    - taking fields for as long as there are any ends after as many as there are components at most. -/
theorem runAll_one_way (cs : List Component) (steps : List Step) (step : Step) (v : FontValues) :
    let before := (runAll steps (start cs)).2
    let answers := (runAll steps (start cs)).1
    let answer := (step.run before).1
    let after := (step.run before).2
    (before.position ≤ after.position ∧ after.position ≤ cs.length) ∧
    (.consumeRest ∉ steps →
      significant cs = takenAll steps answers ++ significant (cs.drop before.position)) ∧
    (step ≠ .consumeRest ∧ step.taken answer = [] →
      significant (cs.drop after.position) = significant (cs.drop before.position)) ∧
    (step = .peek → answer = .component (significant (cs.drop before.position)).head?) ∧
    (.consumeRest ∈ steps → answer.IsNothing) ∧
    ∃ fields : List (FontField × Component), fields.length ≤ cs.length ∧
      before.consumeFields v = (fields.foldl (fun v f => f.1.set f.2.write v) v,
        (runAll (replicate (fields.length + 1) .consumeField) before).2) ∧
      (runAll (replicate (fields.length + 1) .consumeField) before).1 =
        fields.map (fun f => .field (some f)) ++ [.field none] := by
  intro before answers answer after
  -- exists_moves_runAll := The steps together have moved over a front of the components, and the last step
  -- over the components behind it; each part of the statement is about one of the two.
  obtain ⟨xs, hxs, htaken⟩ := exists_moves_runAll steps (start cs)
  obtain ⟨ys, hys, hstep⟩ : ∃ ys, Moves before ys after ∧ _ := exists_moves_run step before
  have hbefore : before.rest = cs.drop before.position := by rw [rest, hxs.components_eq]; rfl
  have hafter : after.rest = cs.drop after.position := by rw [rest, hys.components_eq, hxs.components_eq]; rfl
  have hall : cs = xs ++ before.rest := hxs.rest_eq
  refine ⟨⟨?_, ?_⟩, fun hsteps => ?_, fun hnothing => ?_, ?_, fun hsteps => ?_, ?_⟩
  · rw [hys.position_eq]
    exact Nat.le_add_right _ _
  · have hle := after.position_le
    rwa [hys.components_eq, hxs.components_eq] at hle
  · rw [← hbefore, ← htaken hsteps, ← significant_append]
    exact congrArg significant hall
  · rw [← hbefore, ← hafter, hys.rest_eq, significant_append, hstep hnothing.1, hnothing.2, nil_append]
  · rintro rfl
    rw [← hbefore, ← peek_eq]
    rfl
  · exact (isNothing_run (rest_runAll_of_mem hsteps _) step).1
  · obtain ⟨fields, hlen, hfields⟩ := exists_fields v before
    refine ⟨fields, ?_, hfields⟩
    calc fields.length
      _ ≤ (significant before.rest).length := hlen
      _ ≤ before.rest.length := length_filter_le _ _
      _ ≤ cs.length := by rw [hbefore, length_drop]; exact Nat.sub_le _ _

/-- A style, a size and a family, with white space between. -/
def slantedSerif : List Component := Component.parse "italic  12px serif".toList

/-- Steps that look at the style, look for a slash, and take the style and the size. -/
def slantedSteps : List Step := [.peek, .consume Component.isSlash, .consumeField, .consume Component.isFontSize]

/-- Four steps over a style, a size and a family: a slash that is not there, the field, and the size are asked
    for in turn. -/
theorem slantedSerif_one_way :
    significant slantedSerif = takenAll slantedSteps (runAll slantedSteps (start slantedSerif)).1 ++
      significant (slantedSerif.drop (runAll slantedSteps (start slantedSerif)).2.position) ∧
    (significant (slantedSerif.drop ((Step.consume Component.isSlash).run (start slantedSerif)).2.position) =
      significant slantedSerif) ∧
    (Step.peek.run (start slantedSerif)).1 = .component (significant slantedSerif).head? ∧
    (Step.consumeField.run (runAll (slantedSteps ++ [.consumeRest]) (start slantedSerif)).2).1.IsNothing := by
  have hsteps : .consumeRest ∉ slantedSteps := by simp [slantedSteps]
  have hslash : (Step.consume Component.isSlash).taken ((Step.consume Component.isSlash).run
      (start slantedSerif)).1 = [] := isEmpty_iff.mp (by decide +kernel)
  have hrest : .consumeRest ∈ slantedSteps ++ [.consumeRest] := by simp
  obtain ⟨-, hall, -⟩ := runAll_one_way slantedSerif slantedSteps .peek .initial
  obtain ⟨-, -, hstays, -⟩ := runAll_one_way slantedSerif [] (.consume Component.isSlash) .initial
  obtain ⟨-, -, -, hnext, -⟩ := runAll_one_way slantedSerif [] .peek .initial
  obtain ⟨-, -, -, -, hnothing, -⟩ :=
    runAll_one_way slantedSerif (slantedSteps ++ [.consumeRest]) .consumeField .initial
  exact ⟨hall hsteps, hstays ⟨nofun, hslash⟩, hnext rfl, hnothing hrest⟩

end Cursor

end CssShorthand
