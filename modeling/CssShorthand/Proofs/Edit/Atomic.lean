/-
  TRANSACTIONS ARE ALL OR NOTHING, at every depth.

  1. `Edit.FailsAtOnce e`: work that fails has changed nothing and said nothing before.  It composes with
     work that never fails (`FailsAtOnce.bind`), and each step that is no transaction is of this kind
     (`failsAtOnce_run`): it asks first, and changes the store when nothing can fail any more.
  2. `bare` takes the transactions around the steps away, at every depth, and `runAll_append` runs
     steps in two parts.
  3. `Ends` says how the end of a run and the end of the bare run belong together.  It holds of a step
     and of steps, by one induction over both (`ends_run`, `ends_runAll`).

  Together: a step that fails leaves the store as it was, and one that succeeds does what its bare steps
  do (`run_atomic`).
-/
import CssShorthand.Edit.Script
import CssShorthand.Proofs.Edit.Outcome

namespace CssShorthand

/-! ## Work that fails at once or not at all

  The two kinds of work that steps are made of. A step that asks and then changes has no state in which half
  of it is done.
-/

namespace Edit

section

variable {α β : Type}

/-- The work ends without failure. -/
def Succeeds (e : Edit α) : Prop := ∀ j, ∃ a after, e.exec j = (.ok a, after)

/-- The work has not changed or said anything when it fails. -/
def FailsAtOnce (e : Edit α) : Prop := ∀ j f after, e.exec j = (.error f, after) → after = j

/-- Returning a value never fails. -/
theorem succeeds_pure (a : α) : Succeeds (pure a : Edit α) := fun j => ⟨a, j, rfl⟩

/-- A change by a function never fails. -/
theorem succeeds_change (f : Store → Store) : Succeeds (change f) := fun _ => ⟨(), _, rfl⟩

/-- Two edits that never fail, one after the other. -/
theorem Succeeds.bind {e : Edit α} {k : α → Edit β} (he : Succeeds e) (hk : ∀ a, Succeeds (k a)) :
    Succeeds (e >>= k) := by
  intro j
  obtain ⟨a, after, hrun⟩ := he j
  rw [exec_bind, hrun]
  exact hk a after

/-- What never fails leaves nothing half done. -/
theorem Succeeds.failsAtOnce {e : Edit α} (he : Succeeds e) : FailsAtOnce e := by
  intro j f after hrun
  obtain ⟨a, after', hok⟩ := he j
  rw [hok] at hrun
  simp at hrun

/-- An attempt that fails has written nothing, since the new store is computed before it is put in place. -/
theorem failsAtOnce_attempt (f : Store → Except Failure (Store × List Notice)) :
    FailsAtOnce (attempt f) := by
  intro j e after hrun
  cases hf : f j.store with
  | error e' =>
    rw [exec_attempt_error hf] at hrun
    exact (Prod.mk.inj hrun).2.symm
  | ok r =>
    rw [exec_attempt_ok hf] at hrun
    simp at hrun

/-- What comes after the work that may fail must not fail. -/
theorem FailsAtOnce.bind {e : Edit α} {k : α → Edit β} (he : FailsAtOnce e)
    (hk : ∀ a, Succeeds (k a)) : FailsAtOnce (e >>= k) := by
  intro j f after hrun
  rw [exec_bind] at hrun
  rcases hr : e.exec j with ⟨f' | a, mid⟩
  · rw [hr] at hrun
    obtain ⟨-, rfl⟩ := Prod.mk.inj hrun
    exact he j f' mid hr
  · rw [hr] at hrun
    obtain ⟨b, after', hok⟩ := hk a mid
    dsimp only at hrun
    rw [hok] at hrun
    simp at hrun

end

end Edit

namespace Step

open Edit (exec_bind Succeeds FailsAtOnce succeeds_pure succeeds_change failsAtOnce_attempt)

/-- A question changes nothing, whether it is answered or not. -/
theorem failsAtOnce_ask (question : Store → Except Failure Reply) : FailsAtOnce (ask question) := by
  intro j f after hrun
  have hcurrent : Edit.exec Edit.current j = (.ok j.store, j) := rfl
  rw [ask, exec_bind, hcurrent] at hrun
  dsimp only at hrun
  -- either way the journal is the one that was asked
  cases hq : question j.store with
  | error e =>
    rw [hq] at hrun
    exact (Prod.mk.inj hrun).2.symm
  | ok r =>
    rw [hq] at hrun
    exact (Prod.mk.inj hrun).2.symm

/-- Deleting never fails. -/
theorem succeeds_work_change (f : Store → Store) : Succeeds (work (Edit.change f)) :=
  (succeeds_change f).bind fun _ => succeeds_pure _

/-- Whether the step is made of steps. -/
def isTransaction : Step → Bool
  | .transaction _ _ => true
  | _ => false

/-- A single step that fails has not changed anything. -/
theorem failsAtOnce_run {step : Step} (h : step.isTransaction = false) : FailsAtOnce (run step) := by
  cases step with
  | transaction steps aborts => contradiction
  | add name value important =>
    rw [run]
    exact (succeeds_work_change _).failsAtOnce
  | delete name =>
    rw [run]
    exact (failsAtOnce_ask _).bind fun r => (succeeds_change _).bind fun _ => succeeds_pure r
  | remove name =>
    rw [run]
    exact (failsAtOnce_ask _).bind fun _ => succeeds_work_change _
  | replace name replacements keepImportance =>
    rw [run]
    exact (failsAtOnce_attempt _).bind fun _ => succeeds_pure _
  | expand name =>
    rw [run]
    exact (failsAtOnce_attempt _).bind fun _ => succeeds_pure _
  | find _ | lookup _ | lookupText _ | contains _ | names | size | text _ | label | equals _
  | equalsCopy =>
    rw [run]
    exact failsAtOnce_ask _

/-! ## The same steps without transactions

  What is compared with a run: its steps in the same order with no transaction around them.
-/

mutual

/-- What a step does, without the transactions around it. -/
def bare : Step → List Step
  | .transaction steps _ => bareAll steps
  | step => [step]

/-- What steps do, without the transactions around it. -/
def bareAll : List Step → List Step
  | [] => []
  | step :: steps => bare step ++ bareAll steps

end

mutual

/-- Whether a transaction of the step, at any depth, is to be undone after its steps. -/
def aborts : Step → Bool
  | .transaction steps aborted => aborted || abortsAny steps
  | _ => false

/-- Whether a transaction of the steps, at any depth, is to be undone after its steps. -/
def abortsAny : List Step → Bool
  | [] => false
  | step :: steps => aborts step || abortsAny steps

end

/-- A step that is no transaction is bare. -/
theorem bare_of_single {step : Step} (h : step.isTransaction = false) : bare step = [step] := by
  cases step <;> first | rfl | contradiction

mutual

/-- No transaction is left. -/
theorem isTransaction_of_mem_bare : (step : Step) →
    ∀ x ∈ bare step, x.isTransaction = false
  | .transaction steps _, x, hx => by
    rw [bare] at hx
    exact isTransaction_of_mem_bareAll steps x hx
  | .add .., x, hx | .delete _, x, hx | .remove _, x, hx | .replace .., x, hx | .expand _, x, hx
  | .find _, x, hx | .lookup _, x, hx | .lookupText _, x, hx | .contains _, x, hx | .names, x, hx
  | .size, x, hx | .text _, x, hx | .label, x, hx | .equals _, x, hx | .equalsCopy, x, hx => by
    rw [bare_of_single rfl, List.mem_singleton] at hx
    rw [hx]
    rfl

/-- No transaction is left in a bare list of steps; the two statements go by induction on the nested program.
    -/
theorem isTransaction_of_mem_bareAll : (steps : List Step) →
    ∀ x ∈ bareAll steps, x.isTransaction = false
  | [], x, hx => by
    rw [bareAll] at hx
    contradiction
  | step :: steps, x, hx => by
    rw [bareAll, List.mem_append] at hx
    rcases hx with hx | hx
    · exact isTransaction_of_mem_bare step x hx
    · exact isTransaction_of_mem_bareAll steps x hx

end

/-! ## Steps in turn

  How a run is taken apart.
-/

/-- No steps do nothing. -/
theorem runAll_nil (j : Journal) : (runAll []).exec j = (.ok [], j) := by
  rw [runAll]
  rfl

/-- Steps are run in order up to the first that fails. -/
theorem runAll_cons (step : Step) (steps : List Step) (j : Journal) :
    (runAll (step :: steps)).exec j =
      match (run step).exec j with
      | (.error f, after) => (.error f, after)
      | (.ok r, mid) =>
        match (runAll steps).exec mid with
        | (.error f, after) => (.error f, after)
        | (.ok rs, after) => (.ok (r :: rs), after) := by
  rw [runAll, exec_bind]
  rcases (run step).exec j with ⟨f | r, mid⟩
  · rfl
  · dsimp only
    rw [exec_bind]
    rcases (runAll steps).exec mid with ⟨f | rs, after⟩ <;> rfl

/-- Steps and then more steps. -/
theorem runAll_append (xs ys : List Step) (j : Journal) :
    (runAll (xs ++ ys)).exec j =
      match (runAll xs).exec j with
      | (.error f, after) => (.error f, after)
      | (.ok rs, mid) =>
        match (runAll ys).exec mid with
        | (.error f, after) => (.error f, after)
        | (.ok rs', after) => (.ok (rs ++ rs'), after) := by
  induction xs generalizing j with
  | nil =>
    rw [List.nil_append, runAll_nil]
    dsimp only [List.nil_append]
    rcases (runAll ys).exec j with ⟨f | rs, after⟩ <;> rfl
  | cons x xs ih =>
    rw [List.cons_append, runAll_cons, runAll_cons]
    rcases (run x).exec j with ⟨f | r, mid⟩
    · rfl
    · dsimp only
      rw [ih]
      rcases (runAll xs).exec mid with ⟨f | rs, mid'⟩
      · rfl
      · dsimp only
        rcases (runAll ys).exec mid' with ⟨f | rs', after⟩ <;> rfl

/-! ## A run and the bare run

  The relation covers success, failure of a step, and a transaction that was told to fail.
-/

/-- How a run and the bare run end: both succeed with the same journal, or both fail for the same
    reason, or the run alone is undone since a transaction says so. -/
inductive Ends {α : Type} (aborts : Bool) :
    Except Failure α × Journal → Except Failure (List Reply) × Journal → Prop where
  | done {a : α} {rs : List Reply} {after : Journal} : aborts = false →
      Ends aborts (.ok a, after) (.ok rs, after)
  | failed {f : Failure} {after after' : Journal} : Ends aborts (.error f, after) (.error f, after')
  | undone {after : Journal} {r : Except Failure (List Reply) × Journal} : aborts = true →
      Ends aborts (.error .aborted, after) r

/-- A single step is its own bare run. -/
theorem ends_of_single {step : Step} (h : step.isTransaction = false) (j : Journal) :
    Ends (aborts step) ((run step).exec j) ((runAll (bare step)).exec j) := by
  have haborts : aborts step = false := by cases step <;> first | rfl | contradiction
  rw [bare_of_single h, runAll_cons]
  rcases (run step).exec j with ⟨f | r, after⟩
  · exact .failed
  · dsimp only
    rw [runAll_nil]
    exact .done haborts

mutual

/-- A step ends as its bare run does, unless a transaction of it is undone. -/
theorem ends_run : (step : Step) → (j : Journal) →
    Ends (aborts step) ((run step).exec j) ((runAll (bare step)).exec j)
  | .transaction steps aborted, j => by
    have hsteps := ends_runAll steps j
    rw [run, bare, aborts, Edit.exec_transaction, exec_bind]
    generalize (runAll steps).exec j = inner at hsteps ⊢
    generalize (runAll (bareAll steps)).exec j = bareInner at hsteps ⊢
    cases hsteps with
    | failed => exact .failed
    | undone habort => exact .undone (by rw [habort, Bool.or_true])
    | done hnone =>
      -- all steps are done, and the transaction itself decides
      cases aborted with
      | true => exact .undone rfl
      | false => exact .done hnone
  | .add .., j | .delete _, j | .remove _, j | .replace .., j | .expand _, j
  | .find _, j | .lookup _, j | .lookupText _, j | .contains _, j | .names, j
  | .size, j | .text _, j | .label, j | .equals _, j | .equalsCopy, j => ends_of_single rfl j

/-- So do steps one after the other, up to the first that fails. -/
theorem ends_runAll : (steps : List Step) → (j : Journal) →
    Ends (abortsAny steps) ((runAll steps).exec j) ((runAll (bareAll steps)).exec j)
  | [], j => by
    rw [bareAll, runAll_nil, abortsAny]
    exact .done rfl
  | step :: steps, j => by
    have hstep := ends_run step j
    rw [bareAll, abortsAny, runAll_append, runAll_cons]
    generalize (run step).exec j = first at hstep ⊢
    generalize (runAll (bare step)).exec j = bareFirst at hstep ⊢
    cases hstep with
    | failed => exact .failed
    | undone habort => exact .undone (by rw [habort, Bool.true_or])
    | done hnone =>
      rename_i r rs mid
      -- both go on from the same journal
      have hrest := ends_runAll steps mid
      dsimp only
      generalize (runAll steps).exec mid = rest at hrest ⊢
      generalize (runAll (bareAll steps)).exec mid = bareRest at hrest ⊢
      cases hrest with
      | failed => exact .failed
      | undone habort => exact .undone (by rw [habort, Bool.or_true])
      | done hnone' => exact .done (by rw [hnone, hnone', Bool.or_false])

end

/-! ## All or nothing

  The two halves put together.
-/

/-- A step that fails leaves the store as it was. -/
theorem store_of_run_error {step : Step} {j after : Journal} {f : Failure}
    (h : (run step).exec j = (.error f, after)) : after.store = j.store := by
  cases hstep : step.isTransaction with
  | false => rw [failsAtOnce_run hstep j f after h]
  | true =>
    cases step with
    | transaction steps aborted =>
      rw [run] at h
      have hfail := Edit.store_of_transaction_error (congrArg Prod.fst h)
      rwa [h] at hfail
    | _ => contradiction

/-- **Transactions are all or nothing.**  Without failure a step, whatever transactions it is made of,
    does what its bare steps do, none of which is a transaction, and nothing in it says that it is to
    be undone.  With a failure, at any depth, the store is as it was before the step; and the failure is
    the one that the bare steps end with, unless a transaction says that it is to be undone. -/
theorem run_atomic (step : Step) (j : Journal) :
    (∀ x ∈ bare step, x.isTransaction = false) ∧
    match (run step).exec j with
    | (.ok _, after) =>
      aborts step = false ∧ ∃ rs, (runAll (bare step)).exec j = (.ok rs, after)
    | (.error f, after) =>
      after.store = j.store ∧
        (((runAll (bare step)).exec j).1 = .error f ∨ f = .aborted ∧ aborts step = true) := by
  refine ⟨isTransaction_of_mem_bare step, ?_⟩
  have hends := ends_run step j
  rcases hrun : (run step).exec j with ⟨f | r, after⟩
  · refine ⟨store_of_run_error hrun, ?_⟩
    rw [hrun] at hends
    generalize (runAll (bare step)).exec j = bareRun at hends ⊢
    cases hends with
    | failed => exact Or.inl rfl
    | undone habort => exact Or.inr ⟨rfl, habort⟩
  · rw [hrun] at hends
    dsimp only
    generalize (runAll (bare step)).exec j = bareRun at hends ⊢
    cases hends with
    | done hnone => exact ⟨hnone, _, rfl⟩

end Step

end CssShorthand
