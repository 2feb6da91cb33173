/-
  SESSIONS: what steps leave in a store whose values are all given as texts.

  1. `Edit.Keeps I e` says that a piece of work keeps a property of the store, also where it fails; it
     composes over the pieces of work (`Keeps.bind`, `keeps_attempt`, `Keeps.transaction`).
  2. Each operation of a store keeps `Store.Cleaned p`: every value is what cleaning leaves of a text
     with the property `p`, if the texts that are given have it (`Cleaned.add`, `Cleaned.replace`), and
     those that an expansion makes of such values (`Cleaned.expand`).
  3. So does each step, and then each session (`keeps_run`, `cleaned_session`).

  Hence every value is trimmed and not empty, but `stored_in_session` says exactly when it is clean: the
  text that it was made from must not hide a mark or a semicolon behind what cleaning takes away, and
  `not_clean_in_session` has a text that does.
-/
import CssShorthand.Edit.Script
import CssShorthand.Proofs.Declaration.Uncovered
import CssShorthand.Proofs.Edit.Outcome
import CssShorthand.Proofs.Entries

namespace CssShorthand

/-! ## Work that keeps a property of the store

  An invariant has to hold after a failure as well, since a session goes on with the next step.
-/

namespace Edit

section

variable {α β : Type} {I : Store → Prop}

/-- The work keeps the property of the store, also if it fails. -/
def Keeps (I : Store → Prop) (e : Edit α) : Prop := ∀ j, I j.store → I (e.exec j).2.store

/-- Returning a value keeps every invariant. -/
theorem keeps_pure (a : α) : Keeps I (pure a : Edit α) := fun _ h => h

/-- Failing keeps every invariant. -/
theorem keeps_throw (f : Failure) : Keeps I (throw f : Edit α) := fun _ h => h

/-- Two edits that keep an invariant, one after the other. -/
theorem Keeps.bind {e : Edit α} {k : α → Edit β} (he : Keeps I e) (hk : ∀ a, Keeps I (k a)) :
    Keeps I (e >>= k) := by
  intro j hj
  have hafter := he j hj
  rw [exec_bind]
  rcases hr : e.exec j with ⟨f | a, j'⟩
  · rwa [hr] at hafter
  · rw [hr] at hafter
    exact hk a j' hafter

/-- A change keeps what its function keeps. -/
theorem keeps_change {f : Store → Store} (h : ∀ s, I s → I (f s)) : Keeps I (change f) :=
  fun j hj => h j.store hj

/-- An attempt keeps what its function keeps when it succeeds. When it fails the store is not touched. -/
theorem keeps_attempt {f : Store → Except Failure (Store × List Notice)}
    (h : ∀ s r, I s → f s = .ok r → I r.1) : Keeps I (attempt f) := by
  intro j hj
  cases hf : f j.store with
  | error e =>
    rw [exec_attempt_error hf]
    exact hj
  | ok r =>
    obtain ⟨s, notices⟩ := r
    rw [exec_attempt_ok hf]
    exact h j.store (s, notices) hj hf

/-- What a transaction undoes is as it was. -/
theorem Keeps.transaction {e : Edit α} (h : Keeps I e) : Keeps I (Edit.transaction e) := by
  intro j hj
  have hafter := h j hj
  rw [exec_transaction]
  rcases hr : e.exec j with ⟨f | a, j'⟩
  · exact hj
  · rwa [hr] at hafter

end

end Edit

namespace Value

/-- The value is a text, or something simple that stands for its text. -/
def isText : Value → Bool
  | .declaration _ => false
  | _ => true

/-- A text is stored cleaned. -/
theorem declaration?_of_isText {v : Value} (h : v.isText = true) (important : Bool) :
    v.declaration? important = declarationOfText? v.toText important := by
  cases v <;> first | rfl | contradiction

end Value

namespace Entries

/-- An entry of the new store was there before or is inserted. -/
theorem mem_spliced {before inserted after : Entries Declaration} {e : String × Declaration}
    (h : e ∈ Store.spliced before inserted after) : e ∈ before ++ after ∨ e ∈ inserted := by
  simp only [Store.spliced, Entries.without, List.mem_append, List.mem_filter] at h ⊢
  tauto

end Entries

/-! ## Values that are cleaned texts

  The invariant, with a property of the texts left open; a session later fixes it to those texts that can
  arise from what is given.
-/

namespace Store

/-- Every value is not empty, and is what cleaning leaves of a text with the property. -/
def Cleaned (p : Text → Prop) (s : Store) : Prop :=
  ∀ e ∈ s.entries, e.2.value ≠ [] ∧ ∃ t, p t ∧ e.2.value = (Cleaning.clean t).1

variable {p : Text → Prop} {s : Store}

/-- The empty store is clean. -/
theorem cleaned_empty (p : Text → Prop) : empty.Cleaned p := by
  intro e he
  contradiction

/-- Deleting keeps a store clean. -/
theorem Cleaned.delete (h : s.Cleaned p) (name : String) : (s.delete name).Cleaned p :=
  fun e he => h e (Entries.mem_erase_iff.mp he).1

/-- Adding a text keeps a store clean: the text is cleaned, and an empty one is not stored. -/
theorem Cleaned.add (h : s.Cleaned p) (name : String) {v : Value} (important : Bool)
    (hv : v.isText = true) (hp : p v.toText) : (s.add name v important).Cleaned p := by
  unfold Store.add
  rw [Value.declaration?_of_isText hv, Value.declarationOfText?]
  split
  · rename_i d hd
    split at hd
    · contradiction
    · rename_i hne
      obtain rfl := Option.some.inj hd
      intro e he
      rcases (Entries.mem_put_iff s.nodup_names).mp he with rfl | ⟨-, he⟩
      · exact ⟨by simpa using hne, v.toText, hp, rfl⟩
      · exact h e he
  · exact h.delete name

/-- Adding several texts keeps a store clean. By induction on them. -/
theorem Cleaned.addAll (h : s.Cleaned p) {l : List (String × Value)}
    (hl : ∀ e ∈ l, e.2.isText = true ∧ p e.2.toText) : (s.addAll l).Cleaned p := by
  induction l generalizing s with
  | nil => exact h
  | cons e l ih =>
    obtain ⟨hv, hp⟩ := hl e List.mem_cons_self
    exact ih (h.add e.1 false hv hp) fun x hx => hl x (List.mem_cons_of_mem _ hx)

/-- A replacement stores what is given, and what was there. -/
theorem Cleaned.replace (h : s.Cleaned p) {name : String} {replacements : List (String × Value)}
    {keepImportance : Bool} {t : Store} (ht : s.replace name replacements keepImportance = .ok t)
    (hr : ∀ e ∈ replacements, e.2.isNothing = false → e.2.isText = true ∧ p e.2.toText) :
    t.Cleaned p := by
  unfold Store.replace at ht
  split at ht
  · contradiction
  · rename_i before replaced after hsplit
    obtain rfl := Except.ok.inj ht
    have hnew : (ofReplacements replacements).Cleaned p := (cleaned_empty p).addAll fun e he => by
      obtain ⟨he, hsome⟩ := List.mem_filter.mp he
      exact hr e he (by simpa using hsome)
    intro e he
    rcases Entries.mem_spliced he with he | he
    · have hin : e ∈ s.entries := by
        rw [Entries.splitAt?_eq_some hsplit]
        simp only [List.mem_append, List.mem_cons] at he ⊢
        tauto
      exact h e hin
    · -- An inserted declaration has a new value, whatever its importance.
      obtain ⟨x, hx, rfl⟩ := List.mem_map.mp (List.mem_filter.mp he).1
      exact hnew x hx

/-- An expansion stores what it makes of a value, and what was there. -/
theorem Cleaned.expand (h : s.Cleaned p) {name : String} {r : Store × List Notice}
    (hr : s.expand name = .ok r)
    (hp : ∀ t entries ignored, p t → expandValue name (Cleaning.clean t).1 = .ok (.longhands entries ignored) →
      ∀ e ∈ entries, p e.2) : r.1.Cleaned p := by
  unfold Store.expand at hr
  split at hr
  · obtain rfl := Except.ok.inj hr
    exact h
  · rename_i d hd
    obtain ⟨-, t, ht, hvalue⟩ := h _ ((Entries.find?_eq_some_iff s.nodup_names).mp hd)
    dsimp only at hvalue
    split at hr
    · contradiction
    · obtain rfl := Except.ok.inj hr
      exact h
    · rename_i entries ignored hentries
      split at hr
      · contradiction
      · rename_i u hu
        obtain rfl := Except.ok.inj hr
        refine h.replace hu fun e he _ => ?_
        obtain ⟨x, hx, rfl⟩ := List.mem_map.mp he
        exact ⟨rfl, hp t entries ignored ht (hvalue ▸ hentries) x hx⟩

end Store

/-! ## Steps

  By recursion over steps and lists of steps, as transactions hold steps.
-/

namespace Step

mutual

/-- The values that a step gives. -/
def values : Step → List Value
  | .add _ value _ => [value]
  | .replace _ replacements _ => (replacements.filter fun e => !e.2.isNothing).map (·.2)
  | .transaction steps _ => valuesAll steps
  | _ => []

/-- The values that steps give. -/
def valuesAll : List Step → List Value
  | [] => []
  | step :: steps => values step ++ valuesAll steps

end

/-- The texts that values are made from: those that are given, and those that an expansion makes. -/
inductive Made (values : List Value) : Text → Prop where
  | given {v : Value} : v ∈ values → Made values v.toText
  | expanded {t : Text} {name : String} {entries : List (String × Text)} {ignored : Text}
      {e : String × Text} : Made values t →
      expandValue name (Cleaning.clean t).1 = .ok (.longhands entries ignored) → e ∈ entries →
      Made values e.2

/-- Does steps one after the other, whether they fail or not, from a store without declarations. -/
def session (steps : List Step) : Store :=
  steps.foldl (fun s step => ((run step).exec ⟨s, []⟩).2.store) .empty

section

variable {p : Text → Prop}

/-- The texts that an expansion makes of texts with the property have it too. -/
def Closed (p : Text → Prop) : Prop :=
  ∀ name t entries ignored, p t →
    expandValue name (Cleaning.clean t).1 = .ok (.longhands entries ignored) → ∀ e ∈ entries, p e.2

/-- A question keeps every invariant. -/
theorem keeps_ask {I : Store → Prop} (question : Store → Except Failure Reply) :
    Edit.Keeps I (ask question) := by
  intro j hj
  unfold ask
  rw [Edit.exec_bind]
  have hcurrent : Edit.exec Edit.current j = (.ok j.store, j) := rfl
  rw [hcurrent]
  dsimp only
  cases question j.store with
  | ok r => exact hj
  | error e => exact hj

/-- Only the answer is set aside. -/
theorem keeps_work {I : Store → Prop} {e : Edit Unit} (h : Edit.Keeps I e) : Edit.Keeps I (work e) :=
  h.bind fun _ => Edit.keeps_pure _

/-- Deleting keeps a store clean. -/
theorem keeps_delete (name : String) : Edit.Keeps (Store.Cleaned p) (Edit.change (·.delete name)) :=
  Edit.keeps_change fun _ h => h.delete name

mutual

/-- **A step keeps the values cleaned texts**, whether it fails or not. -/
theorem keeps_run (hp : Closed p) : (step : Step) →
    (∀ v ∈ values step, v.isText = true ∧ p v.toText) → Edit.Keeps (Store.Cleaned p) (run step)
  | .add name value important, h => by
    obtain ⟨hv, hvp⟩ := h value (by simp [values])
    rw [run]
    exact keeps_work (Edit.keeps_change fun _ hs => hs.add name important hv hvp)
  | .delete name, _ => by
    rw [run]
    exact (keeps_ask _).bind fun _ => (keeps_delete name).bind fun _ => Edit.keeps_pure _
  | .remove name, _ => by
    rw [run]
    exact (keeps_ask _).bind fun _ => keeps_work (keeps_delete name)
  | .replace name replacements keepImportance, h => by
    rw [run]
    refine keeps_work (Edit.keeps_attempt fun s r hs hr => ?_)
    split at hr
    · rename_i t ht
      obtain rfl := Except.ok.inj hr
      refine hs.replace ht fun e he hsome => h e.2 ?_
      rw [values]
      exact List.mem_map_of_mem (List.mem_filter.mpr ⟨he, by simp [hsome]⟩)
    · contradiction
  | .expand name, _ => by
    rw [run]
    exact keeps_work (Edit.keeps_attempt fun _ _ hs hr => hs.expand hr (hp name))
  | .transaction steps aborts, h => by
    rw [run]
    refine Edit.Keeps.transaction ((keeps_runAll hp steps (by simpa [values] using h)).bind fun rs => ?_)
    split
    · exact Edit.keeps_throw _
    · exact Edit.keeps_pure _
  | .find _, _ | .lookup _, _ | .lookupText _, _ | .contains _, _ | .names, _ | .size, _ | .text _, _
  | .label, _ | .equals _, _ | .equalsCopy, _ => by
    rw [run]
    exact keeps_ask _

/-- So do steps one after the other, up to the first that fails. -/
theorem keeps_runAll (hp : Closed p) : (steps : List Step) →
    (∀ v ∈ valuesAll steps, v.isText = true ∧ p v.toText) →
    Edit.Keeps (Store.Cleaned p) (runAll steps)
  | [], _ => by
    rw [runAll]
    exact Edit.keeps_pure _
  | step :: steps, h => by
    rw [valuesAll] at h
    rw [runAll]
    exact (keeps_run hp step fun v hv => h v (List.mem_append_left _ hv)).bind fun r =>
      (keeps_runAll hp steps fun v hv => h v (List.mem_append_right _ hv)).bind fun rs =>
        Edit.keeps_pure _

end

end

/-- A value of a step is a value of the program. -/
theorem mem_valuesAll {steps : List Step} {step : Step} (h : step ∈ steps) {v : Value}
    (hv : v ∈ values step) : v ∈ valuesAll steps := by
  induction steps with
  | nil => contradiction
  | cons first steps ih =>
    rw [valuesAll, List.mem_append]
    rcases List.mem_cons.mp h with rfl | h
    · exact Or.inl hv
    · exact Or.inr (ih h)

/-- The texts that a program makes are closed under expansion. -/
theorem closed_made (values : List Value) : Closed (Made values) :=
  fun _ _ _ _ ht hentries _ he => .expanded ht hentries he

/-- **A session leaves cleaned texts**, which were given or made by an expansion. -/
theorem cleaned_session {steps : List Step} (h : ∀ v ∈ valuesAll steps, v.isText = true) :
    (session steps).Cleaned (Made (valuesAll steps)) := by
  have hrun : ∀ (some : List Step) (s : Store), some ⊆ steps → s.Cleaned (Made (valuesAll steps)) →
      (some.foldl (fun s step => ((run step).exec ⟨s, []⟩).2.store) s).Cleaned
        (Made (valuesAll steps)) := by
    intro some
    induction some with
    | nil => exact fun _ _ hs => hs
    | cons step rest ih =>
      intro s hsome hs
      refine ih _ (fun x hx => hsome (List.mem_cons_of_mem _ hx)) ?_
      refine keeps_run (closed_made _) step (fun v hv => ?_) ⟨s, []⟩ hs
      have hgiven := mem_valuesAll (hsome List.mem_cons_self) hv
      exact ⟨h v hgiven, .given hgiven⟩
  exact hrun steps .empty (List.Subset.refl _) (Store.cleaned_empty _)

/-! ## What is stored and written back

  The invariant read off the last store, entry by entry.
-/

/-- Declaring a declared name again changes nothing if and only if it makes the same declaration. -/
theorem add_eq_self_iff {s : Store} {e : String × Declaration} (he : e ∈ s.entries) {v : Value}
    {important : Bool} : s.add e.1 v important = s ↔ v.declaration? important = some e.2 := by
  have hname : trimName e.1 = e.1 := s.trimName_of_mem _ (Entries.mem_names_of_mem he)
  have hget : s.get? e.1 = some e.2 := by
    rw [Store.get?, hname]
    exact (Entries.find?_eq_some_iff s.nodup_names).mpr he
  constructor
  · intro h
    have hadd := s.get?_add e.1 e.1 v important
    rwa [h, if_pos rfl, hget, eq_comm] at hadd
  · intro h
    rw [Store.add, h]
    refine Store.ext ?_
    show s.entries.put (trimName e.1) e.2 = s.entries
    rw [hname]
    exact Entries.put_eq_self s.nodup_names he

/-- **What a session stores.**  Whatever steps are done that give their values as texts, failing ones and
    transactions among them, every name that is then declared is trimmed, and every value is trimmed, not
    empty, and what cleaning leaves of a text that was given or that an expansion made.  The value has a
    mark if and only if this text hides one, and a semicolon at its end if and only if the text hides
    one; and the declaration can be written back as it is read if and only if the text hides no mark,
    and no semicolon that stands at the very end. -/
theorem stored_in_session (steps : List Step) (h : ∀ v ∈ valuesAll steps, v.isText = true) :
    ∀ e ∈ (session steps).entries, trimName e.1 = e.1 ∧ e.2.value ≠ [] ∧
      Text.trim e.2.value = e.2.value ∧
      ∃ t, Made (valuesAll steps) t ∧ e.2.value = (Cleaning.clean t).1 ∧
        (Cleaning.HasMark e.2.value ↔ Cleaning.HidesMark t) ∧
        (e.2.value.getLast? = some ';' ↔ Cleaning.HidesSemicolon t) ∧
        ((session steps).add e.1 (.text e.2.text) false = session steps ↔
          ¬Cleaning.HidesMark t ∧ (e.2.important = true ∨ ¬Cleaning.HidesSemicolon t)) := by
  intro e he
  obtain ⟨hne, t, ht, hvalue⟩ := cleaned_session h e he
  have hmark : Cleaning.HasMark e.2.value ↔ Cleaning.HidesMark t :=
    hvalue ▸ Cleaning.hasMark_clean_iff t
  have hsemicolon : e.2.value.getLast? = some ';' ↔ Cleaning.HidesSemicolon t :=
    hvalue ▸ Cleaning.getLast?_clean_iff t
  have htrim : Text.trim e.2.value = e.2.value := hvalue ▸ Cleaning.trim_clean t
  refine ⟨(session steps).trimName_of_mem _ (Entries.mem_names_of_mem he), hne, htrim, t, ht, hvalue,
    hmark, hsemicolon, ?_⟩
  rw [add_eq_self_iff he, ← hmark, ← hsemicolon]
  exact Cleaning.declarationOfText?_text_iff htrim hne

/-- A session with a shorthand that is expanded, a step that fails, and a transaction that is undone. -/
def mixed : List Step :=
  [.add "margin" (.text "1px 2px !important;".toList) false, .expand "margin", .remove "color",
    .transaction [.delete "margin-top", .add "a" (.text "b ! c;".toList) false] true,
    .replace "margin-left" [("left", .text "3px;;".toList), ("right", .nothing)] true]

/-- What is declared last in this session: of two semicolons one is left. -/
def mixedLast : String × Declaration := ("left", ⟨"3px;".toList, true⟩)

/-- Texts with a mark, two semicolons and a broken mark, added and replaced inside and outside of a
    transaction: the one stored last has lost one of its two semicolons. -/
theorem mixed_stored : mixedLast ∈ (session mixed).entries ∧ trimName mixedLast.1 = mixedLast.1 ∧
    mixedLast.2.value ≠ [] ∧ Text.trim mixedLast.2.value = mixedLast.2.value ∧
    ∃ t, Made (valuesAll mixed) t ∧ mixedLast.2.value = (Cleaning.clean t).1 ∧
      (Cleaning.HasMark mixedLast.2.value ↔ Cleaning.HidesMark t) ∧
      (mixedLast.2.value.getLast? = some ';' ↔ Cleaning.HidesSemicolon t) ∧
      ((session mixed).add mixedLast.1 (.text mixedLast.2.text) false = session mixed ↔
        ¬Cleaning.HidesMark t ∧ (mixedLast.2.important = true ∨ ¬Cleaning.HidesSemicolon t)) := by
  have hall : (valuesAll mixed).all Value.isText = true := by rfl
  have hmem : mixedLast ∈ (session mixed).entries := by decide +kernel
  exact ⟨hmem, stored_in_session mixed (List.all_eq_true.mp hall) mixedLast hmem⟩

example : (session mixed).text false =
    ("margin-top: 1px !important; margin-right: 2px !important; margin-bottom: 1px !important; " ++
      "left: 3px; !important;").toList := by
  decide +kernel   -- the last value is `3px;`

/-- **What is stored is not always clean**: of two semicolons at the end of a text one is stored, which
    is lost when the declaration is written back as it is read. -/
theorem not_clean_in_session :
    ¬ ∀ steps : List Step, (∀ v ∈ valuesAll steps, v.isText = true) →
      ∀ e ∈ (session steps).entries, trimName e.1 = e.1 ∧ e.2.value ≠ [] ∧
        Text.trim e.2.value = e.2.value ∧ e.2.value.getLast? ≠ some ';' ∧
        ¬Cleaning.HasMark e.2.value ∧
        (session steps).add e.1 (.text e.2.text) false = session steps := by
  intro h
  have hentries : (session [.add "a" (.text "x;;".toList) false]).entries = [("a", ⟨"x;".toList, false⟩)] := by
    decide +kernel
  have hclean := h [.add "a" (.text "x;;".toList) false] (by simp [valuesAll, values, Value.isText])
    ("a", ⟨"x;".toList, false⟩) (by rw [hentries]; exact List.mem_singleton.mpr rfl)
  exact absurd rfl hclean.2.2.2.1

end Step

end CssShorthand
