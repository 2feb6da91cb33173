/-
  WHAT AN EDIT LEAVES BEHIND.

  `Edit.after` is the store that a piece of work leaves, or why it fails; what is said along the way is
  left aside.  `Edit.Does e f` says that `e` does to every store what the function `f` does, whatever
  was said before, and composes: in sequence, over a list, and in a transaction.

  The main statement is `does_expandAll`: expanding all shorthands is expanding one after the other,
  in the order of `Shorthand.all`.

  `Edit.Quietly e s t` says of one store that the work succeeds on it and says nothing.
-/
import CssShorthand.Edit.Basic

namespace CssShorthand

namespace Store

/-- Expands the shorthands of these names, one after the other. -/
def expandEach (names : List String) (s : Store) : Except Failure Store :=
  names.foldlM (fun s n => (s.expand n).map (·.1)) s

/-- The first shorthand is expanded, then the others. -/
theorem expandEach_cons (n : String) (names : List String) (s : Store) :
    s.expandEach (n :: names) = (s.expand n).map (·.1) >>= Store.expandEach names :=
  List.foldlM_cons

end Store

namespace Edit

/-- The store that is left, or why there is none. -/
def outcome {α : Type} (r : Except Failure α × Journal) : Except Failure Store :=
  match r.1 with
  | .ok _ => .ok r.2.store
  | .error f => .error f

/-- The store that a piece of work leaves, or why it fails. -/
def after {α : Type} (e : Edit α) (s : Store) : Except Failure Store := outcome (e.exec ⟨s, []⟩)

/-- The entries of the store that is left, none if the work fails. -/
def leaves (e : Edit Unit) (s : Store) : Entries Declaration :=
  match e.after s with
  | .ok t => t.entries
  | .error _ => []

/-- An edit that succeeds leaves the entries of its store. -/
theorem leaves_of_ok {e : Edit Unit} {s t : Store} (h : e.after s = .ok t) :
    e.leaves s = t.entries := by
  rw [leaves, h]

/-- A result that is not an error holds a value. -/
theorem exists_of_isOk {α : Type} {r : Except Failure α} (h : r.isOk = true) : ∃ a, r = .ok a := by
  cases r with
  | error f => contradiction
  | ok a => exact ⟨a, rfl⟩

/-- The work does to every store what the function does, whatever was said before. -/
def Does {α : Type} (e : Edit α) (f : Store → Except Failure Store) : Prop :=
  ∀ j, outcome (e.exec j) = f j.store

/-- What an edit does is what it leaves behind. -/
theorem Does.after_eq {α : Type} {e : Edit α} {f : Store → Except Failure Store} (h : Does e f)
    (s : Store) : e.after s = f s :=
  h ⟨s, []⟩

/-! ## Pieces of work

  Each operation by what it does to a store; the notices are carried along without being looked at.
-/

/-- Nothing is done by doing nothing. -/
theorem does_pure : Does (pure ()) .ok := fun _ => rfl

/-- The second edit starts from the journal that the first one left. -/
theorem exec_bind {α β : Type} (e : Edit α) (k : α → Edit β) (j : Journal) :
    exec (e >>= k) j =
      match e.exec j with
      | (.ok a, j') => (k a).exec j'
      | (.error f, j') => (.error f, j') := by
  unfold exec
  rw [ExceptT.run_bind, StateT.run_bind]
  rcases (ExceptT.run e).run j with ⟨_ | a, j'⟩ <;> rfl

/-- Work in sequence. -/
theorem Does.seq {α β : Type} {e : Edit α} {e' : Edit β} {f g : Store → Except Failure Store}
    (h : Does e f) (h' : Does e' g) : Does (e >>= fun _ => e') fun s => f s >>= g := by
  intro j
  have hj := h j
  rw [exec_bind]
  rcases hr : e.exec j with ⟨_ | a, j'⟩
  · rw [hr] at hj
    simp only [outcome] at hj ⊢
    rw [← hj]
    rfl
  · rw [hr] at hj
    simp only [outcome] at hj
    show outcome (e'.exec j') = f j.store >>= g
    rw [← hj]
    exact h' j'

/-- Work for each element of a list, in turn. -/
theorem Does.forM {β : Type} {e : β → Edit Unit} {f : β → Store → Except Failure Store}
    (h : ∀ b, Does (e b) (f b)) (l : List β) :
    Does (l.forM e) fun s => l.foldlM (fun s b => f b s) s := by
  induction l with
  | nil => exact does_pure
  | cons b l ih =>
    rw [List.forM_eq_forM, List.forM_cons]
    simp only [List.foldlM_cons]
    exact (h b).seq ih

/-- A transaction that fails goes back to the store before it. The notices are kept. -/
theorem exec_transaction {α : Type} (e : Edit α) (j : Journal) :
    (transaction e).exec j =
      match e.exec j with
      | (.ok a, after) => (.ok a, after)
      | (.error f, after) => (.error f, { after with store := j.store }) :=
  rfl

/-- A transaction that ends without failure is its body. -/
theorem Does.transaction {α : Type} {e : Edit α} {f : Store → Except Failure Store} (h : Does e f) :
    Does (Edit.transaction e) f := by
  intro j
  rw [← h j, exec_transaction]
  rcases e.exec j with ⟨_ | a, j'⟩ <;> rfl

/-- A failed attempt leaves the journal as it was. -/
theorem exec_attempt_error {f : Store → Except Failure (Store × List Notice)} {j : Journal}
    {e : Failure} (h : f j.store = .error e) : exec (attempt f) j = (.error e, j) := by
  have hcurrent : exec current j = (.ok j.store, j) := rfl
  rw [attempt, exec_bind, hcurrent]
  dsimp only
  rw [h]
  rfl

/-- An attempt that succeeds puts the new store in place, and its notices behind the others. -/
theorem exec_attempt_ok {f : Store → Except Failure (Store × List Notice)} {j : Journal} {s : Store}
    {notices : List Notice} (h : f j.store = .ok (s, notices)) :
    exec (attempt f) j = (.ok (), ⟨s, j.notices ++ notices⟩) := by
  have hcurrent : exec current j = (.ok j.store, j) := rfl
  rw [attempt, exec_bind, hcurrent]
  dsimp only
  rw [h]
  rfl

/-- Changing the store by work that may fail. -/
theorem does_attempt (f : Store → Except Failure (Store × List Notice)) :
    Does (attempt f) fun s => (f s).map (·.1) := by
  intro j
  dsimp only
  cases h : f j.store with
  | error e =>
    rw [exec_attempt_error h]
    rfl
  | ok r =>
    rw [exec_attempt_ok h]
    rfl

/-- Expanding does to the store what the function says. -/
theorem does_expand (name : String) : Does (expand name) fun s => (s.expand name).map (·.1) :=
  does_attempt _

/-- Shorthands expanded one after the other. -/
theorem does_forM_expand {β : Type} (name : β → String) (l : List β) :
    Does (l.forM fun b => expand (name b)) (Store.expandEach (l.map name)) := by
  intro j
  rw [Does.forM (fun b => does_expand (name b)) l j, Store.expandEach, List.foldlM_map]

/-- **Expanding all is expanding each.**  The borders come first, then the boxes, then the rest. -/
theorem does_expandAll : Does expandAll (Store.expandEach (Shorthand.all.map Shorthand.name)) := by
  have hborders : Does expandBorders _ := (does_forM_expand Shorthand.name Shorthand.borders).transaction
  have hboxes : Does expandBoxes _ := (does_forM_expand BoxShorthand.name BoxShorthand.all).transaction
  have h : Does expandAll _ := (hborders.seq (hboxes.seq ((does_expand _).seq
    ((does_expand _).seq (does_expand _))))).transaction
  intro j
  rw [h j]
  have hall : Shorthand.all.map Shorthand.name =
      Shorthand.borders.map Shorthand.name ++ (BoxShorthand.all.map BoxShorthand.name ++
        [Shorthand.font.name, Shorthand.background.name, Shorthand.listStyle.name]) := rfl
  simp [hall, Store.expandEach, List.foldlM_append]

/-- Expanding everything goes through the shorthands in the order of the list. -/
theorem after_expandAll (s : Store) :
    expandAll.after s = s.expandEach (Shorthand.all.map Shorthand.name) :=
  does_expandAll.after_eq s

/-! ## Failure

  A transaction that fails gives the error of its work and the store from before.
-/

/-- Work that does what a function does fails as the function fails. -/
theorem Does.error_iff {α : Type} {e : Edit α} {f : Store → Except Failure Store} (h : Does e f)
    (j : Journal) (x : Failure) : (e.exec j).1 = .error x ↔ f j.store = .error x := by
  rw [← h j, outcome]
  cases (e.exec j).1 <;> simp

/-- A transaction that fails leaves the store as it was. -/
theorem store_of_transaction_error {α : Type} {e : Edit α} {j : Journal} {f : Failure}
    (h : ((transaction e).exec j).1 = .error f) : ((transaction e).exec j).2.store = j.store := by
  rw [exec_transaction] at h ⊢
  cases he : e.exec j with
  | mk r after =>
    rw [he] at h
    cases r with
    | ok a => contradiction
    | error g => rfl

/-! ## Work that says nothing

  Stronger than `Does`, and of one store: it is used where a fold or an expansion gives no notices.
-/

/-- The work succeeds, leaves the store `t`, and says nothing. -/
def Quietly (e : Edit Unit) (s t : Store) : Prop :=
  ∀ said, e.exec ⟨s, said⟩ = (.ok (), ⟨t, said⟩)

section

variable {e e' : Edit Unit} {s t u : Store}

/-- Doing nothing is quiet. -/
theorem quietly_pure (s : Store) : Quietly (pure ()) s s := fun _ => rfl

/-- Two quiet edits, one after the other. -/
theorem Quietly.seq (h : Quietly e s t) (h' : Quietly e' t u) : Quietly (e >>= fun _ => e') s u := by
  intro said
  rw [exec_bind, h said]
  exact h' said

/-- Work for each element of a list that leaves the store as it is. -/
theorem quietly_forM {β : Type} {l : List β} {e : β → Edit Unit} (h : ∀ b ∈ l, Quietly (e b) s s) :
    Quietly (l.forM e) s s := by
  induction l with
  | nil => exact quietly_pure s
  | cons b l ih =>
    rw [List.forM_eq_forM, List.forM_cons]
    exact (h b List.mem_cons_self).seq (ih fun c hc => h c (List.mem_cons_of_mem _ hc))

/-- A quiet loop: its first round and the others. -/
theorem Quietly.forM_cons {β : Type} {b : β} {l : List β} {e : β → Edit Unit} (h : Quietly (e b) s t)
    (h' : Quietly (l.forM e) t u) : Quietly ((b :: l).forM e) s u := by
  rw [List.forM_eq_forM, List.forM_cons]
  exact h.seq h'

/-- A transaction is as quiet as its body. -/
theorem Quietly.transaction (h : Quietly e s t) : Quietly (Edit.transaction e) s t := by
  intro said
  rw [exec_transaction, h said]

/-- Changing the store with nothing to say. -/
theorem quietly_attempt {f : Store → Except Failure (Store × List Notice)} (h : f s = .ok (t, [])) :
    Quietly (attempt f) s t := by
  intro said
  rw [exec_attempt_ok h, List.append_nil]

end

end Edit

end CssShorthand
