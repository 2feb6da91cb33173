/-
  COMPONENTS IN FRONT OF A TEXT.

  What lexemes nest to does not depend on their places (`Nesting.nest`), and what was read before them
  stays in front of it (`Nesting.foldl_step_behind`).  So a text whose front is read as components is
  parsed as these components and what the rest is parsed as (`Component.parse_append`), whatever is
  wrong with the rest.

  The places of components are kept for the notices, and have no part in how they nest; the first half of
  the module takes them out of the way. The second half is about the stack: components that are there
  already are not looked at by any step, so they can be put in front afterwards.
-/
import CssShorthand.Font.Class
import CssShorthand.Proofs.Component.Joined

namespace CssShorthand

open List

/-- The thing without its place. -/
def Found.unplaced {α : Type} (x : Found α) : Found α := ⟨x.item, []⟩

namespace Nesting

open Component (flatList)

/-! ## Without places

  Two states that differ in places only take the same steps.
-/

/-- What is open, without places. -/
def unplacedFrames (frames : List Frame) : List Frame :=
  frames.map fun f => ⟨f.opening, [], f.before.map Found.unplaced⟩

/-- A state without places. -/
def unplaced (n : Nesting) : Nesting := ⟨n.current.map Found.unplaced, unplacedFrames n.frames⟩

theorem map_item_unplaced (cs : List (Found Component)) :
    (cs.map Found.unplaced).map (·.item) = cs.map (·.item) := by
  rw [map_map]
  rfl

/-- **A step does not look at places.** -/
theorem unplaced_step (n : Nesting) (l : Found Lexeme) :
    (n.step l).unplaced = n.unplaced.step l.unplaced := by
  obtain ⟨current, frames⟩ := n
  obtain ⟨item, suffix⟩ := l
  cases item with
  | leaf c => rfl
  | call name => rfl
  | opened b => rfl
  | closed b =>
    cases frames with
    | nil => rfl
    | cons f frames =>
      by_cases hb : f.opening.ending = b
      · simp [step, unplaced, unplacedFrames, Found.unplaced, hb, close, Nesting.content, ← map_reverse,
          Function.comp_def]
      · simp [step, unplaced, unplacedFrames, Found.unplaced, hb, push]

/-- Finishing a text does not look at places either. -/
theorem unplaced_finish (current : List (Found Component)) (frames : List Frame) :
    (finish current frames).map Found.unplaced =
      finish (current.map Found.unplaced) (unplacedFrames frames) := by
  induction frames generalizing current with
  | nil => simp [finish, unplacedFrames]
  | cons f frames ih =>
    have hcontent := map_item_unplaced current.reverse
    rw [map_reverse] at hcontent
    rw [finish, ih]
    show _ = finish (⟨f.opening.component ((current.map Found.unplaced).reverse.map (·.item)), []⟩ ::
      f.before.map Found.unplaced) (unplacedFrames frames)
    rw [hcontent]
    rfl

/-- What lexemes nest to. -/
def nest (ls : List Lexeme) : List Component := (ofLexemes (ls.map (Found.mk · []))).map (·.item)

/-- **What lexemes nest to does not depend on their places.** -/
theorem map_item_ofLexemes (ls : List (Found Lexeme)) :
    (ofLexemes ls).map (·.item) = nest (ls.map (·.item)) := by
  have hfold : ∀ n : Nesting, (ls.foldl step n).unplaced =
      (ls.map Found.unplaced).foldl step n.unplaced := by
    induction ls with
    | nil => exact fun _ => rfl
    | cons l ls ih =>
      intro n
      rw [foldl_cons, ih, unplaced_step, map_cons, foldl_cons]
  have hempty := hfold empty
  rw [nest, map_map, ← map_item_unplaced, ofLexemes, unplaced_finish]
  show (finish (ls.foldl step empty).unplaced.current (ls.foldl step empty).unplaced.frames).map _ = _
  rw [hempty]
  rfl

/-! ## Behind other components

  A state behind some components is the state with these at the bottom of its stack. Every step commutes
  with putting them there, and so does the fold.
-/

/-- The state in which the outermost list has these components in front, the last one first. -/
def behind (base : List (Found Component)) : List (Found Component) → List Frame → Nesting
  | current, [] => ⟨current ++ base, []⟩
  | current, f :: frames =>
    let outer := behind base f.before frames
    ⟨current, ⟨f.opening, f.start, outer.current⟩ :: outer.frames⟩

variable (base : List (Found Component))

/-- A component goes to the innermost open group, whatever is outside of it. -/
theorem push_behind (current : List (Found Component)) (frames : List Frame) (c : Component) (s : Text) :
    (behind base current frames).push c s = behind base (⟨c, s⟩ :: current) frames := by
  cases frames <;> rfl

/-- **A step leaves what is in front.** -/
theorem step_behind (n : Nesting) (l : Found Lexeme) :
    (behind base n.current n.frames).step l = behind base (n.step l).current (n.step l).frames := by
  obtain ⟨current, frames⟩ := n
  obtain ⟨item, suffix⟩ := l
  cases item with
  | leaf c => exact push_behind base current frames c suffix
  | call name => rfl
  | opened b => rfl
  | closed b =>
    cases frames with
    | nil => rfl
    | cons f frames =>
      by_cases hb : f.opening.ending = b
      · simp only [step, behind, hb, if_true]
        exact push_behind base f.before frames _ f.start
      · simp only [step, behind, hb, if_false]
        rfl

/-- What was read stays in front of what is read then. -/
theorem foldl_step_behind (ls : List (Found Lexeme)) (n : Nesting) :
    ls.foldl step (behind base n.current n.frames) =
      behind base (ls.foldl step n).current (ls.foldl step n).frames := by
  induction ls generalizing n with
  | nil => rfl
  | cons l ls ih => rw [foldl_cons, step_behind, ih, foldl_cons]

/-- What was read before stays in front when the text is finished. -/
theorem finish_behind (current : List (Found Component)) (frames : List Frame) :
    finish (behind base current frames).current (behind base current frames).frames =
      base.reverse ++ finish current frames := by
  induction frames generalizing current with
  | nil => simp [behind, finish]
  | cons f frames ih =>
    have hpush := push_behind base f.before frames
      (f.opening.component (current.reverse.map (·.item))) f.start
    show finish ((behind base f.before frames).push
        (f.opening.component (current.reverse.map (·.item))) f.start).current
      ((behind base f.before frames).push
        (f.opening.component (current.reverse.map (·.item))) f.start).frames = _
    rw [hpush, ih]
    rfl

/-- **Components in front** nest to themselves, whatever follows. -/
theorem nest_append (cs : List Component) (ls : List Lexeme) :
    nest (flatList cs ++ ls) = cs ++ nest ls := by
  have hitems : ((flatList cs).map (Found.mk · [])).map (·.item) = flatList cs := by
    rw [map_map]
    exact map_id _
  obtain ⟨ds, hds, hfold⟩ := foldl_step_flatList cs empty _ hitems
  have hbehind : (⟨ds.reverse ++ empty.current, empty.frames⟩ : Nesting) =
      behind ds.reverse empty.current empty.frames := by
    simp [behind, empty]
  rw [nest, map_append, ofLexemes, foldl_append, hfold, hbehind, foldl_step_behind, finish_behind,
    reverse_reverse, map_append, hds]
  rfl

end Nesting

namespace Component

open Lexeme (lexemes)

/-- A text is parsed as what its lexemes nest to. -/
theorem parse_eq_nest (t : Text) : parse t = Nesting.nest (lexemes (Lexeme.normalize t)) :=
  Nesting.map_item_ofLexemes _

variable {cs : List Component} {r t : Text}

/-- **A text whose front is read as components** is parsed as these and what follows. -/
theorem parse_append (h : lexemes (Lexeme.normalize t) = flatList cs ++ lexemes (Lexeme.normalize r)) :
    parse t = cs ++ parse r := by
  rw [parse_eq_nest, h, Nesting.nest_append, ← parse_eq_nest]

end Component

/-! ## What begins a text

  The first lexeme of a text is the first of its first component, so what is no blank and no slash begins
  something that is neither.
-/

namespace Lexeme

variable {c : Char} {t r : Text} {ls : List Lexeme}

/-- Something is read wherever there is text. -/
theorem Reading.exists_cons (h : Reading c t ls r) : ∃ l ls', ls = l :: ls' := by
  cases h with
  | @url r hr => cases (UrlText.take r).1 <;> exact ⟨_, _, rfl⟩
  | string h => cases (Quotation.take c t).1 <;> exact ⟨_, _, rfl⟩
  | symbol hb hs hn =>
    obtain ⟨text, htext, -⟩ := readDelimiter_eq c t
    exact ⟨_, _, htext⟩
  | _ => exact ⟨_, _, rfl⟩

/-- A slash is read where one stands. -/
theorem Reading.of_slash (h : Reading c t ls r) (hl : delimiter ['/'] ∈ ls) : c = '/' := by
  cases h with
  | url hr => rcases mem_ofUrl hl with ⟨v, isClosed, hl⟩ | ⟨f, hl⟩ <;> simp [delimiter] at hl
  | string h => rcases mem_ofString hl with ⟨v, isClosed, hl⟩ | ⟨f, hl⟩ <;> simp [delimiter] at hl
  | mark h =>
    obtain rfl : '/' = c := by simpa [delimiter] using hl
    rfl
  | symbol hb hs hn =>
    obtain ⟨text, htext, -, htexts⟩ := readDelimiter_eq c t
    rw [htext] at hl
    obtain rfl : ['/'] = text := by simpa [delimiter] using hl
    rcases htexts with h | h | h | ⟨-, h⟩
    · exact (cons.inj h).1.symm
    · contradiction
    · contradiction
    · simp at h
  | _ => simp [delimiter] at hl

end Lexeme

namespace Component

open Lexeme (lexemes)

theorem flat_eq_head (e : Component) : ∃ ls, flat e = e.head :: ls := by
  cases e <;> exact ⟨_, rfl⟩

/-- The first lexeme of a text that begins with no comment. -/
theorem exists_cons_of_lexemes {c : Char} (hslash : c ≠ '/') (u : Text) :
    ∃ l rest, l ∈ (Lexeme.read c u).1 ∧ l.isComment = false ∧ lexemes (c :: u) = l :: rest := by
  have hreading := Lexeme.reading_read c u
  obtain ⟨l, ls, hread⟩ := hreading.exists_cons
  have hl : l ∈ (Lexeme.read c u).1 := hread ▸ mem_cons_self
  have hcomment : l.isComment = false := by
    by_contra hcomment
    obtain ⟨_, hc, -⟩ := hreading.of_comment hl (by simpa using hcomment)
    exact hslash hc
  refine ⟨l, ls.filter (fun k => !k.isComment) ++ lexemes (Lexeme.read c u).2, hl, hcomment, ?_⟩
  rw [Lexeme.lexemes_cons, hread, filter_cons_of_pos (by simp [hcomment]), cons_append]

/-- The first lexeme stays the first, if it does not become a fault. -/
theorem exists_first_of_lexemes {t : Text} {l : Lexeme} {rest : List Lexeme}
    (h : lexemes (Lexeme.normalize t) = l :: rest) :
    ∃ l' m, flatList (parse t) = l' :: m ∧ (l'.isFault = false → l' = l) := by
  have hleaf : ∀ k ∈ (l :: rest).map (Found.mk · []), ∀ d, k.item = .leaf d → IsLeaf d := by
    intro k hk d hd
    obtain ⟨m, hm, rfl⟩ := mem_map.mp hk
    obtain rfl : m = .leaf d := hd
    exact Lexeme.isLeaf_of_mem_lexemes (Lexeme.normalize t) (h ▸ hm)
  rw [map_cons] at hleaf
  obtain ⟨l', hlayout, hfault⟩ := Nesting.layout_step (hleaf _ mem_cons_self) Nesting.empty
  obtain ⟨ls', hlayouts, -⟩ := Nesting.layout_foldl (fun k hk => hleaf k (mem_cons_of_mem _ hk))
    (Nesting.empty.step ⟨l, []⟩)
  have hall : (foldl Nesting.step (Nesting.empty.step ⟨l, []⟩) (rest.map (Found.mk · []))).layout = l' :: ls' := by
    rw [hlayouts, hlayout]
    rfl
  obtain ⟨m, hm⟩ : ∃ m, flatList (parse t) = l' :: m := by
    rw [parse_eq_nest, h, Nesting.nest, Nesting.ofLexemes, Nesting.flatList_finish, map_cons, foldl_cons]
    exact ⟨_, congrArg (· ++ _) hall⟩
  exact ⟨l', m, hm, hfault⟩

theorem isSlash_iff {c : Component} : c.isSlash = true ↔ c = .literal ['/'] := by
  cases c <;> simp [isSlash, isDelimiter]

/-- **The first component of a text** that begins with no white space, no comment and no slash is none of
    these. -/
theorem exists_cons_of_parse {c : Char} {t u : Text} (htext : Lexeme.normalize t = c :: u)
    (hblank : Text.isCssBlank c = false) (hslash : c ≠ '/') :
    ∃ e es, parse t = e :: es ∧ e.isSeparator = false ∧ e.isSlash = false := by
  have hreading := Lexeme.reading_read c u
  -- The first lexeme is the first of the first component, unless a fault took its place; neither is a
  -- separator.
  obtain ⟨l, rest, hl, hcomment, hlexemes⟩ := exists_cons_of_lexemes hslash u
  obtain ⟨l', m, hm, hfault⟩ := exists_first_of_lexemes (htext ▸ hlexemes)
  cases hparse : parse t with
  | nil =>
    rw [hparse] at hm
    contradiction
  | cons e es =>
    refine ⟨e, es, rfl, ?_⟩
    obtain ⟨ls, hhead⟩ := flat_eq_head e
    rw [hparse, flatList, hhead] at hm
    have hfirst : e.head = l' := (cons.inj hm).1
    cases hl' : l'.isFault with
    | true =>
      rw [← hfirst] at hl'
      cases e <;> first | contradiction | exact ⟨rfl, rfl⟩
    | false =>
      have hfirst : e.head = l := hfirst.trans (hfault hl')
      constructor
      · cases e with
        | whitespace w =>
          rw [hreading.of_whitespace hl (hfirst ▸ rfl)] at hblank
          contradiction
        | comment w =>
          rw [← hfirst] at hcomment
          contradiction
        | _ => rfl
      · by_contra he
        obtain rfl := isSlash_iff.mp (by simpa using he)
        have hl' : l = Lexeme.delimiter ['/'] := hfirst.symm
        exact hslash (hreading.of_slash (hl' ▸ hl))

end Component

end CssShorthand
