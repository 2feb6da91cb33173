/-
  COMPONENTS LAID OUT FLAT.

  A component that holds others is laid out as the lexeme that opens it, what it holds, and the bracket
  that closes it (`Component.flat`).  Without faults the lexemes of a text, nested, lay out flat as they
  were, with the brackets after them that were missing at the end (`Nesting.flatList_ofLexemes`), and
  lexemes that lie as components do nest to these components (`Nesting.ofLexemes_flat`).

  Components are written as their lexemes are (`Component.writeList_eq_writeAfter`): what stands between
  two lexemes depends on these two alone.

  The flat layout is what the two recursions have in common. Nesting is a fold over lexemes with a stack of
  open groups, writing is a recursion over the tree of components; both are compared with the list of
  lexemes that lies between them. So a fact about writing and reading again is a fact about lists of
  lexemes, where neighbours are neighbours.
-/
import CssShorthand.Component.Nesting
import CssShorthand.Component.Writer

namespace CssShorthand

namespace Lexeme

/-- The text of a lexeme. -/
def write : Lexeme → Text
  | .leaf c => c.write
  | .call name => Name.writeIdentifier name ++ ['(']
  | .opened b => [b.opening]
  | .closed b => [b.closing]

/-- What is written between two lexemes.  At the two ends of a block or function it is nothing. -/
def between : Lexeme → Lexeme → Text
  | .leaf c, .leaf d => Component.between c d
  | .leaf c, .call name => Component.between c (.function name [])
  | .leaf c, .opened b => Component.between c (.block b [])
  | _, _ => []

/-- The text of lexemes that come after `a`. -/
def writeAfter : Lexeme → List Lexeme → Text
  | _, [] => []
  | a, b :: ls => between a b ++ write b ++ writeAfter b ls

/-- Whether a lexeme is a fault. -/
def isFault : Lexeme → Bool
  | .leaf (.fault _) => true
  | _ => false

/-- Whether a lexeme is white space. -/
def isWhitespace : Lexeme → Bool
  | .leaf c => c.isWhitespace
  | _ => false

/-- Nothing stands after an opening. -/
theorem between_opened (b : Bracket) (l : Lexeme) : between (.opened b) l = [] := by
  cases l <;> rfl

theorem between_call (name : Text) (l : Lexeme) : between (.call name) l = [] := by
  cases l <;> rfl

theorem between_closed_left (b : Bracket) (l : Lexeme) : between (.closed b) l = [] := by
  cases l <;> rfl

theorem between_closed_right (l : Lexeme) (b : Bracket) : between l (.closed b) = [] := by
  cases l <;> rfl

end Lexeme

namespace Component

mutual

/-- The lexemes of a component. -/
def flat : Component → List Lexeme
  | .block b content => .opened b :: (flatList content ++ [.closed b])
  | .function name arguments => .call name :: (flatList arguments ++ [.closed .round])
  | c => [.leaf c]

/-- The lexemes of several components. -/
def flatList : List Component → List Lexeme
  | [] => []
  | c :: cs => flat c ++ flatList cs

end

/-- Components in a row are laid out one after the other. -/
theorem flatList_append (cs ds : List Component) :
    flatList (cs ++ ds) = flatList cs ++ flatList ds := by
  induction cs with
  | nil => rfl
  | cons c cs ih =>
    show flat c ++ flatList (cs ++ ds) = flat c ++ flatList cs ++ flatList ds
    rw [ih, List.append_assoc]

/-- Whether a component is laid out as itself. -/
def IsLeaf (c : Component) : Prop := flat c = [.leaf c]

/-- A component that holds no others is its own lexeme. -/
theorem flatList_of_isLeaf {cs : List Component} (h : ∀ c ∈ cs, IsLeaf c) :
    flatList cs = cs.map .leaf := by
  induction cs with
  | nil => rfl
  | cons c cs ih =>
    have hc : flat c = [.leaf c] := h c List.mem_cons_self
    show flat c ++ flatList cs = _
    rw [hc, ih fun d hd => h d (List.mem_cons_of_mem _ hd)]
    rfl

/-- The first lexeme of a component. -/
def head : Component → Lexeme
  | .block b _ => .opened b
  | .function name _ => .call name
  | c => .leaf c

/-- The last lexeme of a component. -/
def last : Component → Lexeme
  | .block b _ => .closed b
  | .function _ _ => .closed .round
  | c => .leaf c

/-- There is no fault in the components, at any depth. -/
def Faultless (cs : List Component) : Prop := ∀ l ∈ flatList cs, l.isFault = false

/-- A list is faultless when each component is. -/
theorem faultless_cons {c : Component} {cs : List Component} :
    Faultless (c :: cs) ↔ Faultless [c] ∧ Faultless cs := by
  show (∀ l ∈ flat c ++ flatList cs, _) ↔ (∀ l ∈ flat c ++ [], _) ∧ ∀ l ∈ flatList cs, _
  rw [List.append_nil]
  exact List.forall_mem_append

/-- A block is faultless when its content is. -/
theorem faultless_block {b : Bracket} {content : List Component} :
    Faultless [.block b content] ↔ Faultless content := by
  show (∀ l ∈ (Lexeme.opened b :: (flatList content ++ [Lexeme.closed b])) ++ [], _) ↔ _
  simp [Faultless, or_imp, forall_and, Lexeme.isFault]

/-- A function is faultless when its arguments are. -/
theorem faultless_function {name : Text} {arguments : List Component} :
    Faultless [.function name arguments] ↔ Faultless arguments := by
  show (∀ l ∈ (Lexeme.call name :: (flatList arguments ++ [Lexeme.closed .round])) ++ [], _) ↔ _
  simp [Faultless, or_imp, forall_and, Lexeme.isFault]

/-! ## Writing

  Between two components the writer puts a comment, a line feed or nothing, by a table of pairs. The same
  table is asked for the last lexeme of one and the first of the other, which is why only these two matter.
-/

/-- Two neighbours meet with their last and first lexeme. -/
theorem between_eq (c d : Component) : between c d = Lexeme.between c.last d.head := by
  have hleft : ∀ e : Component, (Joint.of e).clash (Joint.of d) = false → e.isDelimiter ['\\'] = false →
      between e d = [] := by
    intro e hclash hback
    simp [between, hclash, hback]
  have hfunction : ∀ j : Joint, Joint.clash .function j = false := by
    intro j
    simp [Joint.clash]
  have hblock : ∀ (b : Bracket) (cs : List Component) (j : Joint),
      (Joint.of (.block b cs)).clash j = false := by
    intro b cs j
    cases b <;> simp [Joint.of, Joint.clash]
  cases c with
  | block b cs => exact (hleft _ (hblock b cs _) rfl).trans (Lexeme.between_closed_left b _).symm
  | function name cs =>
    have hclash : (Joint.of (.function name cs)).clash (Joint.of d) = false := hfunction _
    exact (hleft _ hclash rfl).trans (Lexeme.between_closed_left .round _).symm
  | _ =>
    cases d with
    | block b cs => cases b <;> rfl
    | _ => rfl

mutual

/-- A function that ends in a string that the text ended in holds a fault. -/
theorem endsInString_eq_false (c : Component) (h : Faultless [c]) : endsInString c = false := by
  cases c with
  | function name arguments =>
    exact endInString_eq_false arguments (faultless_function.mp h)
  | _ => rfl

/-- Without faults no string is left open at the end, which is what writing would have to look at. -/
theorem endInString_eq_false (cs : List Component) (h : Faultless cs) : endInString cs = false := by
  match cs with
  | [] => rfl
  | [c] =>
    have hc := endsInString_eq_false c h
    unfold endInString
    rw [hc]
    split
    · exact absurd (h _ List.mem_cons_self) (by simp [Lexeme.isFault])
    · rfl
  | c :: d :: cs => exact endInString_eq_false (d :: cs) (faultless_cons.mp h).2

end

/-- The lexeme that comes before what follows the components. -/
def lastAfter (a : Lexeme) : List Component → Lexeme
  | [] => a
  | c :: cs => lastAfter c.last cs

/-- What is written before the first of the components. -/
def leading (a : Lexeme) : List Component → Text
  | [] => []
  | c :: _ => Lexeme.between a c.head

mutual

/-- **A component is written as its lexemes are.**  Blocks and functions by their content: nothing is put
    between a bracket and what stands next to it. -/
theorem writeAfter_flat (c : Component) (h : Faultless [c]) (a : Lexeme) (rest : List Lexeme) :
    Lexeme.writeAfter a (flat c ++ rest) =
      Lexeme.between a c.head ++ write c ++ Lexeme.writeAfter c.last rest := by
  cases c with
  -- Nothing is put between an opening bracket and the first component, nor before a closing one: so the
  -- content is written as by itself.
  | block b content =>
    have hcontent := writeAfter_flatList content (faultless_block.mp h) (.opened b) (.closed b :: rest)
    have hleading : leading (.opened b) content = [] := by
      cases content with
      | nil => rfl
      | cons d ds => exact Lexeme.between_opened b d.head
    show Lexeme.between a (.opened b) ++ [b.opening] ++
      Lexeme.writeAfter (.opened b) (flatList content ++ [.closed b] ++ rest) = _
    rw [List.append_assoc (flatList content), List.singleton_append, hcontent, hleading,
      Lexeme.writeAfter, Lexeme.between_closed_right]
    simp [write, head, last, Lexeme.write]
  | function name arguments =>
    have hfault := faultless_function.mp h
    have harguments := writeAfter_flatList arguments hfault (.call name) (.closed .round :: rest)
    have hleading : leading (.call name) arguments = [] := by
      cases arguments with
      | nil => rfl
      | cons d ds => exact Lexeme.between_call name d.head
    show Lexeme.between a (.call name) ++ (Name.writeIdentifier name ++ ['(']) ++
      Lexeme.writeAfter (.call name) (flatList arguments ++ [.closed .round] ++ rest) = _
    rw [List.append_assoc (flatList arguments), List.singleton_append, harguments, hleading,
      Lexeme.writeAfter, Lexeme.between_closed_right]
    simp [write, head, last, Lexeme.write, endInString_eq_false arguments hfault, Bracket.closing]
  | _ => rfl

/-- Components in a row as well: between two of them stands what the last lexeme of the one and the first
    lexeme of the other need. -/
theorem writeAfter_flatList (cs : List Component) (h : Faultless cs) (a : Lexeme)
    (rest : List Lexeme) :
    Lexeme.writeAfter a (flatList cs ++ rest) =
      leading a cs ++ writeList cs ++ Lexeme.writeAfter (lastAfter a cs) rest := by
  match cs with
  | [] => rfl
  | [c] =>
    have hc := writeAfter_flat c h a rest
    show Lexeme.writeAfter a (flat c ++ [] ++ rest) = _
    rw [List.append_nil, hc]
    rfl
  | c :: d :: cs =>
    obtain ⟨hc, hcs⟩ := faultless_cons.mp h
    have hhere := writeAfter_flat c hc a (flatList (d :: cs) ++ rest)
    have hrest := writeAfter_flatList (d :: cs) hcs c.last rest
    show Lexeme.writeAfter a (flat c ++ flatList (d :: cs) ++ rest) = _
    rw [List.append_assoc, hhere, hrest]
    show _ = Lexeme.between a c.head ++ (write c ++ between c d ++ writeList (d :: cs)) ++ _
    rw [between_eq]
    simp [leading, lastAfter]

end

/-- **Components are written as their lexemes.** -/
theorem writeList_eq_writeAfter {cs : List Component} (h : Faultless cs) (b : Bracket) :
    writeList cs = Lexeme.writeAfter (.opened b) (flatList cs) := by
  have := writeAfter_flatList cs h (.opened b) []
  rw [List.append_nil] at this
  rw [this]
  have hleading : leading (.opened b) cs = [] := by
    cases cs with
    | nil => rfl
    | cons d ds => exact Lexeme.between_opened b d.head
  simp [hleading, Lexeme.writeAfter]

end Component

namespace Nesting

open Component

/-! ## Nesting what lies flat

  By recursion over the components: the fold over the lexemes of one of them leaves the stack as it was and
  pushes the component.
-/

mutual

/-- **The lexemes of a component nest to the component.**  The one that opens a block puts a frame on the
    state, the content goes into this frame, and the bracket that closes takes the frame off and leaves the
    block. -/
theorem foldl_step_flat (c : Component) (n : Nesting) (ls : List (Found Lexeme))
    (h : ls.map (·.item) = c.flat) : ∃ s, ls.foldl step n = n.push c s := by
  cases c with
  | block b content =>
    match ls, h with
    | ⟨l, s⟩ :: ls, h =>
      have hitems : l :: ls.map (·.item) = .opened b :: (flatList content ++ [.closed b]) := h
      obtain ⟨rfl, hinside⟩ := List.cons.inj hitems
      obtain ⟨inner, closing, rfl, hinner, hclosing⟩ := List.map_eq_append_iff.mp hinside
      obtain ⟨⟨l, s'⟩, rfl, rfl⟩ := List.map_eq_singleton_iff.mp hclosing
      obtain ⟨ds, hds, hfold⟩ :=
        foldl_step_flatList content (n.enter (.block b) s) inner hinner
      refine ⟨s, ?_⟩
      rw [List.foldl_cons, List.foldl_append]
      show (inner.foldl step (n.enter (.block b) s)).step ⟨.closed b, s'⟩ = _
      rw [hfold]
      simp [step, enter, close, Opening.ending, Nesting.content, Opening.component, push, hds]
  -- A call differs from a block in what opens it, and its bracket is a round one.
  | function name arguments =>
    match ls, h with
    | ⟨l, s⟩ :: ls, h =>
      have hitems : l :: ls.map (·.item) =
          .call name :: (flatList arguments ++ [.closed .round]) := h
      obtain ⟨rfl, hinside⟩ := List.cons.inj hitems
      obtain ⟨inner, closing, rfl, hinner, hclosing⟩ := List.map_eq_append_iff.mp hinside
      obtain ⟨⟨l, s'⟩, rfl, rfl⟩ := List.map_eq_singleton_iff.mp hclosing
      obtain ⟨ds, hds, hfold⟩ :=
        foldl_step_flatList arguments (n.enter (.call name) s) inner hinner
      refine ⟨s, ?_⟩
      rw [List.foldl_cons, List.foldl_append]
      show (inner.foldl step (n.enter (.call name) s)).step ⟨.closed .round, s'⟩ = _
      rw [hfold]
      simp [step, enter, close, Opening.ending, Nesting.content, Opening.component, push, hds]
  | _ =>
    obtain ⟨⟨l, s⟩, rfl, rfl⟩ := List.map_eq_singleton_iff.mp h
    exact ⟨s, rfl⟩

/-- So do the lexemes of components in a row, by induction along with the lemma for one component. -/
theorem foldl_step_flatList (cs : List Component) (n : Nesting) (ls : List (Found Lexeme))
    (h : ls.map (·.item) = flatList cs) :
    ∃ ds : List (Found Component), ds.map (·.item) = cs ∧
      ls.foldl step n = ⟨ds.reverse ++ n.current, n.frames⟩ := by
  match cs with
  | [] =>
    obtain rfl := List.map_eq_nil_iff.mp h
    exact ⟨[], rfl, rfl⟩
  | c :: cs =>
    obtain ⟨first, rest, rfl, hfirst, hrest⟩ := List.map_eq_append_iff.mp h
    obtain ⟨s, hs⟩ := foldl_step_flat c n first hfirst
    obtain ⟨ds, hds, hfold⟩ := foldl_step_flatList cs (n.push c s) rest hrest
    refine ⟨⟨c, s⟩ :: ds, by simp [hds], ?_⟩
    rw [List.foldl_append, hs, hfold]
    simp [push]

end

/-- **Lexemes that lie as components do nest to these components.** -/
theorem ofLexemes_flat {cs : List Component} {ls : List (Found Lexeme)}
    (h : ls.map (·.item) = flatList cs) : (ofLexemes ls).map (·.item) = cs := by
  obtain ⟨ds, hds, hfold⟩ := foldl_step_flatList cs empty ls h
  rw [ofLexemes, hfold]
  simp [empty, finish, hds]

/-! ## Laying out what is nested

  The invariant of the fold is the layout of the whole state: what the open groups hold, from the outermost
  to the innermost, with the lexemes that opened them. A step adds one lexeme to it, or a fault in its
  place.
-/

/-- The lexeme that opens it. -/
def lexeme : Opening → Lexeme
  | .call name => .call name
  | .block b => .opened b

/-- The lexemes of what is open, the innermost last. -/
def flatFrames : List Frame → List Lexeme
  | [] => []
  | f :: frames =>
    flatFrames frames ++ flatList (f.before.reverse.map (·.item)) ++ [lexeme f.opening]

/-- The lexemes taken in so far. -/
def layout (n : Nesting) : List Lexeme := flatFrames n.frames ++ flatList n.content

/-- The brackets that are missing. -/
def missing (frames : List Frame) : List Lexeme := frames.map fun f => .closed f.opening.ending

/-- Pushing a leaf adds it at the end. -/
theorem layout_push {c : Component} (h : IsLeaf c) (n : Nesting) (s : Text) :
    (n.push c s).layout = n.layout ++ [.leaf c] := by
  have hflat : flat c = [.leaf c] := h
  simp [layout, push, Nesting.content, flatList_append, flatList, hflat]

/-- A closed group is its opening lexeme, its content and its closing bracket. -/
theorem flat_component (o : Opening) (cs : List Component) :
    flat (o.component cs) = lexeme o :: (flatList cs ++ [.closed o.ending]) := by
  cases o <;> rfl

/-- Each lexeme is laid out behind the others, if it does not become a fault. -/
theorem layout_step {l : Found Lexeme} (h : ∀ c, l.item = .leaf c → IsLeaf c) (n : Nesting) :
    ∃ l', (n.step l).layout = n.layout ++ [l'] ∧ (l'.isFault = false → l' = l.item) := by
  obtain ⟨l, s⟩ := l
  cases l with
  | leaf c => exact ⟨.leaf c, layout_push (h c rfl) n s, fun _ => rfl⟩
  | call name =>
    refine ⟨.call name, ?_, fun _ => rfl⟩
    simp [layout, step, enter, flatFrames, Nesting.content, flatList, lexeme]
  | opened b =>
    refine ⟨.opened b, ?_, fun _ => rfl⟩
    simp [layout, step, enter, flatFrames, Nesting.content, flatList, lexeme]
  -- A bracket that closes nothing becomes a fault; only the one that is waited for closes its group.
  | closed b =>
    have hfault : ∀ n : Nesting, (n.push (.fault (.unmatched b)) s).layout =
        n.layout ++ [.leaf (.fault (.unmatched b))] := fun n =>
      layout_push (show IsLeaf (.fault (.unmatched b)) from rfl) n s
    obtain ⟨current, frames⟩ := n
    cases frames with
    | nil => exact ⟨_, hfault _, fun h => by simp [Lexeme.isFault] at h⟩
    | cons f frames =>
      by_cases hb : f.opening.ending = b
      · refine ⟨.closed b, ?_, fun _ => rfl⟩
        simp [layout, step, close, hb, flatFrames, Nesting.content, flatList_append, flatList,
          flat_component]
      · refine ⟨.leaf (.fault (.unmatched b)), ?_, fun h => by simp [Lexeme.isFault] at h⟩
        simp only [step, hb, if_false]
        exact hfault _

/-- The lexemes that are stepped over lie in the layout of the state, in their order; without faults they are
    all that is put there. -/
theorem layout_foldl {ls : List (Found Lexeme)} (h : ∀ l ∈ ls, ∀ c, l.item = .leaf c → IsLeaf c)
    (n : Nesting) :
    ∃ ls', (ls.foldl step n).layout = n.layout ++ ls' ∧
      ((∀ l ∈ ls', l.isFault = false) → ls' = ls.map (·.item)) := by
  induction ls generalizing n with
  | nil => exact ⟨[], by simp, fun _ => rfl⟩
  | cons l ls ih =>
    obtain ⟨l', hl, hfault⟩ := layout_step (h l List.mem_cons_self) n
    obtain ⟨ls', hls, hfaults⟩ := ih (fun k hk => h k (List.mem_cons_of_mem _ hk)) (n.step l)
    refine ⟨l' :: ls', by simp [hls, hl], ?_⟩
    intro hall
    rw [hfault (hall l' List.mem_cons_self), hfaults fun k hk => hall k (List.mem_cons_of_mem _ hk)]
    rfl

/-- At the end of a text the brackets that are missing are put in. -/
theorem flatList_finish (current : List (Found Component)) (frames : List Frame) :
    flatList ((finish current frames).map (·.item)) = layout ⟨current, frames⟩ ++ missing frames := by
  induction frames generalizing current with
  | nil => simp [finish, layout, flatFrames, Nesting.content, missing]
  | cons f frames ih =>
    rw [finish, ih]
    simp [layout, flatFrames, Nesting.content, missing, flatList_append, flatList, flat_component]

/-- **What is nested lies flat as it was**, with the missing brackets after it. -/
theorem flatList_ofLexemes {ls : List (Found Lexeme)}
    (h : ∀ l ∈ ls, ∀ c, l.item = .leaf c → IsLeaf c)
    (hfault : Faultless ((ofLexemes ls).map (·.item))) :
    ∃ frames, flatList ((ofLexemes ls).map (·.item)) = ls.map (·.item) ++ missing frames := by
  obtain ⟨ls', hls, hfaults⟩ := layout_foldl h empty
  have hflat : flatList ((ofLexemes ls).map (·.item)) =
      ls' ++ missing (ls.foldl step empty).frames := by
    rw [ofLexemes, flatList_finish]
    show (ls.foldl step empty).layout ++ _ = _
    rw [hls]
    rfl
  refine ⟨(ls.foldl step empty).frames, hflat.trans ?_⟩
  rw [hfaults fun l hl => hfault l (hflat ▸ List.mem_append_left _ hl)]

end Nesting

end CssShorthand
