/-
  BLOCKS OF DECLARATIONS.

  A block is read item by item: a declaration `name: value`, a nested rule, or something that is
  neither.  A declaration ends at a semicolon or with a block in braces; what cannot be a declaration is
  read as a rule, up to its block.  Every item is found with its place in the text.
-/
import CssShorthand.Component.Split
import CssShorthand.Notice
import CssShorthand.Store.Basic

namespace CssShorthand

/-- Why a part of a block is neither a declaration nor a rule. -/
inductive BlockFault where
  /-- A semicolon comes where a rule would need its block. -/
  | stopped
  /-- The text ends where a rule would need its block. -/
  | ended
  deriving Repr, DecidableEq

/-- What is said about a fault of a block. -/
def BlockFault.message : BlockFault → String
  | .stopped => "Stop token reached before \x7b\x7d block for a qualified rule."
  | .ended => "EOF reached before \x7b\x7d block for a qualified rule."

/-- An item of a block. -/
inductive BlockItem where
  | declaration (name : Text) (value : List Component) (important : Bool)
  | rule
  | malformed (fault : BlockFault)
  deriving Repr

namespace Component

/-- The semicolon between declarations. -/
def isSemicolon (c : Component) : Bool := c.isDelimiter [';']

end Component

namespace Block

/-! ## The mark of importance -/

/-- How far a mark `! important` at the end of a value is read; `start` is the place of its `!`. -/
inductive Mark where
  | absent
  | bang (start : Nat)
  | complete (start : Nat)
  deriving Repr, DecidableEq

/-- Reads on by the component `c` at place `i`. -/
def Mark.step (m : Mark) : Component × Nat → Mark
  | (c, i) =>
    match m with
    | .absent => if c.isDelimiter ['!'] then .bang i else .absent
    | .bang start =>
      if c.keyword? = some "important" then .complete start
      else if c.isSeparator then .bang start
      else .absent
    | .complete start => if c.isSeparator then .complete start else .absent

/-- Whether `c` reads a mark on: its `!`, or its word. -/
def Mark.takes : Mark → Component → Bool
  | .absent, c => c.isDelimiter ['!']
  | .bang _, c => c.keyword? = some "important"
  | .complete _, _ => false

/-- The components of a value that are neither separators nor taken for a mark, wherever the mark
    stands, and whether or not it is complete. -/
def content : Mark → List Component → List Component
  | _, [] => []
  | m, c :: cs =>
    let rest := content (m.step (c, 0)) cs
    if c.isSeparator || m.takes c then rest else c :: rest

/-- A value without the mark at its end, and whether it had one. -/
def takeMark (value : List Component) : List Component × Bool :=
  match value.zipIdx.foldl Mark.step .absent with
  | .complete start => (value.take start, true)
  | _ => (value, false)

/-! ## Declarations -/

/-- What a declaration can take of the following components: up to a semicolon, which is dropped, or
    with the first block in braces. -/
def takeBody : List (Found Component) → List Component × List (Found Component)
  | [] => ([], [])
  | c :: cs =>
    if c.item.isSemicolon then ([], cs)
    else if c.item.isBraceBlock then ([c.item], cs)
    else
      let more := takeBody cs
      (c.item :: more.1, more.2)

/-- Whether a value has a block in braces after something else: such a value is none. -/
def hasLateBlock (value : List Component) : Bool :=
  ((content .absent value).drop 1).any (·.isBraceBlock)

/-- The declaration of a name that a body makes, if it makes one. -/
def declaration? (name : Text) (body : List Component) : Option BlockItem :=
  match body.dropWhile (·.isSeparator) with
  | c :: value =>
    if c.isDelimiter [':'] && !hasLateBlock value then
      let marked := takeMark value
      some (.declaration name marked.1 marked.2)
    else none
  | [] => none

/-! ## Rules -/

/-- Drops a rule that begins with `@`: up to its block or a semicolon. -/
def dropAtRule : List (Found Component) → List (Found Component)
  | [] => []
  | c :: cs => if c.item.isSemicolon || c.item.isBraceBlock then cs else dropAtRule cs

/-- Reads a rule that starts at `start` on to its block; `last` is where the component before begins. -/
def takeRule (start : Text) : Text → List (Found Component) → Found BlockItem × List (Found Component)
  | last, [] => (⟨.malformed .ended, last⟩, [])
  | _, c :: cs =>
    if c.item.isSemicolon then (⟨.malformed .stopped, c.suffix⟩, cs)
    else if c.item.isBraceBlock then (⟨.rule, start⟩, cs)
    else takeRule start c.suffix cs

/-! ## Items -/

/-- Reads the item that begins with `c`, which is no white space and no semicolon. -/
def takeItem (c : Found Component) (cs : List (Found Component)) :
    Found BlockItem × List (Found Component) :=
  match c.item with
  | .atKeyword _ => (⟨.rule, c.suffix⟩, dropAtRule cs)
  | .block .brace _ => (⟨.rule, c.suffix⟩, cs)
  | d =>
    let body := takeBody cs
    match d.identName?.bind (declaration? · body.1) with
    | some item => (⟨item, c.suffix⟩, body.2)
    | none => takeRule c.suffix c.suffix cs

theorem takeBody_length_le (cs : List (Found Component)) : (takeBody cs).2.length ≤ cs.length := by
  fun_induction takeBody cs with
  | case1 => simp
  | case2 => simp
  | case3 => simp
  | case4 c cs _ _ _ ih => exact Nat.le_succ_of_le ih

theorem dropAtRule_length_le (cs : List (Found Component)) :
    (dropAtRule cs).length ≤ cs.length := by
  fun_induction dropAtRule cs with
  | case1 => simp
  | case2 => simp
  | case3 c cs _ ih => exact Nat.le_succ_of_le ih

/-- A rule takes from the front of what follows. -/
theorem takeRule_length_le (start last : Text) (cs : List (Found Component)) :
    (takeRule start last cs).2.length ≤ cs.length := by
  fun_induction takeRule start last cs with
  | case1 => simp
  | case2 => simp
  | case3 => simp
  | case4 last c cs _ _ ih => exact Nat.le_succ_of_le ih

/-- So does each item of a block, whichever of the four it is. -/
theorem takeItem_length_le (c : Found Component) (cs : List (Found Component)) :
    (takeItem c cs).2.length ≤ cs.length := by
  unfold takeItem
  split
  · exact dropAtRule_length_le cs
  · exact Nat.le_refl _
  · dsimp only
    split
    · exact takeBody_length_le cs
    · exact takeRule_length_le _ _ cs

/-- The items of a block, from its outermost components. -/
def itemsOf : List (Found Component) → List (Found BlockItem)
  | [] => []
  | c :: cs =>
    if c.item.isSeparator || c.item.isSemicolon then itemsOf cs
    else
      let here := takeItem c cs
      here.1 :: itemsOf here.2
termination_by cs => cs.length
decreasing_by
  · simp
  · exact Nat.lt_succ_of_le (takeItem_length_le c cs)

/-- The items of a block. -/
def items (block : Text) : List (Found BlockItem) :=
  itemsOf (Component.parseFound (Lexeme.normalize block))

/-- The line and column at which `suffix` begins in a text. -/
def positionIn (whole suffix : Text) : Position :=
  let before := whole.take (whole.length - suffix.length)
  ⟨before.count '\n' + 1, (before.reverse.takeWhile (· != '\n')).length + 1⟩

/-! ## From a block to a store -/

/-- Declares what an item declares, or says why it is left out. -/
def declare (whole : Text) (r : Store × List Notice) (i : Found BlockItem) : Store × List Notice :=
  match i.item with
  | .declaration name value important =>
    (r.1.add (Text.toString name) (.text (Component.writeTrimmed value)) important, r.2)
  | .rule => (r.1, r.2 ++ [.nestedRule (positionIn whole i.suffix)])
  | .malformed fault => (r.1, r.2 ++ [.malformed fault.message (positionIn whole i.suffix)])

/-- The declarations of a block, and what is said about the rest of it. -/
def parse (block : Text) : Store × List Notice :=
  (items block).foldl (declare (Lexeme.normalize block)) (.empty, [])

end Block

end CssShorthand
