/-
  FONT VALUES.

  The value of `font` is any number of styles, variants and weights, a size, possibly a slash and a
  height of lines, and then the family: whatever is left, as it is written.  Of several styles (or
  variants, or weights) the last counts.  A value that names a font of the system says all at once.
-/
import CssShorthand.Component.Nesting
import CssShorthand.Failure
import CssShorthand.Font.Class
import CssShorthand.Font.Cursor

namespace CssShorthand

/-- The things a font value sets next to the family. -/
structure FontValues where
  style : Text
  variant : Text
  weight : Text
  size : Text
  lineHeight : Text
  deriving Repr, DecidableEq

namespace FontValues

/-- All `normal`. -/
def initial : FontValues :=
  let normal := "normal".toList
  ⟨normal, normal, normal, normal, normal⟩

end FontValues

/-- The things that can stand before the size, in the order in which they are tried. -/
inductive FontField where
  | style
  | variant
  | weight
  deriving Repr, DecidableEq

namespace FontField

/-- The word for a field. -/
def name : FontField → String
  | .style => "style"
  | .variant => "variant"
  | .weight => "weight"

/-- The components that a field takes. -/
def accepts : FontField → Component → Bool
  | .style => Component.isFontStyle
  | .variant => Component.isFontVariant
  | .weight => Component.isFontWeight

/-- Sets a field. -/
def set (value : Text) (v : FontValues) : FontField → FontValues
  | .style => { v with style := value }
  | .variant => { v with variant := value }
  | .weight => { v with weight := value }

end FontField

namespace Cursor

/-- Takes a style, a variant or a weight, whichever of these the next component is first. -/
def consumeField (c : Cursor) : Option (FontField × Component) × Cursor :=
  match c.consume FontField.style.accepts with
  | (some d, c) => (some (.style, d), c)
  | (none, c) =>
    match c.consume FontField.variant.accepts with
    | (some d, c) => (some (.variant, d), c)
    | (none, c) =>
      match c.consume FontField.weight.accepts with
      | (some d, c) => (some (.weight, d), c)
      | (none, c) => (none, c)

/-- Asking for a component moves the cursor forward or not at all. -/
theorem length_rest_consume_le (p : Component → Bool) (c : Cursor) :
    (c.consume p).2.rest.length ≤ c.rest.length := by
  have hs : c.skip.rest.length ≤ c.rest.length := by
    rw [rest_skip]
    exact (List.dropWhile_sublist _).length_le
  unfold consume
  split
  · split
    · rw [rest_advance, List.length_drop]
      omega
    · exact hs
  · exact hs

/-- A field that is taken is gone from the rest, so the loop over the fields ends. -/
theorem length_rest_of_consumeField {c c' : Cursor} {f : FontField × Component}
    (h : c.consumeField = (some f, c')) : c'.rest.length < c.rest.length := by
  unfold consumeField at h
  split at h
  · rename_i h₁
    simp only [Prod.mk.injEq] at h
    exact h.2 ▸ length_rest_of_consume h₁
  · rename_i c₁ h₁
    have le₁ := length_rest_consume_le FontField.style.accepts c
    rw [h₁] at le₁
    split at h
    · rename_i h₂
      simp only [Prod.mk.injEq] at h
      exact h.2 ▸ Nat.lt_of_lt_of_le (length_rest_of_consume h₂) le₁
    · rename_i c₂ h₂
      have le₂ := length_rest_consume_le FontField.variant.accepts c₁
      rw [h₂] at le₂
      split at h
      · rename_i h₃
        simp only [Prod.mk.injEq] at h
        exact h.2 ▸ Nat.lt_of_lt_of_le (length_rest_of_consume h₃) (Nat.le_trans le₂ le₁)
      · simp at h

/-- Takes styles, variants and weights as long as there are any. -/
def consumeFields (v : FontValues) (c : Cursor) : FontValues × Cursor :=
  match _h : c.consumeField with
  | (some (field, d), c') => consumeFields (field.set d.write v) c'
  | (none, c') => (v, c')
termination_by c.rest.length
decreasing_by exact length_rest_of_consumeField _h

end Cursor

/-- What a font value says. -/
inductive FontReading where
  /-- The name of a font of the system. -/
  | system
  /-- The parts of the value; the family may be missing. -/
  | parts (values : FontValues) (family : Option Text)
  deriving Repr, DecidableEq

namespace FontReading

/-- Reads what can follow the size: a slash and a height of lines. -/
def readLineHeight (value : Text) (v : FontValues) (c : Cursor) :
    Except Failure (FontValues × Cursor) :=
  match c.consume Component.isSlash with
  | (none, c) => .ok (v, c)
  | (some _, c) =>
    match c.consume Component.isLineHeight with
    | (some d, c) => .ok ({ v with lineHeight := d.write }, c)
    | (none, _) => .error (.noLineHeight value)

/-- Reads the size and what follows it. -/
def readSize (value : Text) (v : FontValues) (c : Cursor) : Except Failure FontReading :=
  match c.consume Component.isFontSize with
  | (none, _) => .error (.noFontSize value)
  | (some d, c) =>
    match readLineHeight value { v with size := d.write } c with
    | .error e => .error e
    | .ok (v, c) =>
      let family := c.consumeRest.1
      .ok (.parts v (if family.isEmpty then none else some family))

/-- Whether components are the name of a font of the system. -/
def isSystem (cs : List Component) : Bool :=
  match Component.soleKeyword? (Component.significant cs) with
  | some k => systemFonts.contains k
  | none => false

/-- Reads a font value. -/
def ofValue (value : Text) : Except Failure FontReading :=
  let cs := Component.parse value
  if isSystem cs then .ok .system
  else
    let fields := (Cursor.start cs).consumeFields .initial
    readSize value fields.1 fields.2

/-! ## Running the reader -/

example : (ofValue "caption".toList).toOption = some .system := by decide +kernel
example : (ofValue "italic 12px/2 serif".toList).toOption =
    some (.parts ⟨"italic".toList, "normal".toList, "normal".toList, "12px".toList, ['2']⟩
      (some "serif".toList)) := by
  decide +kernel

end FontReading

end CssShorthand
