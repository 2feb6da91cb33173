/-
  QUOTED TEXTS IN MESSAGES.

  A message shows a text between quotes, on one line.  The quote is `'`, or `"` where the text holds
  a `'` and no `"`.  A backslash and the chosen quote are written after a backslash, newline, carriage
  return and tab as `\n`, `\r`, `\t`, and any other character that does not print by the hexadecimal
  digits of its code point: two after `\x`, four after `\u` or eight after `\U`, the shortest that fits.
-/
import CssShorthand.Text.Basic
import CssShorthand.Text.Printable

namespace CssShorthand

namespace Text

/-- The hexadecimal digits of `n`, in lower case, at least `width` of them. -/
def hexDigits (width n : Nat) : Text := List.leftpad width '0' (Nat.toDigits 16 n)

/-- The quote put around a text: the double one where only the single one occurs in the text. -/
def quoteFor (t : Text) : Char :=
  if t.contains '\'' && !t.contains '"' then '"' else '\''

/-- One character between quotes. -/
def quotedChar (quote c : Char) : Text :=
  if c = '\\' ∨ c = quote then ['\\', c]
  else if c = '\n' then ['\\', 'n']
  else if c = '\r' then ['\\', 'r']
  else if c = '\t' then ['\\', 't']
  else if isPrintable c then [c]
  else if c.toNat < 0x100 then ['\\', 'x'] ++ hexDigits 2 c.toNat
  else if c.toNat < 0x10000 then ['\\', 'u'] ++ hexDigits 4 c.toNat
  else ['\\', 'U'] ++ hexDigits 8 c.toNat

/-- The text between quotes, with escapes. -/
def quoted (t : Text) : Text :=
  quoteFor t :: t.flatMap (quotedChar (quoteFor t)) ++ [quoteFor t]

/-! ## Running the rule -/

example : quoted "it's".toList = "\"it's\"".toList := by decide +kernel
example : quoted "a\nb".toList = "'a\\nb'".toList := by decide +kernel

end Text

end CssShorthand
