/-
  NUMERALS.

  The text of a CSS number is a sign, digits with at most one point, and at most one exponent.  It
  denotes `± mantissa · 10 ^ exponent`.  A reader of style sheets keeps the number as a double, so a
  numeral counts as zero as soon as the nearest double is zero: up to half of the least positive
  double, `2 ^ -1075`, that end included.
-/
import CssShorthand.Text.Basic

namespace CssShorthand

/-- What a numeral denotes, and whether it is written as an integer (no point and no exponent). -/
structure Numeral where
  negative : Bool
  mantissa : Nat
  exponent : Int
  isInteger : Bool
  deriving Repr, DecidableEq

namespace Numeral

/-- The number written by decimal digits, in the order of the text. -/
def ofDigits (digits : Text) : Nat :=
  digits.foldl (fun n c => 10 * n + (c.toNat - 48)) 0

/-- Splits a leading sign off: whether it is a minus, and what follows it. -/
def takeSign : Text → Bool × Text
  | '-' :: t => (true, t)
  | '+' :: t => (false, t)
  | t => (false, t)

/-- The integer written by an optional sign and digits. -/
def signedInteger (t : Text) : Int :=
  let (negative, digits) := takeSign t
  if negative then -(ofDigits digits : Int) else ofDigits digits

/-- Reads the text of a number. -/
def ofText (t : Text) : Numeral :=
  let (negative, unsigned) := takeSign t
  let whole := unsigned.takeWhile Char.isDigit
  let afterWhole := unsigned.dropWhile Char.isDigit
  let (fraction, afterFraction) := match afterWhole with
    | '.' :: r => (r.takeWhile Char.isDigit, r.dropWhile Char.isDigit)
    | r => ([], r)
  let exponent := match afterFraction with
    | _ :: e => signedInteger e
    | [] => 0
  { negative
    mantissa := ofDigits (whole ++ fraction)
    exponent := exponent - fraction.length
    isInteger := afterWhole.isEmpty }

/-- How many decimal digits the mantissa has. -/
def digitCount (x : Numeral) : Nat := (Nat.toDigits 10 x.mantissa).length

/-- Whether the double nearest to the number is zero.  The first test on the exponent only keeps
    the powers small: there the number is below `10 ^ -400`. -/
def isZero (x : Numeral) : Bool :=
  x.mantissa == 0 ||
    (x.exponent < 0 &&
      (x.exponent + x.digitCount < -400 ||
        x.mantissa * Nat.pow 2 1075 ≤ Nat.pow 10 (-x.exponent).toNat))

/-- The value of a numeral that is written as an integer. -/
def integer? (x : Numeral) : Option Int :=
  if x.isInteger then some (if x.negative then -(x.mantissa : Int) else x.mantissa) else none

/-! ## Running the reader -/

example : ofText "-1.50".toList = ⟨true, 150, -2, false⟩ := by decide +kernel
example : (ofText "1e-400".toList).isZero = true := by decide +kernel   -- below every double

end Numeral

end CssShorthand
