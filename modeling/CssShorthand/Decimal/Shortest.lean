/-
  THE SHORTEST DECIMAL OF A DOUBLE.

  A positive double is `m · 2 ^ q`.  The reals that are read as it form an interval around it, whose
  ends belong to it if and only if `m` is even.  For one digit, two digits, ... seventeen digits, the
  two neighbours of the double among the decimals of that many digits are tried: the first count
  with a neighbour inside the interval wins, and of two such neighbours the nearer (of two at the
  same distance the even one).  So the written decimal reads back, and none with fewer digits does.

  `Shortest.text` writes it: with a point and at least one decimal from `0.0001` up to below
  `10 ^ 16`, otherwise with an exponent of at least two digits and a sign.
-/
import CssShorthand.Text.Basic

namespace CssShorthand

namespace Shortest

/-- A positive double `m · 2 ^ q`; `atPower` says that the next smaller double is half as far away
    as the next greater one. -/
structure Binary where
  m : Nat
  q : Int
  atPower : Bool

/-- The finite positive double with these bits (the sign bit left out). -/
def Binary.ofBits (bits : Nat) : Binary :=
  let field : Nat := bits / Nat.pow 2 52
  let fraction : Nat := bits % Nat.pow 2 52
  if field = 0 then ⟨fraction, -1074, false⟩
  else ⟨Nat.pow 2 52 + fraction, (field : Int) - 1075, fraction = 0 && field ≠ 1⟩

/-- A non-negative fraction. -/
structure Ratio where
  num : Nat
  den : Nat

/-- The number `n · 2 ^ k · 10 ^ d`. -/
def Ratio.ofPowers (n : Nat) (k d : Int) : Ratio :=
  ⟨n * Nat.pow 2 k.toNat * Nat.pow 10 d.toNat, Nat.pow 2 (-k).toNat * Nat.pow 10 (-d).toNat⟩

/-- Comparison without division. -/
def Ratio.le (a b : Ratio) : Bool := a.num * b.den ≤ b.num * a.den

/-- Strict comparison. -/
def Ratio.lt (a b : Ratio) : Bool := a.num * b.den < b.num * a.den

/-- The exponent `e` with `10 ^ e ≤ x < 10 ^ (e + 1)`, for a positive `x`. -/
def Ratio.magnitude (x : Ratio) : Int :=
  if x.den ≤ x.num then (Nat.toDigits 10 (x.num / x.den)).length - 1
  else -((Nat.toDigits 10 ((x.den + x.num - 1) / x.num - 1)).length : Int)

/-- A decimal `digits · 10 ^ exponent`. -/
structure Decimal where
  digits : Nat
  exponent : Int

/-- Whether `k · 10 ^ e` is read as the double. -/
def Binary.readsBack (x : Binary) (k : Nat) (e : Int) : Bool :=
  let below := Ratio.ofPowers (4 * x.m - (if x.atPower then 1 else 2)) (x.q - 2) 0
  let above := Ratio.ofPowers (4 * x.m + 2) (x.q - 2) 0
  let y := Ratio.ofPowers k 0 e
  if x.m % 2 = 0 then below.le y && y.le above else below.lt y && y.lt above

/-- Of two neighbours on the grid of step `10 ^ e` that both read back, the nearer one. -/
def Binary.nearer (x : Binary) (k : Nat) (e : Int) : Nat :=
  let twice := Ratio.ofPowers (2 * x.m) x.q (-e)
  if twice.num < (2 * k + 1) * twice.den then k
  else if (2 * k + 1) * twice.den < twice.num then k + 1
  else if k % 2 = 0 then k else k + 1

/-- The decimal on the grid of step `10 ^ e` that reads back, if there is one. -/
def Binary.onGrid? (x : Binary) (e : Int) : Option Decimal :=
  let scaled := Ratio.ofPowers x.m x.q (-e)
  let k := scaled.num / scaled.den
  match x.readsBack k e, x.readsBack (k + 1) e with
  | true, true => some ⟨x.nearer k e, e⟩
  | true, false => some ⟨k, e⟩
  | false, true => some ⟨k + 1, e⟩
  | false, false => none

/-- The shortest decimal of a positive double. -/
def Binary.shortest (x : Binary) : Decimal :=
  let top := (Ratio.ofPowers x.m x.q 0).magnitude
  ((List.range 17).findSome? fun n : Nat => x.onGrid? (top - (n : Int))).getD ⟨0, 0⟩

/-- The digits without the zeros at their end. -/
def dropZeros (digits : Text) : Text := (digits.reverse.dropWhile (· == '0')).reverse

/-- Writes the digits `d₀ d₁ d₂ …` of `d₀.d₁d₂… · 10 ^ e`. -/
def layout (digits : Text) (e : Int) : Text :=
  if -4 ≤ e ∧ e < 16 then
    if e < 0 then ['0', '.'] ++ List.replicate (-e - 1).toNat '0' ++ digits
    else
      let whole := (e + 1).toNat
      let fraction := digits.drop whole
      digits.take whole ++ List.replicate (whole - digits.length) '0' ++ ['.'] ++
        (if fraction.isEmpty then ['0'] else fraction)
  else
    let sign := if e < 0 then '-' else '+'
    let fraction := digits.drop 1
    digits.take 1 ++ (if fraction.isEmpty then [] else '.' :: fraction) ++
      ['e', sign] ++ List.leftpad 2 '0' (Nat.toDigits 10 e.natAbs)

/-- The text of a finite double of which the sign bit is left out. -/
def magnitudeText (bits : Nat) : Text :=
  if bits = 0 then ['0', '.', '0']
  else
    let d := (Binary.ofBits bits).shortest
    let digits := Nat.toDigits 10 d.digits
    layout (dropZeros digits) (d.exponent + digits.length - 1)

/-- The text of a double: the shortest decimal that reads back as it. -/
def text (x : Float) : Text :=
  let bits := x.toBits.toNat
  let unsigned := bits % Nat.pow 2 63
  let sign := if bits < Nat.pow 2 63 then [] else ['-']
  if 2047 * Nat.pow 2 52 < unsigned then ['n', 'a', 'n']
  else if unsigned = 2047 * Nat.pow 2 52 then sign ++ ['i', 'n', 'f']
  else sign ++ magnitudeText unsigned

/-! ## Running the writer -/

example : text 0.1 = "0.1".toList := by decide +kernel
example : text 1e16 = "1e+16".toList := by decide +kernel

end Shortest

end CssShorthand
