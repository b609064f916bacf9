import CurveSearch.Decimal.Reading
import CurveSearch.Decimal.Shortest

/-!
# JSON numerals

A numeral is kept as it is spelled: a sign, the digits before and after the point, and an exponent.

Doubles are written with the fewest digits that read back: positionally, and with at least one digit
after the point, as long as the first digit stands for a power of ten from `-5` to `15`, and with an
exponent otherwise.

Reading is fast and not always exact. The digits are gathered in a natural number of sixty-four
bits, as far as they fit, and converted to a double, which is multiplied or divided by one power of
ten. That gives the nearest double whenever the digits and the power are exact doubles.
-/

namespace CurveSearch.Json

structure Numeral where
  negative : Bool
  whole : List Char
  /-- The digits after the point; without a point there are none. -/
  fraction : List Char
  exponent : Option (Bool × List Char)
  deriving DecidableEq, Repr

namespace Numeral

/-- The text of a numeral. An exponent has its sign written out. -/
def print (n : Numeral) : List Char :=
  (if n.negative then ['-'] else []) ++ n.whole ++
    (if n.fraction = [] then [] else '.' :: n.fraction) ++
    match n.exponent with
    | none => []
    | some (negative, ds) => 'e' :: (if negative then '-' else '+') :: ds

def ofNat (n : Nat) : Numeral := ⟨false, Nat.toDigits 10 n, [], none⟩

def ofDecimal (negative : Bool) (d : Decimal) : Numeral :=
  let first := d.leading
  if -5 ≤ first ∧ first ≤ 15 then
    let (whole, fraction) := d.positional
    ⟨negative, whole, if fraction = [] then ['0'] else fraction, none⟩
  else
    ⟨negative, d.digits.take 1, d.digits.drop 1,
      some (first < 0, Nat.toDigits 10 first.natAbs)⟩

/-- The numeral of a finite double. An exact tie between two shortest decimals goes to the even
digit. -/
def ofFloat? (x : Float) : Option Numeral :=
  match Binary64.shape x with
  | .finite negative m q => some (ofDecimal negative (Decimal.shortest .toEven m q))
  | _ => none

/-- Appends digits to a natural number as long as it stays below `2 ^ 64`; the number, and the
digits that were not taken. -/
def gather (n : Nat) : List Char → Nat × List Char
  | [] => (n, [])
  | c :: cs =>
      let next := 10 * n + Decimal.ofDigits [c]
      if next < UInt64.size then gather next cs else (n, c :: cs)

/-- The digits of a numeral as a natural number below `2 ^ 64` and a power of ten. Digits before the
point that do not fit raise the power; digits after it are then tried again, until one does not
fit. -/
def significand (n : Numeral) : Nat × Int :=
  let (whole, wholeRest) := gather 0 n.whole
  let (all, fractionRest) := gather whole n.fraction
  (all, (wholeRest.length : Int) - (n.fraction.length - fractionRest.length : Nat))

/-- A double multiplied by `10 ^ e`, if the result is finite. Powers beyond those of the doubles
divide in several steps. -/
def scale? (x : Float) (e : Int) : Option Float :=
  if 308 < e then if x == 0 then some x else none
  else if 0 ≤ e then
    let y := x * Float.ofScientific 1 false e.toNat
    if y.isInf then none else some y
  else if -308 ≤ e then some (x / Float.ofScientific 1 false (-e).toNat)
  else if x == 0 then some x
  else scale? (x / 1e308) (e + 308)
  termination_by (-e).toNat

/-- The double that a numeral reads as, unless it is too large. An exponent of more than thirty-one
bits decides alone: it makes the number too large or zero. -/
def toFloat? (n : Numeral) : Option Float := do
  let (digits, power) := n.significand
  let size := (UInt64.ofNat digits).toFloat
  let magnitude ← match n.exponent with
    | none => scale? size power
    | some (negative, ds) =>
        let e := Decimal.ofDigits ds
        if e < Nat.pow 2 31 then scale? size (if negative then power - e else power + e)
        else if digits ≠ 0 ∧ !negative then none
        else some 0
  some (if n.negative then -magnitude else magnitude)

/-- The natural number below `2 ^ 64` that a numeral without sign, point and exponent reads as. -/
def toNat? (n : Numeral) : Option Nat :=
  let value := Decimal.ofDigits n.whole
  if !n.negative ∧ n.fraction = [] ∧ n.exponent = none ∧ value < UInt64.size then some value
  else none

end Numeral

end CurveSearch.Json
