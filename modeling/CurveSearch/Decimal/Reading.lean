import CurveSearch.Binary64

/-!
# Reading a decimal

The accepted texts are an optional sign followed by `nan`, `inf` or `infinity` in any case, or by
digits with an optional point (at least one digit on either side of it) and an optional exponent.
The result is the double nearest to the number that the text names.
-/

namespace CurveSearch.Decimal

def ofDigits (cs : List Char) : Nat :=
  cs.foldl (fun n c ↦ 10 * n + (c.toNat - '0'.toNat)) 0

/-- The magnitude bits of the double nearest to `n * 10 ^ e`, where `n` has at most `count` digits.
Beyond the range of the doubles the answer does not depend on `n`, and no power is computed. -/
def nearestBits (n count : Nat) (e : Int) : Nat :=
  if n = 0 then 0
  else if 310 < e then Binary64.infinityBits
  else if count + e < -330 then 0
  else Binary64.nearest (n * Nat.pow 10 e.toNat) (Nat.pow 10 (-e).toNat)

/-- The exponent part of a numeral: nothing, or `e` with an optional sign and at least one digit. -/
def readExponent? : List Char → Option Int
  | [] => some 0
  | c :: cs =>
      if c = 'e' ∨ c = 'E' then
        let (negative, ds) := match cs with
          | '-' :: ds => (true, ds)
          | '+' :: ds => (false, ds)
          | ds => (false, ds)
        if ds ≠ [] ∧ ds.all Char.isDigit then
          some (if negative then -ofDigits ds else ofDigits ds)
        else none
      else none

/-- The magnitude bits that an unsigned numeral such as `12`, `.5`, `1.` or `2.5e-3` reads as. -/
def readMagnitude? (cs : List Char) : Option Nat := do
  let whole := cs.takeWhile Char.isDigit
  let (fraction, tail) := match cs.dropWhile Char.isDigit with
    | '.' :: rest => (rest.takeWhile Char.isDigit, rest.dropWhile Char.isDigit)
    | rest => ([], rest)
  guard (whole ++ fraction ≠ [])
  let e ← readExponent? tail
  some (nearestBits (ofDigits (whole ++ fraction)) (whole.length + fraction.length)
    (e - fraction.length))

def readWord? (cs : List Char) : Option Nat :=
  let word := cs.map Char.toLower
  if word = "inf".toList ∨ word = "infinity".toList then some Binary64.infinityBits
  else if word = "nan".toList then some (Binary64.infinityBits + Nat.pow 2 51)
  else none

def read? (cs : List Char) : Option Float :=
  let (negative, body) := match cs with
    | '-' :: rest => (true, rest)
    | '+' :: rest => (false, rest)
    | rest => (false, rest)
  ((readWord? body).or (readMagnitude? body)).map (Binary64.ofMagnitude negative)

end CurveSearch.Decimal
