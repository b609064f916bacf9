/-!
# Decimal numbers

A nonnegative decimal is a natural coefficient and a power of ten. Its digits can be laid out
positionally, whatever the exponent is, and every output format below starts from that layout.
-/

namespace CurveSearch

/-- The nonnegative number `coefficient * 10 ^ exponent`. -/
structure Decimal where
  coefficient : Nat
  exponent : Int
  deriving DecidableEq, Repr

namespace Decimal

def digits (d : Decimal) : List Char := Nat.toDigits 10 d.coefficient

/-- The power of ten that the first digit counts. -/
def leading (d : Decimal) : Int := d.exponent + d.digits.length - 1

/-- The digits before the point, at least one, and those after it, perhaps none. -/
def positional (d : Decimal) : List Char × List Char :=
  if 0 ≤ d.exponent then (d.digits ++ List.replicate d.exponent.toNat '0', [])
  else
    let places := (-d.exponent).toNat
    if places < d.digits.length then d.digits.splitAt (d.digits.length - places)
    else (['0'], List.replicate (places - d.digits.length) '0' ++ d.digits)

end Decimal

end CurveSearch
