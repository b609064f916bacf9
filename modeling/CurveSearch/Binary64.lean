import CurveSearch.Rounding

/-!
# Doubles as exact dyadic numbers

A finite double is `± significand * 2 ^ exponent` for natural `significand` and integer `exponent`.
This module reads that form off the sixty-four bits and, in the other direction, rounds a fraction
of natural numbers to the nearest double. The two directions meet in one encoding: the bits of a
nonnegative double, read as a number, are `(exponent + 1074) * 2 ^ 52 + significand`, for subnormal
and normal numbers alike, so a significand that rounds up to `2 ^ 53` carries into the next binade.
Powers are written as `Nat.pow`, so that they mean the same where an algebraic hierarchy is in scope.
-/

namespace CurveSearch.Binary64

/-- The bits of positive infinity. Larger magnitudes belong to NaN. -/
def infinityBits : Nat := 0x7ff0000000000000

def infinity : Float := Float.ofBits 0x7ff0000000000000

def negInfinity : Float := Float.ofBits 0xfff0000000000000

def nan : Float := Float.ofBits 0x7ff8000000000000

/-- The bits without the sign. -/
def magnitude (x : Float) : Nat := x.toBits.toNat % Nat.pow 2 63

/-- The sign bit; it is set for `-0.0` too. -/
def isSignMinus (x : Float) : Bool := Nat.pow 2 63 ≤ x.toBits.toNat

def significand (bits : Nat) : Nat :=
  if bits < Nat.pow 2 52 then bits else bits % Nat.pow 2 52 + Nat.pow 2 52

def exponent (bits : Nat) : Int :=
  (max 1 (bits / Nat.pow 2 52) : Nat) - 1075

inductive Shape where
  | nan
  | infinite (negative : Bool)
  | finite (negative : Bool) (significand : Nat) (exponent : Int)
  deriving DecidableEq, Repr

def shape (x : Float) : Shape :=
  let bits := magnitude x
  if bits < infinityBits then .finite (isSignMinus x) (significand bits) (exponent bits)
  else if bits = infinityBits then .infinite (isSignMinus x)
  else .nan

def ofMagnitude (negative : Bool) (bits : Nat) : Float :=
  Float.ofBits (UInt64.ofNat (if negative then bits + Nat.pow 2 63 else bits))

/-- `num / den` in units of `2 ^ unit`, as a fraction. -/
def inUnits (num den : Nat) (unit : Int) : Nat × Nat :=
  (num * Nat.pow 2 (-unit).toNat, den * Nat.pow 2 unit.toNat)

/-- The binary exponent at which `num / den` has a 53-bit integer part, or the least exponent of
all when the fraction is too small for that. -/
def unitFor (num den : Nat) : Int :=
  let low := max (-1074) ((num.log2 : Int) - den.log2 - 53)
  let (n, d) := inUnits num den low
  if Nat.pow 2 53 * d ≤ n then low + 1 else low

/-- The magnitude bits of the double nearest to `num / den`, ties to the even significand. What
exceeds the largest finite double by half a unit or more is infinite. -/
def nearest (num den : Nat) : Nat :=
  if num = 0 then 0
  else
    let unit := unitFor num den
    let (n, d) := inUnits num den unit
    min infinityBits ((unit + 1074).toNat * Nat.pow 2 52 + roundDiv .toEven n d)

def floor? (x : Float) : Option Int :=
  match shape x with
  | .finite negative m q =>
      let unit := Nat.pow 2 (-q).toNat
      let scaled := m * Nat.pow 2 q.toNat
      some (if negative then -((scaled + (unit - 1)) / unit : Nat) else (scaled / unit : Nat))
  | _ => none

def ceil? (x : Float) : Option Int := (floor? (-x)).map (- ·)

def isInteger (x : Float) : Bool :=
  match shape x with
  | .finite _ m q => m % Nat.pow 2 (-q).toNat = 0
  | _ => false

/-- The smaller of two doubles, where a NaN gives way to the other one. -/
def minimum (a b : Float) : Float :=
  if a < b then a else if a.isNaN then b else if b ≤ a then b else a

def maximum (a b : Float) : Float :=
  if b < a then a else if a.isNaN then b else if a ≤ b then b else a

/-- Significand and exponent give the magnitude bits back. -/
theorem encode_decode {bits : Nat} (h : bits < infinityBits) :
    (exponent bits + 1074).toNat * Nat.pow 2 52 + significand bits = bits := by
  unfold exponent significand
  unfold infinityBits at h
  simp only [Nat.pow_eq]
  split <;> omega

end CurveSearch.Binary64
