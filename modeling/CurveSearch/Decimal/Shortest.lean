import CurveSearch.Binary64
import CurveSearch.Decimal.Basic

/-!
# The shortest decimal of a double

The reals that round to a double `m * 2 ^ q` form an interval around it, and any decimal inside
that interval names the double. The shortest one lies on the coarsest decimal grid, the multiples
of a power of ten, that has a point inside; on that grid only the two neighbours of the double need
to be tried. All comparisons are between natural numbers: the interval has its ends on multiples of
a quarter of the last place, so both sides are scaled to clear the powers of two and ten.
-/

namespace CurveSearch.Decimal

/-- The distance to the lower end of the rounding interval, in quarters of the last place. Below a
power of two the doubles are twice as dense, unless the double is already in the lowest binade. -/
def lowerGap (m : Nat) (q : Int) : Nat := if m = Nat.pow 2 52 ∧ -1074 < q then 1 else 2

/-- A quarter of the last place of `m * 2 ^ q`, scaled as `gridStep q e` is. -/
def quarter (q e : Int) : Nat := Nat.pow 2 (q - 2).toNat * Nat.pow 10 (-e).toNat

/-- The step `10 ^ e` of a decimal grid, scaled as `quarter q e` is. -/
def gridStep (q e : Int) : Nat := Nat.pow 2 (2 - q).toNat * Nat.pow 10 e.toNat

/-- Whether `d * 10 ^ e` rounds to `m * 2 ^ q`. The ends of the interval do so just when `m` is
even. -/
def roundsTo (m : Nat) (q : Int) (d : Nat) (e : Int) : Bool :=
  let lower := (4 * m - lowerGap m q) * quarter q e
  let upper := (4 * m + 2) * quarter q e
  let point := d * gridStep q e
  if m % 2 = 0 then lower ≤ point ∧ point ≤ upper else lower < point ∧ point < upper

def nearestOnGrid (tie : Tie) (m : Nat) (q e : Int) : Nat :=
  roundDiv tie (4 * m * quarter q e) (gridStep q e)

def onGrid? (tie : Tie) (m : Nat) (q e : Int) : Option Nat :=
  let below := 4 * m * quarter q e / gridStep q e
  match roundsTo m q below e, roundsTo m q (below + 1) e with
  | true, true => some (nearestOnGrid tie m q e)
  | true, false => some below
  | false, true => some (below + 1)
  | false, false => none

/-- The first grid with a hit among `10 ^ e, 10 ^ (e - 1), …`, and after `steps` refinements the
grid that is reached then. -/
def refineGrid (tie : Tie) (m : Nat) (q : Int) : Nat → Int → Decimal
  | 0, e => ⟨nearestOnGrid tie m q e, e⟩
  | steps + 1, e =>
      match onGrid? tie m q e with
      | some d => ⟨d, e⟩
      | none => refineGrid tie m q steps (e - 1)

/-- An exponent `e` with `2 ^ b ≤ 10 ^ e` that is at most a digit or two too large. The two
factors are `log10 2` rounded away from the sign of `b`. -/
def powerAbove (b : Int) : Int :=
  if 0 ≤ b then -(-(b * 30103) / 100000) else -(-(b * 30102) / 100000)

/-- The shortest decimal that rounds to `m * 2 ^ q`; of several the nearest, and of two equally
near the one that `tie` prefers. The search ends at the latest on the grid of `10 ^ min q 0`, which
contains `m * 2 ^ q` itself. -/
def shortest (tie : Tie) (m : Nat) (q : Int) : Decimal :=
  if m = 0 then ⟨0, 0⟩
  else
    let coarse := powerAbove (q + m.log2 + 1)
    refineGrid tie m q (coarse - min q 0).toNat coarse

end CurveSearch.Decimal
