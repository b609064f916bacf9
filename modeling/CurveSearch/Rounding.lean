/-!
# Rounding a quotient of natural numbers

Every conversion between doubles and decimals ends in one exact division. The quotient is the
nearest integer, and a `Tie` says which neighbour takes an exact half. Both neighbours of a half
are equally near, so the choice is a property of the format and not of the arithmetic.
-/

namespace CurveSearch

/-- Which of its two neighbours an exact half goes to. -/
inductive Tie where
  | toEven
  | up
  deriving DecidableEq, Repr

/-- The natural number nearest to `num / den`; an exact half goes as `tie` says. -/
def roundDiv (tie : Tie) (num den : Nat) : Nat :=
  let whole := num / den
  let rest := num % den
  if 2 * rest < den then whole
  else if den < 2 * rest then whole + 1
  else match tie with
    | .toEven => whole + whole % 2
    | .up => whole + 1

theorem roundDiv_mul_right (tie : Tie) (n : Nat) {den : Nat} (h : 0 < den) :
    roundDiv tie (n * den) den = n := by
  simp [roundDiv, Nat.mul_div_cancel _ h, h]

end CurveSearch
