import CurveSearch.Decimal.Plain

/-!
# Text with a fixed number of decimal places

The exact value of the double is rounded once, to the last place that is written; an exact half
goes to the even neighbour. A set sign bit is written even if all digits are zero.
-/

namespace CurveSearch.Decimal

/-- `m * 2 ^ q` rounded to a multiple of `10 ^ (-places)`. -/
def toPlaces (places m : Nat) (q : Int) : Decimal :=
  ⟨roundDiv .toEven (m * Nat.pow 2 q.toNat * Nat.pow 10 places) (Nat.pow 2 (-q).toNat), -places⟩

/-- A double with exactly `places` digits after the point. -/
def fixed (places : Nat) (x : Float) : List Char :=
  match Binary64.shape x with
  | .finite negative m q => signed negative (joinPoint (toPlaces places m q).positional)
  | _ => plain x

def fixedText (places : Nat) (x : Float) : String := String.ofList (fixed places x)

end CurveSearch.Decimal
