import CurveSearch.Decimal.Shortest

/-!
# Plain decimal text

Plain text writes a double with the fewest digits that read back, always positionally, and a whole
number without a point. It is the form that printed expressions and messages use.
-/

namespace CurveSearch.Decimal

def joinPoint : List Char × List Char → List Char
  | (whole, []) => whole
  | (whole, fraction) => whole ++ '.' :: fraction

def signed (negative : Bool) (text : List Char) : List Char :=
  if negative then '-' :: text else text

/-- A nonnegative finite double in plain text. An exact tie between two shortest decimals goes
up. -/
def plainMagnitude (m : Nat) (q : Int) : List Char := joinPoint (shortest .up m q).positional

/-- A double in plain text: `0.1`, `-3`, `100000000000000000000000`, `-0`, `inf`, `NaN`. -/
def plain (x : Float) : List Char :=
  match Binary64.shape x with
  | .nan => ['N', 'a', 'N']
  | .infinite negative => signed negative ['i', 'n', 'f']
  | .finite negative m q => signed negative (plainMagnitude m q)

def plainText (x : Float) : String := String.ofList (plain x)

end CurveSearch.Decimal
