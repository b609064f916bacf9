/-!
# Angle units

Trigonometric functions compute in radians; an angle unit says in which unit their arguments are
given and the results of the inverse functions are wanted.
-/

namespace CurveSearch

inductive AngleUnit where
  | degree
  | radian
  deriving DecidableEq, Repr

namespace AngleUnit

def standard : AngleUnit := .degree

/-- An angle in the unit, in radians. The factor is one double, rounded before it is used. -/
def toRadians : AngleUnit → Float → Float
  | .degree, v => v * (3.141592653589793 / 180.0)
  | .radian, v => v

def fromRadians : AngleUnit → Float → Float
  | .degree, v => v * 57.2957795130823208767981548141051703
  | .radian, v => v

def name : AngleUnit → String
  | .degree => "degree"
  | .radian => "radian"

def ofName? (name : String) : Option AngleUnit :=
  [degree, radian].find? (·.name = name)

end AngleUnit

end CurveSearch
