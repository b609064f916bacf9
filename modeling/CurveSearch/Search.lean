import CurveSearch.Detector.Crossing
import CurveSearch.Detector.Turn
import CurveSearch.Scan
import CurveSearch.Verdict

/-!
# Searches

A search returns the first point of its kind after the start of a window. What it returns when
there is none depends on the kind:

* a root: no location, and the value zero;
* an extremum: no location, and the value at which a flat or settled graph stands, if any;
* an intersection: neither location nor value.

A window that is not valid holds nothing, and is not scanned.
-/

namespace CurveSearch

namespace Search

def root (f : Graph) (w : Window) (tol : Tolerances) : Point :=
  if w.isValid then
    match scan Detector.crossing f w tol with
    | .found p => ⟨p.abscissa, 0⟩
    | .exhausted _ => .unlocated 0
  else .unlocated 0

def extremum (kind : Extremum) (f : Graph) (w : Window) (tol : Tolerances) : Point :=
  if w.isValid then
    match scan (Detector.turn kind) f w tol with
    | .found p => p
    | .exhausted history => (Verdict.ofHistory history tol).point
  else .nowhere

def intersection (f g : Graph) (w : Window) (tol : Tolerances) : Point :=
  let root := root (f.difference g) w tol
  if root.isFound then
    match f root.abscissa with
    | some y => ⟨root.abscissa, y⟩
    | none => .nowhere
  else .nowhere

end Search

inductive Target where
  | root
  | extremum (kind : Extremum)
  | intersection (other : Graph)

def Target.next (target : Target) (f : Graph) (tol : Tolerances) (w : Window) : Point :=
  match target with
  | .root => Search.root f w tol
  | .extremum kind => Search.extremum kind f w tol
  | .intersection other => Search.intersection f other w tol

end CurveSearch
