import CurveSearch.Detector.Basic

/-!
# Detecting roots

A root shows as a sample that is zero already, as a change of sign between two samples, or, where
the graph only touches the axis, as a sample whose absolute value is least among three of one sign.
-/

namespace CurveSearch.Detector

/-- Whether the middle one of three samples of one sign is closest to zero. A constant graph has no
such sample. -/
def touches (first prev cur : Sample) : Bool :=
  first.isNegative == prev.isNegative && prev.y.abs ≤ first.y.abs && prev.y.abs < cur.y.abs

def rootCandidate? (tol : Tolerances) : List Sample → Option Candidate
  | [] => none
  | cur :: earlier =>
      if cur.y.abs ≤ tol.zeroEps then some (.exact cur)
      else match earlier with
        | [] => none
        | prev :: earlier =>
            if prev.isNegative != cur.isNegative then some (.signChange ⟨prev, cur⟩)
            else match earlier with
              | [] => none
              | first :: _ =>
                  if touches first prev cur then some (.peak ⟨first, cur⟩ prev .minimizeAbs)
                  else none

/-- The detector of roots. A point is a root if its value is zero up to the tolerance. -/
def crossing : Detector Unit where
  start := ()
  detect tol recent _ := (rootCandidate? tol recent, ())
  accepts tol p := p.value.abs < tol.eps

end CurveSearch.Detector
