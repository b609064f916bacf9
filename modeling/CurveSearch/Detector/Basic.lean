import CurveSearch.Candidate
import CurveSearch.Point
import CurveSearch.Tolerances

/-!
# Detectors

A detector watches the samples of a scan. After each one it sees the last samples, latest first,
and its own state, and may propose a candidate; when the candidate has been refined to a point it
says whether the point is a result.
-/

namespace CurveSearch

/-- A search predicate on the stream of samples, with a state of type `σ`. -/
structure Detector (σ : Type) where
  start : σ
  /-- Looks at the last samples, latest first. -/
  detect : Tolerances → List Sample → σ → Option Candidate × σ
  /-- Whether a refined point is a result. -/
  accepts : Tolerances → Point → Bool

end CurveSearch
