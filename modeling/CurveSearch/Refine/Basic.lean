import CurveSearch.Refine.Bisection
import CurveSearch.Refine.GoldenSection
import CurveSearch.Tolerances

/-!
# Refining candidates

A sample that is a result stands as it is, a change of sign is bisected, and a peak is improved by
golden-section search.
-/

namespace CurveSearch

def Candidate.refine (f : Graph) (tol : Tolerances) : Candidate → Point
  | .exact s => ⟨s.x, s.y⟩
  | .signChange bracket =>
      Bisection.bisect f bracket.lo.isNegative tol.maxIterations bracket.lo.x bracket.hi.x
  | .peak bracket mid goal => GoldenSection.improve f goal bracket mid tol.maxIterations

end CurveSearch
