/-!
# Tolerances

The numbers that a search is tuned by: how close counts as equal, how far refinement goes, and which
results are snapped or refused.
-/

namespace CurveSearch

structure Tolerances where
  /-- Two values closer than this are taken as equal: for roots, turns and flat graphs. -/
  eps : Float := 1e-5
  /-- A sample this close to zero is a root without refinement. -/
  zeroEps : Float := 1e-12
  maxIterations : Nat := 60
  /-- The number of last samples that show whether a graph has settled. -/
  tailWindow : Nat := 10
  /-- Results closer to zero than this, in steps of the window, become zero. -/
  snapEps : Float := 1e-5
  /-- Extrema with a greater absolute value are refused. -/
  maxValue : Float := 1e100
  deriving BEq, Repr

end CurveSearch
