/-!
# Graphs

A search sees a function only through its graph: over each abscissa a value, or none where the
function is undefined.
-/

namespace CurveSearch

abbrev Graph := Float → Option Float

namespace Graph

/-- The difference of two graphs: defined where both are and their difference is finite. -/
def difference (f g : Graph) : Graph := fun x ↦ do
  let d := (← f x) - (← g x)
  if d.isFinite then some d else none

end Graph

end CurveSearch
