import CurveSearch.Point
import CurveSearch.Window

/-!
# Walks

A walk repeats a search. Each time it goes on one step past the point found, until it has enough
points or the search finds none.
-/

namespace CurveSearch

structure Walk where
  points : List Point
  miss : Option Point
  deriving BEq, Repr

def walk (next : Window → Point) : Nat → Window → Walk
  | 0, _ => ⟨[], none⟩
  | count + 1, w =>
      let p := next w
      if p.isFound then
        let rest := walk next count (w.after p.abscissa)
        ⟨p :: rest.points, rest.miss⟩
      else ⟨[], some p⟩

end CurveSearch
