import CurveSearch.Context
import CurveSearch.Detector.Turn
import CurveSearch.Json.Basic
import CurveSearch.Preferences
import CurveSearch.Window

/-!
# Records as JSON

Each record is written as an object with its fields in order, and each choice as its name. Reading
asks for all fields, except that tolerances left out keep their defaults. No number may be null, so
a point without a location can be written but not read back.
-/

namespace CurveSearch

def Window.toJson (w : Window) : Json :=
  .record [("start", .ofFloat w.start), ("step", .ofFloat w.step), ("max", .ofFloat w.max)]

def Window.ofJson? (document : Json) : Option Window := do
  match ← document.fields? ["start", "step", "max"] with
  | [some start, some step, some max] =>
      some ⟨← start.toFloat?, ← step.toFloat?, ← max.toFloat?⟩
  | _ => none

def Point.toJson (p : Point) : Json :=
  .record [("abscissa", .ofFloat p.abscissa), ("value", .ofFloat p.value)]

def Point.ofJson? (document : Json) : Option Point := do
  match ← document.fields? ["abscissa", "value"] with
  | [some abscissa, some value] => some ⟨← abscissa.toFloat?, ← value.toFloat?⟩
  | _ => none

def Tolerances.fields (tol : Tolerances) : List (String × Json) :=
  [("eps", .ofFloat tol.eps), ("zero_eps", .ofFloat tol.zeroEps),
    ("max_iterations", .ofNat tol.maxIterations), ("tail_window", .ofNat tol.tailWindow),
    ("snap_eps", .ofFloat tol.snapEps), ("max_value", .ofFloat tol.maxValue)]

def Tolerances.toJson (tol : Tolerances) : Json := .record tol.fields

def fieldOr {α : Type} (default : α) (read : Json → Option α) : Option Json → Option α
  | none => some default
  | some document => read document

/-- The tolerances that a document holds; fields left out keep their defaults. -/
def Tolerances.ofJson? (document : Json) : Option Tolerances := do
  let standard : Tolerances := {}
  match ← document.fields? (standard.fields.map Prod.fst) with
  | [eps, zeroEps, maxIterations, tailWindow, snapEps, maxValue] =>
      some {
        eps := ← fieldOr standard.eps Json.toFloat? eps
        zeroEps := ← fieldOr standard.zeroEps Json.toFloat? zeroEps
        maxIterations := ← fieldOr standard.maxIterations Json.toNat? maxIterations
        tailWindow := ← fieldOr standard.tailWindow Json.toNat? tailWindow
        snapEps := ← fieldOr standard.snapEps Json.toFloat? snapEps
        maxValue := ← fieldOr standard.maxValue Json.toFloat? maxValue }
  | _ => none

def Extremum.toJson (kind : Extremum) : Json := .ofString kind.name

def Extremum.ofJson? (document : Json) : Option Extremum := do ofName? (← document.caseName?)

def AngleUnit.toJson (unit : AngleUnit) : Json := .ofString unit.name

def AngleUnit.ofJson? (document : Json) : Option AngleUnit := do ofName? (← document.caseName?)

def ComplexFormat.toJson (format : ComplexFormat) : Json := .ofString format.name

def ComplexFormat.ofJson? (document : Json) : Option ComplexFormat := do
  ofName? (← document.caseName?)

def Preferences.fields (p : Preferences) : List (String × Json) :=
  [("complex_format", p.complexFormat.toJson), ("angle_unit", p.angleUnit.toJson)]

def Preferences.toJson (p : Preferences) : Json := .record p.fields

def Preferences.ofJson? (document : Json) : Option Preferences := do
  match ← document.fields? ["complex_format", "angle_unit"] with
  | [some format, some unit] => some ⟨← ComplexFormat.ofJson? format, ← AngleUnit.ofJson? unit⟩
  | _ => none

def Context.toJson (c : Context) : Json :=
  .record [("vars", .record (c.bindings.map fun (name, v) ↦ (name, .ofFloat v)))]

/-- The context that a document holds. Of several bindings of one name the last wins. -/
def Context.ofJson? (document : Json) : Option Context := do
  match ← document.fields? ["vars"] with
  | [some bindings] =>
      let members ← bindings.members?
      ofList <$> members.mapM fun (name, value) ↦ do some (name, ← value.toFloat?)
  | _ => none

end CurveSearch
