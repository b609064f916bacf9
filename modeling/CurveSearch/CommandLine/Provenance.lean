import CurveSearch.CommandLine.Outcome
import CurveSearch.Files.Name

/-!
# Provenance

An artifact is accompanied by a document that tells which engine made it and from what: the options
of the request with their defaults filled in, and the tolerances. The members of such documents are
in the order of their names.
-/

namespace CurveSearch.CommandLine.Provenance

def engine (revision : String) : Json :=
  .sortedRecord
    [("crate", .ofString "critpoint"), ("version", .ofString "0.1.0"),
      ("code_rev", .ofString revision)]

def ofText? : Option String → Json
  | some text => .ofString text
  | none => .null

def ofOptions (o : Options) : Json :=
  .sortedRecord
    [("expr", .ofString o.expression), ("symbol", .ofString o.symbol),
      ("start", .ofFloat o.start), ("step", .ofFloat o.step), ("max", .ofFloat o.max),
      ("angle", o.angle.toJson), ("complex", .bool o.complex),
      ("vars", .array (o.vars.map fun (name, v) ↦ .array [.ofString name, .ofFloat v])),
      ("count", .ofNat o.count), ("json", .bool o.json), ("config", ofText? o.config),
      ("max_samples", .ofNat o.maxSamples), ("out", ofText? o.out)]

/-- The document that accompanies an artifact. -/
def sidecar (revision : String) (task : Task) (options : Options) (tol : Tolerances)
    (artifact : String) : Json :=
  .sortedRecord
    [("engine", engine revision), ("operation", .ofString task.name),
      ("params", .sortedRecord [("args", ofOptions options), ("solver", .sortedRecord tol.fields)]),
      ("outputs", .array [.ofString artifact])]

def sidecarName (artifact : String) : String := Files.Name.beside artifact ".provenance.json"

def report (revision : String) : Json :=
  let tol : Tolerances := {}
  let preferences : Preferences := {}
  .sortedRecord
    [("engine", engine revision), ("solver_defaults", .sortedRecord tol.fields),
      ("preferences_defaults", .sortedRecord preferences.fields)]

end CurveSearch.CommandLine.Provenance
