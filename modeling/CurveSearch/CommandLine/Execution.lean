import CurveSearch.CommandLine.Arguments
import CurveSearch.CommandLine.Checks
import CurveSearch.CommandLine.Provenance
import CurveSearch.Configuration
import CurveSearch.Expr.Evaluation
import CurveSearch.Expr.Yard
import CurveSearch.Files.Step
import CurveSearch.Search

/-!
# Executing requests

The command line is a function of its arguments and of the files it may read; what it prints and the
steps by which it makes files are its result. A request is checked before anything is searched, in
this order: the other expression, the expression, the configuration, the window, the symbols of both
expressions, and the count. An artifact is written after the result is printed, and its sidecar
after the artifact.
-/

namespace CurveSearch.CommandLine

structure Surroundings where
  /-- The contents of the file with a name. -/
  read? : String → Option String
  revision : String

inductive Failure where
  | usage (e : UsageError)
  | expression (text : String) (e : Expr.SyntaxError)
  | configuration (e : Configuration.Error)
  | window (e : WindowError)
  | symbols (e : UnboundError)
  | zeroCount
  | filing (step : Files.Step)

def Failure.message : Failure → String
  | .usage e => e.message
  | .expression text e => "parsing expression `" ++ text ++ "`: " ++ e.message
  | .configuration e => e.message
  | .window e => e.message
  | .symbols e => e.message
  | .zeroCount => "--count must be at least 1"
  | .filing step => step.description

structure Output where
  printed : String
  steps : List Files.Step

def parseExpression (text : String) : Except Failure Expr :=
  (Expr.parse text).mapError (.expression text)

/-- A search whose request has passed all checks. -/
structure Plan where
  task : Task
  options : Options
  expression : Expr
  other : Option Expr
  tolerances : Tolerances

namespace Plan

def graph (p : Plan) (e : Expr) : Graph :=
  e.graph p.options.symbol p.options.context p.options.preferences

def target (p : Plan) : Target :=
  match p.task, p.other with
  | .extremum kind, _ => .extremum kind
  | _, some other => .intersection (p.graph other)
  | _, none => .root

def outcome (p : Plan) : Outcome where
  task := p.task
  expression := p.options.expression
  other := p.other.map Expr.text
  walk := walk (p.target.next (p.graph p.expression) p.tolerances) p.options.count p.options.window

end Plan

def plan (read? : String → Option String) (task : Task) (options : Options) :
    Except Failure Plan := do
  let other ← match task with
    | .intersection text => some <$> parseExpression text
    | _ => pure none
  let expression ← parseExpression options.expression
  let tolerances ← (Configuration.load read? options.config).mapError .configuration
  (checkWindow options.window options.maxSamples).mapError .window
  for e in expression :: other.toList do
    (checkSymbols e options.symbol options.context).mapError .symbols
  if options.count = 0 then throw .zeroCount
  pure { task, options, expression, other, tolerances }

def filing (revision : String) (p : Plan) (document : Json) : List Files.Step :=
  match p.options.out with
  | none => []
  | some name =>
      Files.Step.writeInFolder name document.prettyText ++
        Files.Step.writeInFolder (Provenance.sidecarName name)
          (Provenance.sidecar revision p.task p.options p.tolerances name).prettyText

def Request.execute (around : Surroundings) : Request → Except Failure Output
  | .report => .ok ⟨(Provenance.report around.revision).prettyText ++ "\n", []⟩
  | .search task options => do
      let p ← plan around.read? task options
      let outcome := p.outcome
      let printed := if options.json then outcome.toJson.prettyText ++ "\n" else outcome.lines
      pure ⟨printed, filing around.revision p outcome.toJson⟩

def run (around : Surroundings) (args : List String) : Except Failure Output := do
  (← (Request.ofArguments args).mapError .usage).execute around

/-- Runs the command line in a tree of files: what it prints, and the tree it leaves behind. -/
def runIn (tree : Files.Tree) (revision : String) (args : List String) :
    Except Failure (String × Files.Tree) := do
  let output ← run ⟨tree.read?, revision⟩ args
  pure (output.printed, ← (tree.takeAll output.steps).mapError .filing)

end CurveSearch.CommandLine
