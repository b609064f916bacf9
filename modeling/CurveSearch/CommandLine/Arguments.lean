import CurveSearch.CommandLine.Binding
import CurveSearch.CommandLine.Request

/-!
# Arguments

The first argument names a subcommand; the rest are options, in any order around the expression.
The value of an option is the next argument, or follows an equals sign in the same one. A value that
is an argument of its own is read only when the argument after it turns out to be in order, so of a
bad value and an unknown option after it the unknown option is reported. An argument that starts
with a minus is an option; only the two ends of a window may be followed by a negative number. After
a lone `--` everything is positional.
-/

namespace CurveSearch.CommandLine

inductive UsageError where
  | help
  | noArguments
  | unknownSubcommand
  /-- An option that does not exist here, or an argument too many. -/
  | unknownArgument
  /-- The expression or the other expression is missing. -/
  | missingArgument
  /-- A value that is missing, empty, or not among the possible ones. -/
  | invalidValue
  | unreadableValue
  | surplusValue
  | repeatedOption
  deriving DecidableEq, Repr

def UsageError.message : UsageError → String
  | .help => "usage: root|min|max|intersect|report [EXPR] [OPTIONS]"
  | .noArguments => "a subcommand is required"
  | .unknownSubcommand => "unknown subcommand"
  | .unknownArgument => "unknown argument"
  | .missingArgument => "a required argument is missing"
  | .invalidValue => "invalid value for an option"
  | .unreadableValue => "a value cannot be read"
  | .surplusValue => "a value for an option that takes none"
  | .repeatedOption => "an option is given more than once"

inductive Subcommand where
  | root
  | min
  | max
  | intersect
  | report
  deriving DecidableEq, Repr

def Subcommand.ofName? : String → Option Subcommand
  | "root" => some .root
  | "min" => some .min
  | "max" => some .max
  | "intersect" => some .intersect
  | "report" => some .report
  | _ => none

inductive Setting where
  | other
  | symbol
  | start
  | step
  | max
  | angle
  | var
  | count
  | config
  | maxSamples
  | out
  deriving DecidableEq, Repr

inductive Flag where
  | complex
  | json
  deriving DecidableEq, Repr

namespace Subcommand

def searches (sub : Subcommand) : Bool := sub ≠ .report

def setting? (sub : Subcommand) (name : String) : Option Setting :=
  if sub.searches then
    match name with
    | "symbol" => some .symbol
    | "start" => some .start
    | "step" => some .step
    | "max" => some .max
    | "angle" => some .angle
    | "var" => some .var
    | "count" => some .count
    | "config" => some .config
    | "max-samples" => some .maxSamples
    | "out" => some .out
    | "with" => if sub = .intersect then some .other else none
    | _ => none
  else none

def flag? (sub : Subcommand) (name : String) : Option Flag :=
  if sub.searches then
    match name with
    | "complex" => some .complex
    | "json" => some .json
    | _ => none
  else none

end Subcommand

structure Draft where
  expression : Option String := none
  other : Option String := none
  symbol : Option String := none
  start : Option Float := none
  step : Option Float := none
  max : Option Float := none
  angle : Option AngleUnit := none
  complex : Bool := false
  vars : List (String × Float) := []
  count : Option Nat := none
  json : Bool := false
  config : Option String := none
  maxSamples : Option Nat := none
  out : Option String := none

def readNumber (text : String) : Except UsageError Float :=
  match Decimal.read? text.toList with
  | some v => .ok v
  | none => .error .unreadableValue

/-- A count below `2 ^ 64` as a value; a plus sign may precede it. -/
def readCount (text : String) : Except UsageError Nat :=
  let ds := match text.toList with
    | '+' :: ds => ds
    | ds => ds
  if ds ≠ [] ∧ ds.all Char.isDigit ∧ Decimal.ofDigits ds < UInt64.size then
    .ok (Decimal.ofDigits ds)
  else .error .unreadableValue

def readPath (text : String) : Except UsageError String :=
  if text = "" then .error .invalidValue else .ok text

def readAngle (text : String) : Except UsageError AngleUnit :=
  match AngleUnit.ofName? text with
  | some unit => .ok unit
  | none => .error .invalidValue

def readBinding (text : String) : Except UsageError (String × Float) :=
  match parseBinding text with
  | .ok binding => .ok binding
  | .error _ => .error .unreadableValue

def once {α : Type} (before : Option α) (value : Except UsageError α) :
    Except UsageError (Option α) :=
  if before.isSome then .error .repeatedOption else some <$> value

namespace Draft

def set (d : Draft) (s : Setting) (text : String) : Except UsageError Draft := do
  match s with
  | .other => pure { d with other := ← once d.other (.ok text) }
  | .symbol => pure { d with symbol := ← once d.symbol (.ok text) }
  | .start => pure { d with start := ← once d.start (readNumber text) }
  | .step => pure { d with step := ← once d.step (readNumber text) }
  | .max => pure { d with max := ← once d.max (readNumber text) }
  | .angle => pure { d with angle := ← once d.angle (readAngle text) }
  | .var => pure { d with vars := d.vars ++ [← readBinding text] }
  | .count => pure { d with count := ← once d.count (readCount text) }
  | .config => pure { d with config := ← once d.config (readPath text) }
  | .maxSamples => pure { d with maxSamples := ← once d.maxSamples (readCount text) }
  | .out => pure { d with out := ← once d.out (readPath text) }

def raise (d : Draft) : Flag → Except UsageError Draft
  | .complex => if d.complex then .error .repeatedOption else .ok { d with complex := true }
  | .json => if d.json then .error .repeatedOption else .ok { d with json := true }

def options (d : Draft) (expression : String) : Options :=
  let standard : Options := { expression }
  { expression
    symbol := d.symbol.getD standard.symbol
    start := d.start.getD standard.start
    step := d.step.getD standard.step
    max := d.max.getD standard.max
    angle := d.angle.getD standard.angle
    complex := d.complex
    vars := d.vars
    count := d.count.getD standard.count
    json := d.json
    config := d.config
    maxSamples := d.maxSamples.getD standard.maxSamples
    out := d.out }

def search (d : Draft) (task : Task) : Except UsageError Request :=
  match d.expression with
  | some expression => .ok (.search task (d.options expression))
  | none => .error .missingArgument

def request (d : Draft) : Subcommand → Except UsageError Request
  | .root => d.search .root
  | .min => d.search (.extremum .minimum)
  | .max => d.search (.extremum .maximum)
  | .intersect =>
      match d.other with
      | some other => d.search (.intersection other)
      | none => .error .missingArgument
  | .report => .ok .report

end Draft

/-- What has been taken and not been read yet. -/
inductive Held where
  | nothing
  | setting (s : Setting)
  | value (s : Setting) (text : String)
  | expression (text : String)

/-- The state between two arguments of a subcommand. -/
structure Reader where
  draft : Draft := {}
  held : Held := .nothing
  hasExpression : Bool := false
  /-- Whether everything else is positional. -/
  trailing : Bool := false

/-- Whether the text after a minus is that of a negative number: digits, with at most one point
after the first of them and at most one exponent mark, not in last place. -/
def isNegativeNumber (cs : List Char) : Bool :=
  let (mantissa, tail) := cs.span fun c ↦ c ≠ 'e' && c ≠ 'E'
  let (whole, fraction) := mantissa.span (· ≠ '.')
  mantissa ≠ [] && mantissa.head? ≠ some '.' && whole.all Char.isDigit &&
    (fraction.drop 1).all Char.isDigit &&
    (tail = [] || ((tail.drop 1) ≠ [] && (tail.drop 1).all Char.isDigit))

namespace Reader

def settle (r : Reader) : Except UsageError Reader := do
  match r.held with
  | .nothing => pure r
  | .setting _ => throw .invalidValue
  | .value s text => pure { r with draft := ← r.draft.set s text, held := .nothing }
  | .expression text =>
      pure { r with draft := { r.draft with expression := some text }, held := .nothing }

def positional (sub : Subcommand) (r : Reader) (arg : List Char) : Except UsageError Reader := do
  if sub.searches && !r.hasExpression then
    pure { ← r.settle with held := .expression (String.ofList arg), hasExpression := true }
  else throw .unknownArgument

/-- Takes the value of the option that waits for one, or a positional argument. -/
def plain (sub : Subcommand) (r : Reader) (arg : List Char) : Except UsageError Reader :=
  match r.held with
  | .setting s => .ok { r with held := .value s (String.ofList arg) }
  | _ => r.positional sub arg

def named (sub : Subcommand) (r : Reader) (name : String) (value : Option String) :
    Except UsageError Reader := do
  if name = "help" then
    if value.isSome then throw .surplusValue
    let _ ← r.settle
    throw .help
  match sub.setting? name, sub.flag? name, value with
  | some s, _, some value =>
      let r ← r.settle
      pure { r with draft := ← r.draft.set s value }
  | some s, _, none => pure { ← r.settle with held := .setting s }
  | none, some _, some _ => throw .surplusValue
  | none, some flag, none =>
      let r ← r.settle
      pure { r with draft := ← r.draft.raise flag }
  | none, none, _ => throw .unknownArgument

/-- Whether a negative number may be the next value. -/
def takesNegative (r : Reader) : Bool :=
  match r.held with
  | .setting .start => true
  | .setting .max => true
  | _ => false

def feed (sub : Subcommand) (r : Reader) (arg : String) : Except UsageError Reader :=
  if r.trailing then r.positional sub arg.toList
  else match arg.toList with
    | ['-', '-'] => .ok { r with trailing := true }
    | '-' :: '-' :: long =>
        let (name, rest) := long.span (· ≠ '=')
        let value := if rest = [] then none else some (String.ofList (rest.drop 1))
        r.named sub (String.ofList name) value
    | '-' :: c :: rest =>
        if r.takesNegative && isNegativeNumber (c :: rest) then r.plain sub ('-' :: c :: rest)
        else if c = 'h' then do
          let _ ← r.settle
          throw .help
        else .error .unknownArgument
    | arg => r.plain sub arg

end Reader

def readSubcommand (sub : Subcommand) (args : List String) : Except UsageError Request := do
  let r ← (← args.foldlM (Reader.feed sub) {}).settle
  r.draft.request sub

def readHelp : List String → UsageError
  | [] => .help
  | [name] => if name = "help" ∨ (Subcommand.ofName? name).isSome then .help else .unknownSubcommand
  | _ => .unknownSubcommand

/-- What is wrong with an argument where a subcommand is expected after a lone `--`. -/
def readTrailing : List String → UsageError
  | [] => .noArguments
  | name :: _ =>
      if name = "help" ∨ (Subcommand.ofName? name).isSome then .unknownArgument
      else .unknownSubcommand

/-- What is wrong with a first argument that names no subcommand. -/
def readOption : List Char → UsageError
  | '-' :: '-' :: long =>
      if long = "help".toList then .help
      else if long.takeWhile (· ≠ '=') = "help".toList then .surplusValue
      else .unknownArgument
  | '-' :: c :: _ => if c = 'h' then .help else .unknownArgument
  | _ => .unknownSubcommand

def Request.ofArguments : List String → Except UsageError Request
  | [] => .error .noArguments
  | first :: args =>
      match Subcommand.ofName? first with
      | some sub => readSubcommand sub args
      | none =>
          if first = "help" then .error (readHelp args)
          else if first = "--" then .error (readTrailing args)
          else .error (readOption first.toList)

end CurveSearch.CommandLine
