import CurveSearch.Context
import CurveSearch.Decimal.Plain
import CurveSearch.Expr.Printing
import CurveSearch.Expr.Symbols
import CurveSearch.Window

/-!
# Checks before a search

A request is refused if its window cannot be scanned in reasonable time, or if one of its
expressions uses a name that is neither the search symbol nor bound. Within a window the step is
looked at first, then the ends, then the number of samples.
-/

namespace CurveSearch.CommandLine

inductive WindowError where
  | badStep (step : Float)
  | unboundedEnds
  | tooManySamples (w : Window) (needed limit : Nat)
  deriving BEq, Repr

def WindowError.message : WindowError → String
  | .badStep step => "--step must be a positive finite number, got " ++ Decimal.plainText step
  | .unboundedEnds => "--start and --max must be finite"
  | .tooManySamples w needed limit =>
      "window (" ++ Decimal.plainText w.start ++ ", " ++ Decimal.plainText w.max ++ "] at step " ++
        Decimal.plainText w.step ++ " needs " ++ needed.repr ++ " samples, above --max-samples " ++
        limit.repr

/-- Refuses a window that is not valid or that needs more samples than the limit. -/
def checkWindow (w : Window) (limit : Nat) : Except WindowError Unit :=
  if !(w.step.isFinite && 0 < w.step) then .error (.badStep w.step)
  else if !(w.start.isFinite && w.max.isFinite) then .error .unboundedEnds
  else if limit < w.sampleCount then .error (.tooManySamples w w.sampleCount limit)
  else .ok ()

structure UnboundError where
  expression : Expr
  names : List String
  symbol : String

def UnboundError.message (e : UnboundError) : String :=
  "`" ++ e.expression.text ++ "` uses unbound variable(s) " ++ ", ".intercalate e.names ++
    " (search symbol is `" ++ e.symbol ++ "`; bind others with --var name=value)"

/-- The names in an expression that are neither the search symbol nor bound. -/
def unbound (e : Expr) (symbol : String) (context : Context) : List String :=
  e.symbols.filter fun name ↦ name ≠ symbol && !context.contains name

def checkSymbols (e : Expr) (symbol : String) (context : Context) : Except UnboundError Unit :=
  match unbound e symbol context with
  | [] => .ok ()
  | names => .error ⟨e, names, symbol⟩

end CurveSearch.CommandLine
