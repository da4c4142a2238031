import Calculator.Expr.Parse
import Calculator.Expr.Value
/-!
# Calculation — the value of a source

The source is read to its end before anything is evaluated, so a fault in its form comes before one of its value.
-/
namespace Calculator

/-- The value of a source, with the trace of the way to it. -/
def evaluate (maxDepth : Nat) (source : String) : Traced Float := do
  let e ← Expr.parse maxDepth source
  let x ← Traced.ofExcept e.eval
  Traced.record (.evaluated source x)
  pure x

end Calculator
