import Calculator.Operator
/-!
# Expr — expression trees

A call may have any number of arguments here, though the notation only has calls with none or one.  The height of a
leaf is one, and a call without arguments is as low as a leaf.
-/
namespace Calculator

inductive Expr where
  | number (value : Float)
  | name (id : String)
  | binary (op : Operator) (left right : Expr)
  | negate (operand : Expr)
  | call (id : String) (args : List Expr)
deriving Inhabited

mutual

def Expr.height : Expr → Nat
  | .number _ => 1
  | .name _ => 1
  | .binary _ l r => max l.height r.height + 1
  | .negate e => e.height + 1
  | .call _ args => Expr.tallest args + 1

/-- The height of the tallest of some trees, zero if there is none. -/
def Expr.tallest : List Expr → Nat
  | [] => 0
  | e :: es => max e.height (Expr.tallest es)

end

end Calculator
