import Calculator.Expr
import Calculator.Fault
/-!
# Expr.Value — evaluating a tree

The left operand comes first, then the right one, then the operation, so the fault of a tree is that of its first
failing node in post-order.  Arithmetic is that of doubles, except that dividing by a zero of either sign is a fault.
Nothing gives a value to a name or a call; the arguments of a call are not looked at.
-/
namespace Calculator

def Operator.apply : Operator → Float → Float → Except Fault Float
  | .plus, x, y => .ok (x + y)
  | .minus, x, y => .ok (x - y)
  | .times, x, y => .ok (x * y)
  | .divide, x, y => if y == 0.0 then .error .divisionByZero else .ok (x / y)

def Expr.eval : Expr → Except Fault Float
  | .number x => .ok x
  | .name id => .error (.unsupported ("identifier `" ++ id ++ "`"))
  | .binary op l r => do
    let x ← l.eval
    let y ← r.eval
    op.apply x y
  | .negate e => do
    let x ← e.eval
    pure (-x)
  | .call id _ => .error (.unsupported ("call to `" ++ id ++ "`"))

end Calculator
