import Calculator.Expr
/-!
# Pending — what waits for operands while an expression is read

A binary operator and a unary minus wait until an operator that binds less tightly, a closing parenthesis or the end
shows that their last operand is complete.  An open parenthesis and a call hold back everything below them; the call
lies directly below its parenthesis, and its base is the number of values that were there when it was opened.
-/
namespace Calculator

inductive Pending where
  | binary (op : Operator)
  | unaryMinus
  | leftParen
  | call (id : String) (base : Nat)
deriving DecidableEq, Repr, Inhabited

namespace Pending

/-- How tightly an operator binds; the barriers do not take part in the comparison. -/
def precedence? : Pending → Option Nat
  | binary op => some op.precedence
  | unaryMinus => some 2
  | leftParen | call _ _ => none

/-- Whether a pending operator takes its operands before a binary operator that follows them. -/
def bindsBefore (p : Pending) (op : Operator) : Bool :=
  match p.precedence? with
  | none => false
  | some n => op.precedence < n || (n == op.precedence && op.associativity == .left)

/-- The text of a pending operator in the trace. -/
def traceText : Pending → String
  | binary op => "Binary(" ++ op.traceName ++ ")"
  | unaryMinus => "UnaryMinus"
  | leftParen => "LeftParen"
  | call id base => "FunctionName \x7b id: \"" ++ id ++ "\", base: " ++ toString base ++ " \x7d"

end Pending

/-- A complete operand and the height of its tree, kept so that the limit costs one comparison per node. -/
structure Operand where
  expr : Expr
  height : Nat
deriving Inhabited

def Operand.leaf (e : Expr) : Operand := ⟨e, 1⟩

end Calculator
