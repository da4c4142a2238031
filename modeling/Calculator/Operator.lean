/-!
# Operator — the four binary operators

One type serves the tokens, the pending operators and the tree.  An operator is written by its symbol; it has one name
in a tree and a shorter one in the trace.
-/
namespace Calculator

inductive Operator where
  | plus | minus | times | divide
deriving DecidableEq, Repr, Inhabited

/-- A side of an operand, or of an expression. -/
inductive Side where
  | left | right
deriving DecidableEq, Repr

/-- Of two operators of equal precedence, the one on this side takes the operand between them. -/
abbrev Associativity := Side

namespace Operator

def ofChar? : Char → Option Operator
  | '+' => some plus
  | '-' => some minus
  | '*' => some times
  | '/' => some divide
  | _ => none

def symbol : Operator → Char
  | plus => '+'
  | minus => '-'
  | times => '*'
  | divide => '/'

def precedence : Operator → Nat
  | plus | minus => 0
  | times | divide => 1

def associativity : Operator → Associativity
  | plus | minus | times | divide => .left

def nodeName : Operator → String
  | plus => "Plus"
  | minus => "Minus"
  | times => "Times"
  | divide => "Divide"

def traceName : Operator → String
  | plus => "Plus"
  | minus => "Minus"
  | times => "Mul"
  | divide => "Div"

end Operator
end Calculator
