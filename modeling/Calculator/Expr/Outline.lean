import Calculator.Binary64.Notation
import Calculator.Expr
/-!
# Expr.Outline — a tree as an indented list

One line per node, each node before its children, the children four spaces further in.
-/
namespace Calculator

/-- A line of an outline: how deep its node lies, the root at zero, and the node's label. -/
structure OutlineRow where
  depth : Nat
  label : String
deriving DecidableEq, Repr, Inhabited

def OutlineRow.indent : Nat := 4

def OutlineRow.line (row : OutlineRow) : String :=
  String.ofList (List.replicate (OutlineRow.indent * row.depth) ' ') ++ row.label ++ "\n"

namespace Expr

def label : Expr → String
  | number x => Binary64.text x
  | name id => id
  | binary op _ _ => op.nodeName
  | negate _ => "Negate"
  | call id _ => "Call " ++ id

mutual

/-- The rows of a tree whose root lies at a depth. -/
def rows (depth : Nat) : Expr → List OutlineRow
  | e@(number _) => [⟨depth, e.label⟩]
  | e@(name _) => [⟨depth, e.label⟩]
  | e@(binary _ l r) => ⟨depth, e.label⟩ :: (rows (depth + 1) l ++ rows (depth + 1) r)
  | e@(negate x) => ⟨depth, e.label⟩ :: rows (depth + 1) x
  | e@(call _ args) => ⟨depth, e.label⟩ :: rowsOfAll (depth + 1) args

def rowsOfAll (depth : Nat) : List Expr → List OutlineRow
  | [] => []
  | e :: es => rows depth e ++ rowsOfAll depth es

end

def outline (e : Expr) : String := String.join ((e.rows 0).map OutlineRow.line)

end Expr
end Calculator
