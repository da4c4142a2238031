import Calculator.Expr
import Calculator.Token
/-!
# Proofs.Grammar — the phrases of the notation and their trees

Four categories, each looser one built from the next tighter one.  Sums and products take their operands from the left;
a minus before a primary negates it; parentheses leave no trace in the tree.  Nothing here mentions stacks or states.

A category is the level of the operators that may stand at its top, so the two binary rules are one rule at two levels
(`Derives.binary`).
-/
namespace Calculator

/-- The categories of phrases, the loosest first. -/
inductive Category where
  | sum | term | factor | primary
deriving DecidableEq, Repr

/-- The tokens are a phrase of the category, and this is its tree. -/
inductive Derives : Category → List Token → Expr → Prop
  | ofTerm {ts e} : Derives .term ts e → Derives .sum ts e
  | addition {op ls rs l r} : op = .plus ∨ op = .minus → Derives .sum ls l → Derives .term rs r →
      Derives .sum (ls ++ .operator op :: rs) (.binary op l r)
  | ofFactor {ts e} : Derives .factor ts e → Derives .term ts e
  | multiplication {op ls rs l r} : op = .times ∨ op = .divide → Derives .term ls l → Derives .factor rs r →
      Derives .term (ls ++ .operator op :: rs) (.binary op l r)
  | ofPrimary {ts e} : Derives .primary ts e → Derives .factor ts e
  | negation {ts e} : Derives .primary ts e → Derives .factor (.operator .minus :: ts) (.negate e)
  | number (x) : Derives .primary [.number x] (.number x)
  | name (id) : Derives .primary [.name id] (.name id)
  | parentheses {ts e} : Derives .sum ts e → Derives .primary (.leftParen :: ts ++ [.rightParen]) e
  | emptyCall (id) : Derives .primary [.name id, .leftParen, .rightParen] (.call id [])
  | call {ts e} (id) : Derives .sum ts e →
      Derives .primary (.name id :: .leftParen :: ts ++ [.rightParen]) (.call id [e])

/-- A complete expression. -/
def IsExpression (ts : List Token) : Prop := ∃ e, Derives .sum ts e

/-- The beginning of some expression. -/
def Viable (ts : List Token) : Prop := ∃ rest, IsExpression (ts ++ rest)

/-- The phrases in which every operator at the top binds at least so tightly. -/
def Category.ofLevel : Nat → Category
  | 0 => .sum
  | 1 => .term
  | 2 => .factor
  | _ => .primary

/-- The level of the operators at the top of a phrase. -/
def Category.level : Category → Nat
  | sum => 0
  | term => 1
  | factor => 2
  | primary => 3

namespace Derives

open Category (ofLevel)

theorem loosen {k n : Nat} (h : k ≤ n) {ts : List Token} {e : Expr} (hd : Derives (ofLevel n) ts e) :
    Derives (ofLevel k) ts e := by
  induction h with
  | refl => exact hd
  | @step m _ ih =>
    refine ih ?_
    match m, hd with
    | 0, hd => exact .ofTerm hd
    | 1, hd => exact .ofFactor hd
    | 2, hd => exact .ofPrimary hd
    | _ + 3, hd => exact hd

/-- Both binary rules: the right operand binds more tightly than the operator. -/
theorem binary {op : Operator} {ls rs : List Token} {l r : Expr} (hl : Derives (ofLevel op.precedence) ls l)
    (hr : Derives (ofLevel (op.precedence + 1)) rs r) :
    Derives (ofLevel op.precedence) (ls ++ .operator op :: rs) (.binary op l r) := by
  cases op with
  | plus => exact .addition (.inl rfl) hl hr
  | minus => exact .addition (.inr rfl) hl hr
  | times => exact .multiplication (.inl rfl) hl hr
  | divide => exact .multiplication (.inr rfl) hl hr

theorem length_pos {c : Category} {ts : List Token} {e : Expr} (h : Derives c ts e) : 0 < ts.length := by
  induction h with
  | ofTerm _ ih | ofFactor _ ih | ofPrimary _ ih => exact ih
  | addition | multiplication =>
    rw [List.length_append, List.length_cons]
    omega
  | _ => exact Nat.succ_pos _

theorem inParentheses {ts : List Token} {e : Expr} (h : Derives .sum ts e) :
    Derives .sum (.leftParen :: ts ++ [.rightParen]) e :=
  .ofTerm (.ofFactor (.ofPrimary (.parentheses h)))

end Derives

end Calculator
