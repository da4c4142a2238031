import Calculator.Binary64.Notation
import Calculator.Operator
/-!
# Token — the tokens of an expression

A token keeps the meaning of its lexeme: a number is already the double it reads as, so its text is the shortest
decimal of that double and not what was typed.
-/
namespace Calculator

inductive Token where
  | number (value : Float)
  | operator (op : Operator)
  | name (id : String)
  | leftParen
  | rightParen
deriving Inhabited

namespace Token

/-- The tokens of one character: the operators and the parentheses. -/
def ofChar? : Char → Option Token
  | '(' => some leftParen
  | ')' => some rightParen
  | c => (Operator.ofChar? c).map operator

def text : Token → String
  | number x => Binary64.text x
  | operator op => op.symbol.toString
  | name id => id
  | leftParen => "("
  | rightParen => ")"

/-- The text of a token in the trace.  A name has no character that would need an escape. -/
def traceText : Token → String
  | number x => "Number(" ++ Binary64.traceText x ++ ")"
  | operator op => "Op(" ++ op.traceName ++ ")"
  | name id => "Id(\"" ++ id ++ "\")"
  | leftParen => "LParen"
  | rightParen => "RParen"

end Token
end Calculator
