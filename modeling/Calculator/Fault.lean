import Calculator.Operator
/-!
# Fault — why an expression has no answer

A `Fault` is the cause; `message` is the one place with its wording.  What the source quotes (a symbol, a token's text,
the name of what has no value) stands between back quotes, as it is.
-/
namespace Calculator

/-- What may stand at the next place of an expression. -/
inductive Expectation where
  /-- At the start, after an opening parenthesis and after a binary operator. -/
  | operandOrMinus
  /-- After a unary minus, which does not take another one. -/
  | operand
  /-- After an operand: also a closing parenthesis or the end. -/
  | operator
deriving DecidableEq, Repr, Inhabited

def Expectation.text : Expectation → String
  | operandOrMinus => "operand or unary `-`"
  | operand => "operand"
  | operator => "operator"

def Side.text : Side → String
  | left => "left"
  | right => "right"

inductive Fault where
  /-- A token was asked for where only spaces remain. -/
  | endOfInput
  /-- No lexeme starts with this character; the offset counts bytes of UTF-8. -/
  | unrecognizedSymbol (symbol : Char) (offset : Nat)
  | unexpectedToken (expected : Expectation) (token : String)
  /-- The side has more parentheses than the other. -/
  | mismatchedParen (excess : Side)
  | missingOperand (operator : String)
  | leftoverValues (count : Nat)
  | tooDeep (limit : Nat)
  | divisionByZero
  /-- The described node has no value. -/
  | unsupported (what : String)
deriving DecidableEq, Repr, Inhabited

def Fault.message : Fault → String
  | endOfInput => "Lexer: end reached when trying to retrieve token"
  | unrecognizedSymbol symbol offset =>
    "Lexer: unrecognized symbol `" ++ symbol.toString ++ "` at offset " ++ toString offset
  | unexpectedToken expected token => "Parser: expected " ++ expected.text ++ " but found `" ++ token ++ "`"
  | mismatchedParen excess => "Parser: too many " ++ excess.text ++ " parentheses"
  | missingOperand operator => "Parser: not enough operands for `" ++ operator ++ "`"
  | leftoverValues count => "Parser: " ++ toString count ++ " values left over, expected exactly one"
  | tooDeep limit => "Parser: expression nests deeper than " ++ toString limit ++ " levels"
  | divisionByZero => "Runtime: division by zero"
  | unsupported what => "Runtime: cannot evaluate " ++ what

end Calculator
