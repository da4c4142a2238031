import Calculator.Trace
/-!
# Machine — building a tree from tokens with two stacks

The machine reads an expression from left to right.  Operands go on one stack, operators that wait for their operands
on another, both with the top first.  An operator is reduced, that is joined with its operands to one value, when what
follows binds no tighter, when its parenthesis closes, or at the end.  What may come next is kept as an `Expectation`;
whether an expression is complete is seen only at the end, by what the stacks then hold.

A tree taller than the limit is refused when it is built.
-/
namespace Calculator

structure Machine where
  pending : List Pending
  values : List Operand
  expects : Expectation
deriving Inhabited

/-- What a machine reads at a time: a token, or a name together with the parenthesis that opens its call. -/
inductive Symbol where
  | token (t : Token)
  | openCall (id : String)
deriving Inhabited

namespace Machine

def start : Machine := ⟨[], [], .operandOrMinus⟩

/-! ## Reduction -/

/-- The operand that a pending operator makes of the topmost values, and the values below those. -/
def combine : Pending → List Operand → Except Fault (Operand × List Operand)
  | .unaryMinus, x :: vs => .ok (⟨.negate x.expr, x.height + 1⟩, vs)
  | .unaryMinus, [] => .error (.missingOperand "unary -")
  | .binary op, r :: l :: vs => .ok (⟨.binary op l.expr r.expr, max l.height r.height + 1⟩, vs)
  | .binary op, _ => .error (.missingOperand op.symbol.toString)
  | .call id base, vs =>
    if vs.length < base then .error (.missingOperand id)
    else
      let count := vs.length - base
      let args := (vs.take count).reverse
      .ok (⟨.call id (args.map Operand.expr), (args.map Operand.height).foldl max 0 + 1⟩, vs.drop count)
  | .leftParen, _ => .error (.mismatchedParen .left)

def reduce (limit : Nat) (p : Pending) (vs : List Operand) : Traced (List Operand) := do
  Traced.record (.reduce p vs.length)
  let (x, rest) ← Traced.ofExcept (combine p vs)
  if limit < x.height then Traced.fail (.tooDeep limit)
  pure (x :: rest)

/-- Reduces what binds before an operator that comes next. -/
def reduceBefore (limit : Nat) (op : Operator) : List Pending → List Operand → Traced (List Pending × List Operand)
  | [], vs => pure ([], vs)
  | p :: ps, vs =>
    if p.bindsBefore op then do reduceBefore limit op ps (← reduce limit p vs)
    else pure (p :: ps, vs)

/-- Reduces all down to the open parenthesis that is being closed. -/
def reduceToParen (limit : Nat) : List Pending → List Operand → Traced (List Pending × List Operand)
  | [], _ => Traced.fail (.mismatchedParen .right)
  | .leftParen :: ps, vs => pure (ps, vs)
  | p :: ps, vs => do reduceToParen limit ps (← reduce limit p vs)

/-- Reduces everything; an open parenthesis was never closed. -/
def reduceAll (limit : Nat) : List Pending → List Operand → Traced (List Operand)
  | [], vs => pure vs
  | .leftParen :: _, _ => Traced.fail (.mismatchedParen .left)
  | p :: ps, vs => do reduceAll limit ps (← reduce limit p vs)

/-- A call whose parenthesis has just been closed is complete. -/
def closeCall (limit : Nat) : List Pending → List Operand → Traced (List Pending × List Operand)
  | .call id base :: ps, vs => do pure (ps, ← reduce limit (.call id base) vs)
  | ps, vs => pure (ps, vs)

/-! ## Steps -/

def unexpected {α : Type} (m : Machine) (t : Token) : Traced α :=
  Traced.fail (.unexpectedToken m.expects t.text)

/-- Whether a call was just opened, with nothing read since. -/
def atEmptyCall (m : Machine) : Bool :=
  match m.pending with
  | .leftParen :: .call _ base :: _ => base == m.values.length
  | _ => false

def readOperand (m : Machine) (t : Token) (e : Expr) : Traced Machine :=
  match m.expects with
  | .operator => m.unexpected t
  | _ => pure { m with values := .leaf e :: m.values, expects := .operator }

def readLeftParen (m : Machine) : Traced Machine :=
  match m.expects with
  | .operator => m.unexpected .leftParen
  | _ => pure { m with pending := .leftParen :: m.pending, expects := .operandOrMinus }

def readOpenCall (m : Machine) (id : String) : Traced Machine :=
  pure { m with pending := .leftParen :: .call id m.values.length :: m.pending, expects := .operandOrMinus }

def readRightParen (limit : Nat) (m : Machine) : Traced Machine :=
  match m.expects with
  | .operandOrMinus =>
    if m.atEmptyCall then do
      let (ps, vs) ← closeCall limit m.pending.tail m.values
      pure ⟨ps, vs, .operator⟩
    else m.unexpected .rightParen
  | .operand => m.unexpected .rightParen
  | .operator => do
    let (ps, vs) ← reduceToParen limit m.pending m.values
    let (ps, vs) ← closeCall limit ps vs
    pure ⟨ps, vs, .operator⟩

def readOperator (limit : Nat) (m : Machine) (op : Operator) : Traced Machine :=
  match m.expects with
  | .operandOrMinus =>
    if op = .minus then pure { m with pending := .unaryMinus :: m.pending, expects := .operand }
    else m.unexpected (.operator op)
  | .operand => m.unexpected (.operator op)
  | .operator => do
    let (ps, vs) ← reduceBefore limit op m.pending m.values
    pure ⟨.binary op :: ps, vs, .operandOrMinus⟩

def step (limit : Nat) (m : Machine) : Symbol → Traced Machine
  | .openCall id => m.readOpenCall id
  | .token (.number x) => m.readOperand (.number x) (.number x)
  | .token (.name id) => m.readOperand (.name id) (.name id)
  | .token .leftParen => m.readLeftParen
  | .token .rightParen => m.readRightParen limit
  | .token (.operator op) => m.readOperator limit op

/-- The tree, once there is nothing more to read. -/
def finish (limit : Nat) (m : Machine) : Traced Expr :=
  match m.pending, m.values with
  | [], [] => Traced.fail .endOfInput
  | ps, vs => do
    match ← reduceAll limit ps vs with
    | [] => Traced.fail (.missingOperand "end of input")
    | [root] => do
      Traced.record (.parsed root.height)
      pure root.expr
    | vs => Traced.fail (.leftoverValues vs.length)

end Machine
end Calculator
