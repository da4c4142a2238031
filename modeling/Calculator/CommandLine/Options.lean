import Calculator.CommandLine.Word
import Calculator.Session
/-!
# CommandLine.Options — reading a command line

At most one expression and at most one of each option, in any order.  A depth is written in decimal, with leading zeros
and a plus sign if wanted, and fits in 64 bits.
-/
namespace Calculator

/-- Why a command line is not followed.  Asking for help is one reason. -/
inductive UsageFault where
  | help
  /-- An option nobody knows, or an expression after the first. -/
  | unknownArgument
  /-- An option has no value after it. -/
  | missingValue
  | unknownMode
  | badDepth
  | repeatedOption
  /-- A flag was given a value. -/
  | unwantedValue
deriving DecidableEq, Repr

/-- What a command line has said so far. -/
structure Given where
  mode : Option OutputMode := none
  maxDepth : Option Nat := none
  expr : Option String := none
deriving DecidableEq, Repr

structure Options where
  mode : OutputMode
  maxDepth : Nat
  expr : Option String
deriving DecidableEq, Repr

def OutputMode.ofString? : String → Option OutputMode
  | "eval" => some eval
  | "tree" => some tree
  | _ => none

def depthOfString? (w : String) : Option Nat :=
  let digits := match w.toList with
    | '+' :: ds => ds
    | ds => ds
  let n := Nat.ofDigitChars 10 digits 0
  if !digits.isEmpty && digits.all Char.isDigit && decide (n < Nat.pow 2 64) then some n else none

namespace Given

def setOption (g : Given) (name : OptionName) (value : String) : Except UsageFault Given :=
  match name with
  | .mode =>
    if g.mode.isSome then .error .repeatedOption
    else match OutputMode.ofString? value with
      | some m => .ok { g with mode := some m }
      | none => .error .unknownMode
  | .maxDepth =>
    if g.maxDepth.isSome then .error .repeatedOption
    else match depthOfString? value with
      | some n => .ok { g with maxDepth := some n }
      | none => .error .badDepth

def setExpr (g : Given) (expr : String) : Except UsageFault Given :=
  if g.expr.isSome then .error .unknownArgument else .ok { g with expr := some expr }

/-- Words after the separator are expressions, whatever they look like. -/
def readPlain (g : Given) : List String → Except UsageFault Given
  | [] => .ok g
  | w :: ws => do (← g.setExpr w).readPlain ws

/-- Reads words from left to right.  The word after an option without an attached value is its value, unless that word
is an option itself. -/
def read (g : Given) : List String → Except UsageFault Given
  | [] => .ok g
  | w :: ws =>
    match Word.ofString w with
    | .separator => g.readPlain ws
    | .help => .error .help
    | .helpWithValue => .error .unwantedValue
    | .unknown => .error .unknownArgument
    | .plain expr => do (← g.setExpr expr).read ws
    | .option name (some value) => do (← g.setOption name value).read ws
    | .option name none =>
      match ws with
      | [] => .error .missingValue
      | v :: ws =>
        match Word.ofString v with
        | .plain value => do (← g.setOption name value).read ws
        | .unknown => .error .unknownArgument
        | _ => .error .missingValue

/-- What was not said has its default. -/
def options (g : Given) : Options := ⟨g.mode.getD .eval, g.maxDepth.getD defaultMaxDepth, g.expr⟩

end Given

def Options.parse (words : List String) : Except UsageFault Options := do
  let g ← Given.read {} words
  pure g.options

end Calculator
