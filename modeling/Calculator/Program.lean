import Calculator.CommandLine.Options
/-!
# Program — what a command line does

With an expression the program answers it and is done; without one it holds a session on its input.  Faults of an
expression given as an argument, and of the streams, go to the error output with exit code 1; a command line that is
not followed has exit code 2.
-/
namespace Calculator

structure Outcome where
  exitCode : Nat
  output : List UInt8
  errors : List UInt8
deriving DecidableEq, Repr

/-- What is to be done for a command line. -/
inductive Plan where
  /-- Nothing more: this is what to leave behind. -/
  | done (outcome : Outcome)
  /-- Answer the lines of the input. -/
  | converse (session : Session)
deriving DecidableEq, Repr

/-- What help prints.  The wording is this library's own: only the exit code and the stream are settled. -/
def usage : String :=
  "Usage: calculator [-m MODE] [--max-depth N] [EXPR]\n\n" ++
  "  -m, --mode MODE    what to print for each expression: eval (the default) or tree\n" ++
  "  --max-depth N      refuse expressions whose tree is taller than this (by default 512)\n" ++
  "  -h, --help         print this text\n\n" ++
  "Without EXPR, expressions are read from the input line by line, until a line `q`.\n"

/-- What is said of a command line that is not followed, in words that are this library's own as well. -/
def UsageFault.message : UsageFault → String
  | help => usage
  | unknownArgument => "unknown argument\n"
  | missingValue => "an option has no value\n"
  | unknownMode => "the mode is eval or tree\n"
  | badDepth => "a depth is a whole number below 2^64\n"
  | repeatedOption => "an option is given twice\n"
  | unwantedValue => "an option without a value is given one\n"

def UsageFault.outcome (e : UsageFault) : Outcome :=
  match e with
  | help => ⟨0, Text.encode e.message, []⟩
  | _ => ⟨2, [], Text.encode e.message⟩

def Options.session (o : Options) : Session := ⟨o.mode, o.maxDepth⟩

namespace Program

def answer (s : Session) (expr : String) : Outcome :=
  match s.process (Text.trim expr) with
  | .ok text => ⟨0, Text.encode text, []⟩
  | .error e => ⟨1, [], Text.encode (e.message ++ "\n")⟩

def plan (args : List String) : Plan :=
  match Options.parse args with
  | .error e => .done e.outcome
  | .ok o =>
    match o.expr with
    | some expr => .done (answer o.session expr)
    | none => .converse o.session

def ofTranscript (t : Transcript) : Outcome :=
  match t.failure with
  | none => ⟨0, t.output, []⟩
  | some e => ⟨1, t.output, Text.encode (e.message ++ "\n")⟩

/-- The whole program on a command line and an input. -/
def run (args : List String) (input : List UInt8) : Outcome :=
  match plan args with
  | .done o => o
  | .converse s => ofTranscript (s.run none input)

end Program
end Calculator
