import Calculator.Expr.Outline
import Calculator.Expr.Parse
import Calculator.Expr.Value
import Calculator.Text.Blank
import Calculator.Text.Lines
/-!
# Session — answering one expression per line

A session answers each line of its input, trimmed, by a value or an outline; a fault is an answer too and does not end
the session.  Empty lines are passed over and the line `q` ends it.  Two things fail a session: a line that is not
UTF-8, and an output that takes no more bytes; what was written before stays written.
-/
namespace Calculator

/-- What is shown of an expression. -/
inductive OutputMode where
  | eval
  | tree
deriving DecidableEq, Repr, Inhabited

/-- How many levels a tree may have when nothing else is said. -/
def defaultMaxDepth : Nat := 512

structure Session where
  mode : OutputMode
  maxDepth : Nat
deriving DecidableEq, Repr, Inhabited

/-- Why a session ended early. -/
inductive StreamFault where
  | notText
  | outputFull
deriving DecidableEq, Repr

def StreamFault.message : StreamFault → String
  | notText => "stream did not contain valid UTF-8"
  | outputFull => "failed to write whole buffer"

/-- What a session wrote, and the failure that ended it if one did. -/
structure Transcript where
  output : List UInt8
  failure : Option StreamFault
deriving DecidableEq, Repr

/-- What is to be done about one line. -/
inductive LineAnswer where
  /-- Nothing: the line is empty. -/
  | silent
  | quit
  | notText
  | write (text : String)
deriving DecidableEq, Repr

namespace Session

/-- The answer to an expression as it is given. -/
def process (s : Session) (source : String) : Except Fault String := do
  let e ← (Expr.parse s.maxDepth source).outcome
  match s.mode with
  | .tree => pure e.outline
  | .eval => do
    let x ← e.eval
    pure ("=" ++ Binary64.text x ++ "\n")

/-- The answer to an expression, or the message that tells why there is none. -/
def reply (s : Session) (source : String) : String :=
  match s.process source with
  | .ok text => text
  | .error e => e.message ++ "\n"

def answer (s : Session) (line : List UInt8) : LineAnswer :=
  match Text.decode? line with
  | none => .notText
  | some text =>
    let source := Text.trim text
    if source = "q" then .quit
    else if source = "" then .silent
    else .write (s.reply source)

/-- Answers lines in order.  `room` is the number of bytes the output still takes, `none` if there is no end to it; an
answer that does not fit is cut where the room ends. -/
def runLines (s : Session) (room : Option Nat) : List (List UInt8) → Transcript
  | [] => ⟨[], none⟩
  | line :: lines =>
    match s.answer line with
    | .silent => s.runLines room lines
    | .quit => ⟨[], none⟩
    | .notText => ⟨[], some .notText⟩
    | .write text =>
      let bytes := Text.encode text
      if room.all (bytes.length ≤ ·) then
        let r := s.runLines (room.map (· - bytes.length)) lines
        ⟨bytes ++ r.output, r.failure⟩
      else ⟨bytes.take (room.getD 0), some .outputFull⟩

def run (s : Session) (room : Option Nat) (input : List UInt8) : Transcript := s.runLines room (Text.lines input)

end Session
end Calculator
