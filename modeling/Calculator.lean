import Calculator.Calculation
import Calculator.Main
import Calculator.Proofs.Outcome
import Calculator.Proofs.Reader
import Calculator.Proofs.Context
import Calculator.Proofs.Acceptance
import Calculator.Proofs.Lexing
import Calculator.Proofs.Limit
import Calculator.Proofs.FirstFault
import Calculator.Proofs.Direct
import Calculator.Proofs.Tape
import Calculator.Proofs.Cut
import Calculator.Proofs.Unreached
import Calculator.Proofs.Rendering
import Calculator.Proofs.PostOrder
import Calculator.Proofs.Conversation
import Calculator.Proofs.Feedback
import Calculator.Proofs.PreOrder
import Calculator.Proofs.Indentation
import Calculator.Proofs.Message
import Calculator.Proofs.Trim
import Calculator.Proofs.Headlines
import Calculator.Proofs.CommandLine
import Calculator.Proofs.Invocation
import Calculator.Proofs.Remainder
import Calculator.Proofs.OpenLevels
import Calculator.Proofs.Unfinished
import Calculator.Proofs.Postfix
import Calculator.Proofs.TokenTrace
import Calculator.Proofs.Nearest
import Calculator.Proofs.Shortest
import Calculator.Proofs.Notation
import Calculator.Proofs.Respelling
import Calculator.Proofs.Sizes
