import Calculator.Program
/-!
# Main — the program on the real streams

A session is held line by line, each answer written before the next line is read.
-/
namespace Calculator

/-- Writes bytes at once. -/
def put (stream : IO.FS.Stream) (bytes : List UInt8) : IO Unit := do
  stream.write ⟨bytes.toArray⟩
  stream.flush

/-- The next line, and whether there was one. -/
partial def readLine (input : IO.FS.Stream) (line : ByteArray) : IO (Option ByteArray) := do
  let b ← input.read 1
  if b.isEmpty then return if line.isEmpty then none else some line
  if b == ⟨#[Text.newline]⟩ then return some line
  readLine input (line ++ b)

partial def converse (s : Session) (input output : IO.FS.Stream) : IO (Option StreamFault) := do
  match ← readLine input .empty with
  | none => return none
  | some line =>
    match s.answer line.data.toList with
    | .silent => converse s input output
    | .quit => return none
    | .notText => return some .notText
    | .write text => do
      put output (Text.encode text)
      converse s input output

end Calculator

open Calculator in
def main (args : List String) : IO UInt32 := do
  let input ← IO.getStdin
  let output ← IO.getStdout
  let errors ← IO.getStderr
  match Program.plan args with
  | .done o => do
    put output o.output
    put errors o.errors
    return o.exitCode.toUInt32
  | .converse s => do
    let failure ← converse s input output
    let o := Program.ofTranscript ⟨[], failure⟩
    put errors o.errors
    return o.exitCode.toUInt32
