import LineCompiler.CommandLine.Reply
import LineCompiler.Text.WhiteSpace

/-!
# The command

Reads the arguments and the input, and passes the answer on.
-/

namespace LineCompiler.CommandLine

def readInput (o : Options) : IO (Option ByteArray) := do
  try
    if o.readsStdin then
      return some (← (← IO.getStdin).readBinToEnd)
    else
      return some (← IO.FS.readBinFile o.input)
  catch _ => return none

/-- Writes to standard output, and tells whether it took the text. -/
def writeOutput (text : String) : IO Bool := do
  try
    let stdout ← IO.getStdout
    stdout.putStr text
    stdout.flush
    return true
  catch _ => return false

/-- Passes on an answer. It is given for both cases, that standard output takes it and that it
does not. -/
def pass (answer : Bool → Reply) : IO UInt32 := do
  let reply := answer false
  let reply := if ← writeOutput reply.stdout then reply else answer true
  for line in reply.stderr do
    IO.eprintln line
  return reply.status.toUInt32

end LineCompiler.CommandLine

open LineCompiler.CommandLine in
def main (args : List String) : IO UInt32 := do
  match Options.read args with
  | .ok o =>
    let contents := (← readInput o).bind LineCompiler.Text.contents?
    pass (o.answer fun _ => contents)
  | .error halt => pass halt.answer
