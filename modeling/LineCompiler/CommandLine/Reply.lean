import LineCompiler.CommandLine.Options

/-!
# What the command answers

The command compiles the contents of one input. The program goes to standard output; the events that
the options ask for and a final complaint, if there is one, go to standard error, a line each.

`Options.answer` is the answer of a command that reads its input in a given way, and `Halt.answer`
that of one that compiles nothing.
-/

namespace LineCompiler.CommandLine

structure Reply where
  status : Nat
  stdout : String
  stderr : List String
  deriving DecidableEq, Repr

def programName : String := "exprcc"

def programVersion : String := "0.1.0"

def versionText : String := programName ++ " " ++ programVersion ++ "\n"

def usage : String :=
  "Usage: " ++ programName ++ " [--word-size N] [--table-size N] [--declare-on-read] " ++
    "[--zero-exit] [--dump-tree] [-v]... [INPUT]"

namespace Halt

/-- A request for information is no mistake. -/
def status : Halt → Nat
  | help | version => 0
  | _ => 2

/-- What was asked for goes to standard output. That it cannot be shown is no failure. -/
def answer (halt : Halt) (outputFails : Bool) : Reply :=
  let shown (text : String) : String := if outputFails then "" else text
  match halt with
  | help => ⟨halt.status, shown (usage ++ "\n"), []⟩
  | version => ⟨halt.status, shown versionText, []⟩
  | _ => ⟨halt.status, "", [usage]⟩

end Halt

namespace Reply

/-- The input could not be read as text. -/
def unreadable : Reply := ⟨1, "", ["Error: reading input"]⟩

/-- The command broke off before it wrote anything, for want of memory for the table. -/
def brokenOff : Reply := ⟨101, "", ["capacity overflow"]⟩

/-- The answer to a traced run. Output is held back until the program is complete, so a sink that
failed has shown nothing. -/
def ofTrace (options : Options) (trace : Trace Outcome) : Reply :=
  let shown := (trace.log.toList.filter fun event => options.level.shows event.level).map
    Event.line
  match trace.result with
  | .ok outcome => ⟨options.status outcome, trace.text, shown⟩
  | .error _ => ⟨1, "", shown ++ ["Error: writing program"]⟩

end Reply

/-- The answer of a command. `contents` gives the text of the input of a name, if that can be read,
and `outputFails` tells that standard output takes nothing. -/
def Options.answer (o : Options) (contents : String → Option String) (outputFails : Bool) : Reply :=
  match contents o.input with
  | none => .unreadable
  | some text =>
    match Compilation.start? text o.config { flushFails := outputFails } o.dumpTree with
    | none => .brokenOff
    | some c => .ofTrace o c.run.1

end LineCompiler.CommandLine
