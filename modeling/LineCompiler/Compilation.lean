import LineCompiler.Emitter
import LineCompiler.Statement
import LineCompiler.Token.Lexer

/-!
# Compilations

A compilation reads statements and emits the program of each before it reads the next. It ends at
the end of the text or at the first fault, and in both cases completes the program with an exit
instruction, unless the sink is what failed. A compilation can be run again: it goes on at the
token where it stopped, with the variables it has.

* `Compilation.start?` sets up a compilation.
* `Compilation.run` runs a compilation once and traces the run.
* `compile` compiles a whole text into memory.
-/

namespace LineCompiler

/-- How a run ended. Either way its program is complete. -/
inductive Outcome where
  | completed
  | stopped (fault : Fault)
  deriving DecidableEq, Repr

namespace Outcome

/-- The operand of the exit instruction. -/
def exitCode : Outcome → Nat
  | completed => 0
  | stopped _ => 1

end Outcome

structure Compilation where
  cursor : Cursor
  emitter : Emitter
  /-- The line on which the statement last looked at begins. -/
  line : Nat := 1
  /-- Whether the tree of every statement is logged. -/
  logTrees : Bool := false
  deriving Repr

/-- Emits the program of the statement that begins on `line`, and logs its tree, if wanted, and its
value. -/
def Emit.loggedStatement (logTree : Bool) (line : Nat) (e : Expr) : Emit Unit := do
  if logTree then record [.parsed line e]
  let value ← statement e
  record [.compiled line value]

/-- A step of a compilation. A fault keeps what was done before it. -/
abbrev Compile := EStateM Fault Compilation

namespace Compile

/-- Lets the emitter do a step. -/
def emitting {α : Type} (step : Emit α) : Compile α := fun c =>
  match step c.emitter with
  | .ok a emitter => .ok a { c with emitter }
  | .error fault emitter => .error fault { c with emitter }

/-- Compiles the statements up to the end of the text, and gives their number together with the
`count` of those before. Empty lines do not count. -/
def statements (count : Nat) (c : Compilation) : EStateM.Result Fault Compilation Nat :=
  match h : c.cursor.next with
  | (.ok .endOfText, cursor) => .ok count { c with cursor, line := c.cursor.line }
  | (.ok .blank, cursor) =>
    have : cursor.tokens.length < c.cursor.tokens.length :=
      Cursor.length_next_lt h Statement.noConfusion
    statements count { c with cursor, line := c.cursor.line }
  | (.ok (.expr e), cursor) =>
    have : cursor.tokens.length < c.cursor.tokens.length :=
      Cursor.length_next_lt h Statement.noConfusion
    match Emit.loggedStatement c.logTrees c.cursor.line e c.emitter with
    | .ok _ emitter => statements (count + 1) { c with cursor, emitter, line := c.cursor.line }
    | .error fault emitter => .error fault { c with cursor, emitter, line := c.cursor.line }
  | (.error fault, cursor) => .error fault { c with cursor, line := c.cursor.line }
termination_by c.cursor.tokens.length

/-- Emits a whole program and logs the number of its statements. -/
def program : Compile Outcome := do
  emitting Emit.opening
  let count ← statements 0
  emitting Emit.closing
  emitting (Emit.record [.finished count])
  return .completed

/-- Logs a fault with the line of its statement and completes the program. The fault of the sink,
which could not take that, is passed on. -/
def stop (fault : Fault) : Compile Outcome := do
  unless fault.endsProgram do throw fault
  emitting (Emit.record [.failed fault (← get).line])
  emitting Emit.abandon
  return .stopped fault

/-- Emits a whole program, up to the first fault if there is one. -/
def outcome : Compile Outcome := tryCatch program stop

end Compile

namespace Compilation

/-- The compilation of a text with an empty table. -/
def ofText (text : String) (config : Config) (sink : Sink) (logTrees : Bool) : Compilation where
  cursor := { tokens := Token.ofString text }
  emitter := { table := { config }, sink }
  logTrees := logTrees

/-- Sets up the compilation of a text. It breaks off where there is no memory for the table. -/
def start? (text : String) (config : Config) (sink : Sink) (logTrees : Bool) :
    Option Compilation :=
  (Table.new? config).map fun table =>
    { cursor := { tokens := Token.ofString text }, emitter := { table, sink }, logTrees }

/-- Runs the compilation once. The trace holds what this run wrote and logged. -/
def run (c : Compilation) : Trace Outcome × Compilation :=
  match Compile.outcome { c with emitter := c.emitter.cleared } with
  | .ok outcome c => (c.emitter.trace (.ok outcome), c)
  | .error fault c => (c.emitter.trace (.error fault), c)

end Compilation

end LineCompiler
