import LineCompiler.Action
import LineCompiler.Event
import LineCompiler.Sink

/-!
# Emitting the program of a statement

The emitter writes instructions while it follows what they compute: it knows the value of every
variable and of every register in use. Registers form a stack that starts at register 0 with each
statement. Every number and every variable read takes the next register, an operator replaces the
two highest by its result, and a store keeps the highest.

`Action.perform` carries out one action of an expression, and `Emit.statement` all actions of a
statement. `Emit.opening`, `Emit.closing` and `Emit.abandon` write the rest of a program, and
`Emitter.run` traces what any of these steps does.
-/

namespace LineCompiler

/-- Whether a divisor is being computed, and whether it has read a variable. The end of a divisor
also ends the scan of the divisors around it. -/
inductive DivisorScan where
  | outside
  /-- Inside a divisor, with no variable read since the scan began. -/
  | fixed
  /-- Inside a divisor, with a variable read since the scan began. -/
  | varying
  deriving DecidableEq, Repr

namespace DivisorScan

def enter : DivisorScan → DivisorScan
  | outside => fixed
  | scan => scan

def readVariable : DivisorScan → DivisorScan
  | outside => outside
  | _ => varying

end DivisorScan

structure Emitter where
  table : Table
  sink : Sink := {}
  log : Array Event := #[]
  /-- The values of the registers in use, the highest register first. -/
  registers : List Int32 := []
  divisor : DivisorScan := .outside
  deriving Repr

/-- A step of the emitter. A fault keeps what was done before it. -/
abbrev Emit := EStateM Fault Emitter

namespace Emit

def record (events : List Event) : Emit Unit :=
  modify fun e => { e with log := e.log.appendList events }

/-- Logs an instruction and writes it as a line of the program. -/
def instruction (i : Instruction) : Emit Unit := do
  record [.emit i]
  let taken ← modifyGet fun e =>
    let (taken, sink) := e.sink.put i.line
    (taken, { e with sink })
  unless taken do throw .sinkFailed

def flush : Emit Unit := do
  if (← get).sink.flushFails then throw .sinkFailed

/-- Performs an operation on the table and logs the variables that it declares. -/
def onTable {α : Type} (operation : Table → Except Fault (α × Table)) : Emit α := do
  let before := (← get).table
  match operation before with
  | .ok (a, after) =>
    modify fun e => { e with table := after }
    record (Event.declarations before after)
    return a
  | .error fault => throw fault

/-- The operand for the memory cell of a slot. -/
def cell (slot : Nat) : Emit Operand := do
  return .mem ((← get).table.address slot)

/-- Writes a load of the next free register, which then holds `value`. -/
def push (source : Operand) (value : Int32) : Emit Unit := do
  let dst := (← get).registers.length
  modify fun e => { e with registers := value :: e.registers }
  instruction (.mov (.reg dst) source)

end Emit

namespace Action

open Emit

/-- The two highest values replaced by the result of the operator. Expressions always bring two
values to an operator; fewer stay as they are. -/
def foldTop (op : BinOp) : List Int32 → List Int32
  | right :: left :: rest => op.fold left right :: rest
  | short => short

/-- Performs one action. A variable is read from the table before the register for it is taken and
stored into the table before the instruction is written; a divisor that is zero, and known to be so
without reading a variable, is a fault. -/
def perform : Action → Emit Unit
  | literal value => push (.imm value) value
  | load name => do
    modify fun e => { e with divisor := e.divisor.readVariable }
    let (slot, value) ← onTable (·.read name)
    push (← cell slot) value
  | enterDivisor => modify fun e => { e with divisor := e.divisor.enter }
  | leaveDivisor => do
    let e ← get
    set { e with divisor := .outside }
    if e.registers.head? = some 0 ∧ e.divisor ≠ .varying then throw .zeroDivisor
  | combine op => do
    let depth := (← get).registers.length
    instruction (.combine op (depth - 2) (depth - 1))
    modify fun e => { e with registers := foldTop op e.registers }
  | store name => do
    let registers := (← get).registers
    let slot ← onTable (·.write name (registers.headD 0))
    instruction (.mov (← cell slot) (.reg (registers.length - 1)))

end Action

namespace Emit

/-- The variables that exist from the start, in slot order. -/
def predeclared : List String := ["x", "y", "z"]

/-- Declares the predeclared variables and loads each into a register of its own. -/
def opening : Emit Unit :=
  forM predeclared.zipIdx fun (name, reg) => do
    let slot ← onTable (·.declare name 0)
    instruction (.preload reg ((← get).table.address slot))

/-- Loads the predeclared variables, which own the first slots, and ends the program. -/
def closing : Emit Unit := do
  forM (List.range predeclared.length) fun slot => do
    instruction (.mov (.reg slot) (← cell slot))
  instruction (.exit 0)
  flush

/-- Ends the program as failed. -/
def abandon : Emit Unit := do
  instruction (.exit 1)
  flush

/-- Writes the program of a statement and gives the value that it leaves in register 0. -/
def statement (tree : Expr) : Emit Int32 := do
  modify fun e => { e with registers := [], divisor := .outside }
  forM (tree.actions []) Action.perform
  return (← get).registers.headD 0

end Emit

/-- What a piece of work did: its result, the text it wrote and the events it logged. -/
structure Trace (α : Type) where
  result : Except Fault α
  text : String
  log : Array Event

namespace Emitter

/-- The emitter with nothing written or logged so far. The room left in the sink stays. -/
def cleared (e : Emitter) : Emitter := { e with sink.written := "", log := #[] }

def trace {α : Type} (e : Emitter) (result : Except Fault α) : Trace α :=
  ⟨result, e.sink.written, e.log⟩

/-- Runs a step and traces it. -/
def run {α : Type} (e : Emitter) (step : Emit α) : Trace α × Emitter :=
  match step e.cleared with
  | .ok a e => (e.trace (.ok a), e)
  | .error fault e => (e.trace (.error fault), e)

end Emitter

end LineCompiler
