import LineCompiler.Expr
import LineCompiler.Fault
import LineCompiler.Instruction
import LineCompiler.Table

/-!
# Log events

What a compilation tells about its progress: one event for each instruction written, variable
declared, statement read and compiled, and one for the end. An event has a level, a message and
named fields; `Event.line` is the form in which it is shown.
-/

namespace LineCompiler

/-- How much a reader has to want to know before an event is shown. -/
inductive Level where
  | error | warn | info | debug | trace
  deriving DecidableEq, Repr

namespace Level

def name : Level → String
  | error => "ERROR"
  | warn => "WARN"
  | info => "INFO"
  | debug => "DEBUG"
  | trace => "TRACE"

/-- The amount of detail that a level stands for. -/
def detail : Level → Nat
  | error => 0
  | warn => 1
  | info => 2
  | debug => 3
  | trace => 4

/-- Whether events of this level are shown to a reader who asked for `wanted`. -/
def shows (wanted level : Level) : Bool := level.detail ≤ wanted.detail

/-- The level itself if it shows `least`, and `least` otherwise. -/
def raiseTo (level least : Level) : Level := if level.shows least then level else least

end Level

inductive Event where
  | emit (instruction : Instruction)
  | declared (name : String) (slot : Nat)
  | parsed (line : Nat) (tree : Expr)
  | compiled (line : Nat) (value : Int32)
  | finished (statements : Nat)
  | failed (fault : Fault) (line : Nat)
  deriving DecidableEq, Repr

namespace Event

/-- The value of a field: a number, a name, which is shown in quotes, or plain text. -/
inductive Field where
  | int (value : Int)
  | name (word : String)
  | text (shown : String)
  deriving DecidableEq, Repr

/-- Names are words of letters, digits and underscores, so nothing in them is escaped. -/
def Field.shown : Field → String
  | int value => toString value
  | name word => "\"" ++ word ++ "\""
  | text shown => shown

def level : Event → Level
  | emit _ => .trace
  | declared .. => .debug
  | parsed .. => .info
  | compiled .. => .debug
  | finished _ => .info
  | failed .. => .error

def message : Event → String
  | emit _ => "emit"
  | declared .. => "declared variable"
  | parsed .. => "parsed statement"
  | compiled .. => "compiled statement"
  | finished _ => "compilation finished"
  | failed fault _ => fault.message

def fields : Event → List (String × Field)
  | emit instruction => [("instruction", .text instruction.text)]
  | declared name slot => [("name", .name name), ("slot", .int slot)]
  | parsed line tree => [("line", .int line), ("tree", .text tree.prefixForm)]
  | compiled line value => [("line", .int line), ("value", .int value.toInt)]
  | finished statements => [("statements", .int statements)]
  | failed _ line => [("line", .int line)]

/-- Level, message and fields, set apart by single spaces. -/
def line (e : Event) : String :=
  " ".intercalate <| e.level.name :: e.message ::
    e.fields.map fun (key, value) => key ++ "=" ++ value.shown

/-- The declarations that made `before` into `after`, in slot order. -/
def declarations (before after : Table) : List Event :=
  (after.vars.zipIdx.drop before.size).map fun (var, slot) => declared var.name slot

end Event

end LineCompiler
