/-!
# Faults

A compilation stops at the first fault. Every fault has one fixed wording, and every fault but one
is reported in the compiled program itself, as its exit code: a sink that refuses text cannot take
that last instruction either.
-/

namespace LineCompiler

/-- The cause that stopped a compilation. -/
inductive Fault where
  | unclosedParen
  | operandExpected
  | undefined (name : String)
  | tableFull (capacity : Nat)
  /-- An assignment to something other than a variable. No tree can hold one, so compiling
  never stops here. -/
  | targetRequired
  | zeroDivisor
  /-- A complete expression followed by something other than the end of its line. -/
  | malformed
  /-- A `++` or `--` that no variable follows. -/
  | stepTargetExpected
  | sinkFailed
  deriving DecidableEq, Repr

namespace Fault

def message : Fault → String
  | unclosedParen => "mismatched parenthesis"
  | operandExpected => "number or identifier expected"
  | undefined name => "variable not defined: " ++ name
  | tableFull capacity =>
    "out of memory: symbol table holds at most " ++ toString capacity ++ " variables"
  | targetRequired => "lvalue required as an operand"
  | zeroDivisor => "divide by constant zero"
  | malformed => "syntax error"
  | stepTargetExpected => "incdec not followed by id"
  | sinkFailed => "failed to write program text"

/-- Whether the compiled program records this fault as its exit code. -/
def endsProgram : Fault → Bool
  | sinkFailed => false
  | _ => true

end Fault

end LineCompiler
