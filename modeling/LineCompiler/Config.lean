/-!
# Configuration

The three choices of the target machine and of the language that a compilation leaves open.
-/

namespace LineCompiler

structure Config where
  /-- Distance in memory between two neighbouring variables. -/
  wordSize : Nat := 4
  /-- The greatest number of variables, the predeclared ones included. -/
  capacity : Nat := 64
  /-- Reading an unknown variable declares it with the value 0 instead of being a fault. -/
  declareOnRead : Bool := false
  deriving DecidableEq, Repr

end LineCompiler
