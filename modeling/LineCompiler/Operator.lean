/-!
# Operators

The operators of the language on 32-bit two's complement numbers. `BinOp.fold` is their meaning at
compile time, `BinOp.level` their binding strength in source text, `BinOp.mnemonic` the machine
instruction that computes them.
-/

namespace LineCompiler

inductive BinOp where
  | add | sub | mul | div | and | or | xor
  deriving DecidableEq, Repr

namespace BinOp

def symbol : BinOp → String
  | add => "+"
  | sub => "-"
  | mul => "*"
  | div => "/"
  | and => "&"
  | or => "|"
  | xor => "^"

def mnemonic : BinOp → String
  | add => "ADD"
  | sub => "SUB"
  | mul => "MUL"
  | div => "DIV"
  | and => "AND"
  | or => "OR"
  | xor => "XOR"

/-- Binding strength. An operator takes the operands around it before every operator of a lower
level does; operators of one level group to the left. -/
def level : BinOp → Nat
  | or => 0
  | xor => 1
  | and => 2
  | add | sub => 3
  | mul | div => 4

/-- The value of an operation. Results wrap to 32 bits, division drops the fraction, and a quotient
by zero is 0. -/
def fold : BinOp → Int32 → Int32 → Int32
  | add, a, b => a + b
  | sub, a, b => a - b
  | mul, a, b => a * b
  | div, a, b => a / b
  | and, a, b => a &&& b
  | or, a, b => a ||| b
  | xor, a, b => a ^^^ b

/-- The strength of a sign in front of an operand, above that of every binary operator. -/
def signLevel : Nat := 5

theorem level_lt_signLevel (op : BinOp) : op.level < signLevel := by
  cases op <;> decide

theorem fold_div_zero (a : Int32) : fold div a 0 = 0 := Int32.div_zero

end BinOp

/-- The three ways of storing into a variable: `=`, `+=` and `-=`. -/
inductive AssignOp where
  | set | add | sub
  deriving DecidableEq, Repr

namespace AssignOp

def symbol : AssignOp → String
  | set => "="
  | add => "+="
  | sub => "-="

/-- The operator that joins the old value with the right-hand side; a plain store has none. -/
def combine? : AssignOp → Option BinOp
  | set => none
  | add => some .add
  | sub => some .sub

end AssignOp

end LineCompiler
