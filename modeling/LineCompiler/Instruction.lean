import LineCompiler.Operator

/-!
# Instructions

The instructions of the target machine and their text. A program is one instruction a line.
-/

namespace LineCompiler

/-- A numbered register, a memory cell given by its address, or a number. -/
inductive Operand where
  | reg (index : Nat)
  | mem (address : Nat)
  | imm (value : Int32)
  deriving DecidableEq, Repr

namespace Operand

def text : Operand → String
  | reg index => "r" ++ toString index
  | mem address => "[" ++ toString address ++ "]"
  | imm value => toString value

end Operand

inductive Instruction where
  /-- The load of a predeclared variable at the start of a program. It is the one move that is
  written with a comma. -/
  | preload (reg address : Nat)
  | mov (dst src : Operand)
  /-- Applies `op` to two registers and leaves the result in the first. -/
  | combine (op : BinOp) (dst src : Nat)
  | exit (code : Int32)
  deriving DecidableEq, Repr

namespace Instruction

def text : Instruction → String
  | preload reg address => "MOV " ++ (Operand.reg reg).text ++ ", " ++ (Operand.mem address).text
  | mov dst src => "MOV " ++ dst.text ++ " " ++ src.text
  | combine op dst src =>
    op.mnemonic ++ " " ++ (Operand.reg dst).text ++ " " ++ (Operand.reg src).text
  | exit code => "EXIT " ++ toString code

/-- The instruction as a line of a program. -/
def line (i : Instruction) : String := i.text ++ "\n"

end Instruction

end LineCompiler
