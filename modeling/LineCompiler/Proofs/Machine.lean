import Mathlib
import LineCompiler.Instruction

/-!
# The target machine

A machine has numbered registers and memory cells, all of them 32 bits wide. `Machine.run` executes
a program up to its first exit instruction; a program that writes to a number, or that has no exit
instruction, gets nowhere.

The arithmetic of the machine is that of the integers, wrapped to 32 bits (`Machine.compute`). It
agrees with the arithmetic that the compiler does in advance (`Machine.compute_eq_fold`).
-/

namespace LineCompiler

structure Machine where
  registers : Nat → Int32
  memory : Nat → Int32

namespace Machine

/-- The results of the machine's arithmetic. Quotients are rounded towards zero, and a quotient by
zero is 0. -/
def compute : BinOp → Int32 → Int32 → Int32
  | .add, a, b => Int32.ofInt (a.toInt + b.toInt)
  | .sub, a, b => Int32.ofInt (a.toInt - b.toInt)
  | .mul, a, b => Int32.ofInt (a.toInt * b.toInt)
  | .div, a, b => if b = 0 then 0 else Int32.ofInt (a.toInt.tdiv b.toInt)
  | .and, a, b => Int32.ofBitVec (a.toBitVec &&& b.toBitVec)
  | .or, a, b => Int32.ofBitVec (a.toBitVec ||| b.toBitVec)
  | .xor, a, b => Int32.ofBitVec (a.toBitVec ^^^ b.toBitVec)

theorem compute_eq_fold (op : BinOp) (a b : Int32) : compute op a b = op.fold a b := by
  cases op with
  | add => simp [compute, BinOp.fold]
  | sub => simp [compute, BinOp.fold]
  | mul => simp [compute, BinOp.fold]
  | div =>
    by_cases hb : b = 0
    · rw [compute, if_pos hb, hb, BinOp.fold_div_zero]
    · rw [compute, if_neg hb, BinOp.fold, ← Int32.toInt_inj, Int32.toInt_div]
      simp
  | and => rfl
  | or => rfl
  | xor => rfl

def read (m : Machine) : Operand → Int32
  | .reg index => m.registers index
  | .mem address => m.memory address
  | .imm value => value

/-- Writes to a register or a memory cell; a number cannot be written to. -/
def write (m : Machine) : Operand → Int32 → Option Machine
  | .reg index, value => some { m with registers := Function.update m.registers index value }
  | .mem address, value => some { m with memory := Function.update m.memory address value }
  | .imm _, _ => none

/-- Executes an instruction. After an exit instruction nothing is executed. Both kinds of moves do
the same. -/
def step (m : Machine) : Instruction → Option Machine
  | .preload reg address => m.write (.reg reg) (m.read (.mem address))
  | .mov dst src => m.write dst (m.read src)
  | .combine op dst src =>
    m.write (.reg dst) (compute op (m.read (.reg dst)) (m.read (.reg src)))
  | .exit _ => none

/-- Executes instructions one after the other. -/
def exec (m : Machine) : List Instruction → Option Machine
  | [] => some m
  | i :: rest =>
    match m.step i with
    | some m => m.exec rest
    | none => none

/-- A machine that came to an exit instruction. -/
structure Halt where
  machine : Machine
  code : Int32
  /-- The instructions behind the one that ended the program. -/
  rest : List Instruction

/-- Executes a program up to its first exit instruction. -/
def run (m : Machine) : List Instruction → Option Halt
  | [] => none
  | .exit code :: rest => some ⟨m, code, rest⟩
  | i :: rest =>
    match m.step i with
    | some m => m.run rest
    | none => none

theorem exec_append (m : Machine) (p q : List Instruction) :
    m.exec (p ++ q) = (m.exec p).bind (exec · q) := by
  induction p generalizing m with
  | nil => rfl
  | cons i p ih =>
    rw [List.cons_append, exec, exec]
    split
    · exact ih _
    · rfl

theorem exec_append_of_some {m m' : Machine} {p : List Instruction} (h : m.exec p = some m')
    (q : List Instruction) : m.exec (p ++ q) = m'.exec q := by
  rw [exec_append, h]
  rfl

/-- Instructions that can all be executed, followed by an exit instruction. -/
theorem run_append_exit {m m' : Machine} {p : List Instruction} (h : m.exec p = some m')
    (code : Int32) (rest : List Instruction) :
    m.run (p ++ .exit code :: rest) = some ⟨m', code, rest⟩ := by
  induction p generalizing m with
  | nil =>
    cases h
    rfl
  | cons i p ih =>
    rw [exec] at h
    split at h
    · rename_i hstep
      cases i with
      | exit code => cases hstep
      | preload | mov | combine =>
        rw [List.cons_append, run, hstep]
        · exact ih h
        · exact nofun
    · cases h

end Machine

end LineCompiler
