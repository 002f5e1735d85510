import LineCompiler.Expr

/-!
# Actions

What has to be done to compute an expression, step by step: the operands of an operator come before
it, the left one first, and the right operand of a division is marked off from the rest. An
assignment that joins the old value of its variable with the right-hand side reads the variable
first.
-/

namespace LineCompiler

/-- One step in the course of computing an expression. -/
inductive Action where
  | literal (value : Int32)
  | load (name : String)
  | enterDivisor
  | leaveDivisor
  | combine (op : BinOp)
  | store (name : String)
  deriving DecidableEq, Repr

namespace Expr

/-- The actions that compute `e`, in front of `rest`. -/
def actions : Expr → List Action → List Action
  | num value, rest => .literal value :: rest
  | var name, rest => .load name :: rest
  | binary op left right, rest =>
    if op = .div then
      left.actions (.enterDivisor :: right.actions (.leaveDivisor :: .combine op :: rest))
    else
      left.actions (right.actions (.combine op :: rest))
  | assign op name right, rest =>
    match op.combine? with
    | none => right.actions (.store name :: rest)
    | some op => .load name :: right.actions (.combine op :: .store name :: rest)

theorem actions_eq_append (e : Expr) (rest : List Action) :
    e.actions rest = e.actions [] ++ rest := by
  induction e generalizing rest with
  | num | var => rfl
  | binary op left right ihl ihr =>
    simp only [actions]
    split
    · rw [ihl, ihr, ihl (_ :: right.actions _), ihr [_, _]]
      simp only [List.append_assoc, List.cons_append, List.nil_append]
    · rw [ihl, ihr, ihl (right.actions _), ihr [_]]
      simp only [List.append_assoc, List.cons_append, List.nil_append]
  | assign op name right ih =>
    simp only [actions]
    split
    · rw [ih, ih [_]]
      simp only [List.append_assoc, List.cons_append, List.nil_append]
    · rw [ih, ih [_, _]]
      simp only [List.append_assoc, List.cons_append, List.nil_append]

end Expr

end LineCompiler
