import LineCompiler.Operator

/-!
# Expressions

The tree of one statement, and its prefix form: the operator first, then what it applies to, all
parts set apart by one space.
-/

namespace LineCompiler

inductive Expr where
  | num (value : Int32)
  | var (name : String)
  | binary (op : BinOp) (left right : Expr)
  | assign (op : AssignOp) (name : String) (right : Expr)
  deriving DecidableEq, Repr

namespace Expr

/-- The value of a decimal number, wrapped to 32 bits. -/
def valueOfDigits (digits : List Char) : Int32 :=
  digits.foldl (fun value digit => value * 10 + Int32.ofNat (digit.toNat - '0'.toNat)) 0

/-- The number written with these digits. -/
def literal (digits : String) : Expr := num (valueOfDigits digits.toList)

/-- A variable stepped up or down by the number 1. -/
def stepped (op : AssignOp) (name : String) : Expr := assign op name (num 1)

/-- The words of the prefix form of `e`, in front of `rest`. -/
def words : Expr → List String → List String
  | num value, rest => toString value :: rest
  | var name, rest => name :: rest
  | binary op left right, rest => op.symbol :: left.words (right.words rest)
  | assign op name right, rest => op.symbol :: name :: right.words rest

theorem words_eq_append (e : Expr) (rest : List String) : e.words rest = e.words [] ++ rest := by
  induction e generalizing rest with
  | num | var => rfl
  | binary op left right ihl ihr =>
    rw [words, words, ihl, ihr, ihl (right.words []), List.cons_append, List.append_assoc]
  | assign op name right ih => rw [words, words, ih, List.cons_append, List.cons_append]

def prefixForm (e : Expr) : String := " ".intercalate (e.words [])

end Expr

end LineCompiler
