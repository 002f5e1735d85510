import Mathlib
import LineCompiler.Expr
import LineCompiler.Token

/-!
# The grammar of expressions

    assign  := or | or ('=' | '+=' | '-=') assign      if the tree of the left `or` is a variable
    or      := xor ('|' xor)*
    xor     := and ('^' and)*
    and     := add ('&' add)*
    add     := mul (('+' | '-') mul)*
    mul     := unary (('*' | '/') unary)*
    unary   := ('+' | '-') unary | primary
    primary := NUMBER | NAME | ('++' | '--') NAME | '(' assign ')'

`Derives c tokens e` says that the tokens form an expression of the category `c` with the tree `e`.
Binary operators group to the left, a sign applies to the number 0 and its operand, and stepping a
variable stores into it with the number 1.
-/

namespace LineCompiler

/-- The categories of the grammar, from the weakest to the strongest. -/
inductive Category where
  | assign | or | xor | and | add | mul | unary | primary
  deriving DecidableEq, Repr

namespace Category

/-- The category whose expressions are the simplest ones of this category. -/
def next? : Category → Option Category
  | assign => some or
  | or => some xor
  | xor => some and
  | and => some add
  | add => some mul
  | mul => some unary
  | unary => some primary
  | primary => none

def rank : Category → Nat
  | assign => 0
  | or => 1
  | xor => 2
  | and => 3
  | add => 4
  | mul => 5
  | unary => 6
  | primary => 7

theorem rank_injective {c d : Category} (h : c.rank = d.rank) : c = d := by
  cases c <;> cases d <;> simp_all [rank]

theorem rank_next {c d : Category} (h : c.next? = some d) : d.rank = c.rank + 1 := by
  cases c <;> cases h <;> rfl

theorem exists_next {c d : Category} (h : c.rank < d.rank) : ∃ n, c.next? = some n := by
  cases c with
  | primary => cases d <;> simp [rank] at h
  | _ => exact ⟨_, rfl⟩

end Category

/-- The category of the expressions that an operator makes. -/
def BinOp.category : BinOp → Category
  | or => .or
  | xor => .xor
  | and => .and
  | add | sub => .add
  | mul | div => .mul

theorem BinOp.rank_category (op : BinOp) : op.category.rank = op.level + 1 := by
  cases op <;> rfl

/-- The tokens form an expression of the category with this tree. -/
inductive Derives : Category → List Token → Expr → Prop
  | lift {c d : Category} {ts : List Token} {e : Expr} (hnext : c.next? = some d)
      (h : Derives d ts e) : Derives c ts e
  | store {op : AssignOp} {name : String} {ts us : List Token} {e : Expr}
      (htarget : Derives .or ts (.var name)) (hvalue : Derives .assign us e) :
      Derives .assign (ts ++ .assign op :: us) (.assign op name e)
  | binary {op : BinOp} {d : Category} {ts us : List Token} {left right : Expr}
      (hnext : op.category.next? = some d) (hleft : Derives op.category ts left)
      (hright : Derives d us right) :
      Derives op.category (ts ++ .op op :: us) (.binary op left right)
  | sign {op : BinOp} {ts : List Token} {e : Expr} (hop : op = .add ∨ op = .sub)
      (h : Derives .unary ts e) : Derives .unary (.op op :: ts) (.binary op (.num 0) e)
  | num (digits : String) : Derives .primary [.num digits] (.literal digits)
  | var (name : String) : Derives .primary [.ident name] (.var name)
  | step (op : StepOp) (name : String) :
      Derives .primary [.step op, .ident name] (.assign op.assignOp name (.num 1))
  | paren {ts : List Token} {e : Expr} (h : Derives .assign ts e) :
      Derives .primary (.openParen :: ts ++ [.closeParen]) e

namespace Derives

variable {c d : Category} {ts : List Token} {e : Expr}

/-- An expression of a category also belongs to all weaker ones. -/
theorem weaken (h : Derives d ts e) (hle : c.rank ≤ d.rank) : Derives c ts e := by
  induction hgap : d.rank - c.rank generalizing c with
  | zero =>
    obtain rfl : c = d := Category.rank_injective (by omega)
    exact h
  | succ gap ih =>
    obtain ⟨n, hnext⟩ := Category.exists_next (c := c) (d := d) (by omega)
    have hrank := Category.rank_next hnext
    exact .lift hnext (ih (by omega) (by omega))

end Derives

end LineCompiler
