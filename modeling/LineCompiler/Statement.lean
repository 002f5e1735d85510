import LineCompiler.Expr
import LineCompiler.Fault
import LineCompiler.Token

/-!
# Statements

A statement is the expression on one line, or nothing. It is read token by token with a stack of
what is still unfinished: operators that wait for their right operand, assignments that wait for
their value, and open parentheses. A token that no unfinished statement can go on with stops the
reading in front of it, so reading never passes the end of a line.

From the weakest to the strongest, the expression forms are the assignments, grouped to the right,
the binary operators `|`, `^`, `&`, `+ -` and `* /`, grouped to the left, the signs, and numbers,
variables, stepped variables and parentheses. Only a variable can be assigned to; parentheses
around it make no difference.
-/

namespace LineCompiler

/-- Something unfinished around the expression being read. -/
inductive Frame where
  /-- An operator of the given level that waits for its right operand. -/
  | binary (level : Nat) (op : BinOp) (left : Expr)
  /-- A variable that waits for the value to be stored. -/
  | assign (op : AssignOp) (name : String)
  | paren
  deriving DecidableEq, Repr

namespace Frame

/-- Hands `e` as right operand to the innermost operators of at least this level. -/
def close (level : Nat) (e : Expr) : List Frame → Expr × List Frame
  | binary strength op left :: frames =>
    if level ≤ strength then close level (.binary op left e) frames
    else (e, binary strength op left :: frames)
  | frames => (e, frames)

/-- Hands `e` to every operator and assignment up to the innermost open parenthesis. -/
def closeAll (e : Expr) : List Frame → Expr × List Frame
  | binary _ op left :: frames => closeAll (.binary op left e) frames
  | assign op name :: frames => closeAll (.assign op name e) frames
  | frames => (e, frames)

end Frame

/-- What the next token of an expression has to be. -/
inductive Expecting where
  /-- The start of an operand. -/
  | operand
  /-- The variable that a `++` or `--` steps. -/
  | stepTarget (op : StepOp)
  /-- Something that goes on after the operand `e`. -/
  | operator (e : Expr)
  deriving DecidableEq, Repr

/-- An expression of which a part has been read. -/
structure Pending where
  frames : List Frame
  expecting : Expecting
  deriving DecidableEq, Repr

namespace Pending

def start : Pending := ⟨[], .operand⟩

/-- Goes on with the first token of an operand. -/
def beginOperand? (frames : List Frame) : Token → Option Pending
  | .num digits => some ⟨frames, .operator (.literal digits)⟩
  | .ident name => some ⟨frames, .operator (.var name)⟩
  | .op .add => some ⟨.binary BinOp.signLevel .add (.num 0) :: frames, .operand⟩
  | .op .sub => some ⟨.binary BinOp.signLevel .sub (.num 0) :: frames, .operand⟩
  | .step op => some ⟨frames, .stepTarget op⟩
  | .openParen => some ⟨.paren :: frames, .operand⟩
  | _ => none

/-- Goes on with the token after a `++` or `--`. -/
def takeStepTarget? (frames : List Frame) (op : StepOp) : Token → Option Pending
  | .ident name => some ⟨frames, .operator (.stepped op.assignOp name)⟩
  | _ => none

/-- Goes on with the token after the operand `e`. -/
def extend? (frames : List Frame) (e : Expr) : Token → Option Pending
  | .op op =>
    let (left, frames) := Frame.close op.level e frames
    some ⟨.binary op.level op left :: frames, .operand⟩
  | .assign op =>
    match Frame.close 0 e frames with
    | (.var name, frames) => some ⟨.assign op name :: frames, .operand⟩
    | _ => none
  | .closeParen =>
    match Frame.closeAll e frames with
    | (e, .paren :: frames) => some ⟨frames, .operator e⟩
    | _ => none
  | _ => none

/-- The expression with one more token read, if it can go on with that token. -/
def next? (p : Pending) (token : Token) : Option Pending :=
  match p.expecting with
  | .operand => beginOperand? p.frames token
  | .stepTarget op => takeStepTarget? p.frames op token
  | .operator e => extend? p.frames e token

/-- Reads as many tokens as the expression can go on with. -/
def advance (p : Pending) : List Token → Pending × List Token
  | [] => (p, [])
  | token :: rest =>
    match p.next? token with
    | some q => q.advance rest
    | none => (p, token :: rest)

/-- The tree, if the expression may end here. -/
def complete? (p : Pending) : Option Expr :=
  match p.expecting with
  | .operator e =>
    match Frame.closeAll e p.frames with
    | (e, []) => some e
    | _ => none
  | _ => none

/-- Why the expression can neither end here nor go on with the token at hand. -/
def fault (p : Pending) : Fault :=
  match p.expecting with
  | .operand => .operandExpected
  | .stepTarget _ => .stepTargetExpected
  | .operator _ => if .paren ∈ p.frames then .unclosedParen else .malformed

theorem length_advance_le (p : Pending) (tokens : List Token) :
    (p.advance tokens).2.length ≤ tokens.length := by
  induction tokens generalizing p with
  | nil => exact Nat.le_refl _
  | cons token rest ih =>
    rw [advance]
    split
    · exact Nat.le_succ_of_le (ih _)
    · exact Nat.le_refl _

end Pending

inductive Statement where
  | endOfText
  | blank
  | expr (e : Expr)
  deriving DecidableEq, Repr

namespace Statement

/-- Reads one statement and the line end that closes it. The end of the text is not consumed, and
neither is the token at which a fault is found. -/
def read : List Token → Except Fault Statement × List Token
  | [] => (.ok endOfText, [])
  | .eof :: rest => (.ok endOfText, .eof :: rest)
  | .newline :: rest => (.ok blank, rest)
  | tokens =>
    match Pending.start.advance tokens with
    | (p, .newline :: rest) =>
      match p.complete? with
      | some e => (.ok (expr e), rest)
      | none => (.error p.fault, .newline :: rest)
    | (p, rest) => (.error p.fault, rest)

/-- A statement other than the end of the text uses up a token. -/
theorem length_read_lt {tokens rest : List Token} {s : Statement}
    (h : read tokens = (.ok s, rest)) (hs : s ≠ endOfText) : rest.length < tokens.length := by
  have hle := Pending.length_advance_le .start tokens
  unfold read at h
  split at h
  · cases h; exact absurd rfl hs
  · cases h; exact absurd rfl hs
  · cases h; exact Nat.lt_succ_self _
  · split at h
    · rename_i hadvance
      rw [hadvance] at hle
      split at h
      · cases h; exact hle
      · cases h
    · cases h

end Statement

/-- A place between two statements of a text: the tokens that follow, and the line of the first of
them. -/
structure Cursor where
  tokens : List Token
  line : Nat := 1
  deriving DecidableEq, Repr

namespace Cursor

/-- Reads the statement at the cursor. The line changes only when a line end is consumed. -/
def next (c : Cursor) : Except Fault Statement × Cursor :=
  match Statement.read c.tokens with
  | (.ok .endOfText, tokens) => (.ok .endOfText, { c with tokens })
  | (.ok s, tokens) => (.ok s, ⟨tokens, c.line + 1⟩)
  | (.error fault, tokens) => (.error fault, { c with tokens })

theorem length_next_lt {c d : Cursor} {s : Statement} (h : c.next = (.ok s, d))
    (hs : s ≠ .endOfText) : d.tokens.length < c.tokens.length := by
  unfold next at h
  split at h
  · cases h; exact absurd rfl hs
  · rename_i hread
    cases h
    exact Statement.length_read_lt hread hs
  · cases h

end Cursor

end LineCompiler
