import LineCompiler.Operator

/-!
# Tokens

Source text is a sequence of tokens: numbers and words, which carry what was written, operators,
parentheses, line ends, and single characters that belong to no token of the language.
-/

namespace LineCompiler

/-- The two operators that change a variable by one: `++` and `--`. -/
inductive StepOp where
  | increment | decrement
  deriving DecidableEq, Repr

namespace StepOp

def symbol : StepOp → String
  | increment => "++"
  | decrement => "--"

/-- Stepping a variable stores into it with the number 1 on the right. -/
def assignOp : StepOp → AssignOp
  | increment => .add
  | decrement => .sub

end StepOp

inductive Token where
  | num (digits : String)
  | ident (name : String)
  | op (op : BinOp)
  | assign (op : AssignOp)
  | step (op : StepOp)
  | openParen
  | closeParen
  | newline
  /-- The end of the source text. -/
  | eof
  /-- A character that starts no other token. -/
  | unknown (char : Char)
  deriving DecidableEq, Repr

namespace Token

/-- What the token shows of the source text. The end of a line and the end of the text show
nothing. -/
def text : Token → String
  | num digits => digits
  | ident name => name
  | op o => o.symbol
  | assign o => o.symbol
  | step o => o.symbol
  | openParen => "("
  | closeParen => ")"
  | newline | eof => ""
  | unknown c => c.toString

/-- Pairs each token with the number of its line, the first token standing on `line`. -/
def withLines (line : Nat) : List Token → List (Token × Nat)
  | [] => []
  | token :: rest => (token, line) :: withLines (if token = newline then line + 1 else line) rest

end Token

end LineCompiler
