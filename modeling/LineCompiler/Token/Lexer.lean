import LineCompiler.Token

/-!
# Splitting text into tokens

Blanks separate tokens and are dropped. At every other character the longest token that starts
there is taken: a run of digits, a run of letters, digits and underscores led by a letter, one of
the two-character operators, a single operator or parenthesis, a line end, or else that one
character on its own. `Token.scan` ends its list with the end of the text.

Letters and digits are those of ASCII.
-/

namespace LineCompiler.Token

def isBlank (c : Char) : Bool := c == ' ' || c == '\t'

def isWordChar (c : Char) : Bool := c.isAlphanum || c == '_'

/-- The longest text that a number or a word keeps. -/
def maxLength : Nat := 255

/-- The text kept of a run of characters. A longer run is one token all the same. -/
def clip (run : List Char) : String := String.ofList (run.take maxLength)

/-- The operators written with two characters. -/
def ofPair? : Char → Char → Option Token
  | '+', '+' => some (step .increment)
  | '-', '-' => some (step .decrement)
  | '+', '=' => some (assign .add)
  | '-', '=' => some (assign .sub)
  | _, _ => none

/-- The tokens of one character. Every character that no token starts with is one of them. -/
def ofChar : Char → Token
  | '+' => op .add
  | '-' => op .sub
  | '*' => op .mul
  | '/' => op .div
  | '&' => op .and
  | '|' => op .or
  | '^' => op .xor
  | '=' => assign .set
  | '(' => openParen
  | ')' => closeParen
  | '\n' => newline
  | c => unknown c

/-- The token that starts with a character other than a letter or digit, and the text after it. -/
def firstSymbol (c : Char) : List Char → Token × List Char
  | [] => (ofChar c, [])
  | next :: rest =>
    match ofPair? c next with
    | some token => (token, rest)
    | none => (ofChar c, next :: rest)

/-- The token that starts with the character `c`, and the text after it. -/
def first (c : Char) (rest : List Char) : Token × List Char :=
  if c.isDigit then
    (num (clip (c :: rest.takeWhile Char.isDigit)), rest.dropWhile Char.isDigit)
  else if c.isAlpha then
    (ident (clip (c :: rest.takeWhile isWordChar)), rest.dropWhile isWordChar)
  else
    firstSymbol c rest

theorem length_dropWhile_le (p : Char → Bool) (cs : List Char) :
    (cs.dropWhile p).length ≤ cs.length :=
  (List.dropWhile_sublist p).length_le

theorem length_firstSymbol_le (c : Char) (rest : List Char) :
    (firstSymbol c rest).2.length ≤ rest.length := by
  unfold firstSymbol
  split
  · exact Nat.le_refl _
  · split
    · exact Nat.le_succ _
    · exact Nat.le_refl _

theorem length_first_le (c : Char) (rest : List Char) :
    (first c rest).2.length ≤ rest.length := by
  unfold first
  split
  · exact length_dropWhile_le _ _
  · split
    · exact length_dropWhile_le _ _
    · exact length_firstSymbol_le c rest

/-- The tokens of a text, closed by the end of the text. -/
def scan (text : List Char) : List Token :=
  match h : text.dropWhile isBlank with
  | [] => [eof]
  | c :: rest =>
    have : (first c rest).2.length < text.length := by
      have hdrop := length_dropWhile_le isBlank text
      have hfirst := length_first_le c rest
      rw [h, List.length_cons] at hdrop
      omega
    (first c rest).1 :: scan (first c rest).2
termination_by text.length

def ofString (text : String) : List Token := scan text.toList

end LineCompiler.Token
