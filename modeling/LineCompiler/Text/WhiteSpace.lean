/-!
# White space

The characters with the Unicode property White_Space, and the removal of those at the end of a
text. An input is read without them.
-/

namespace LineCompiler.Text

/-- The ranges of code points with the property White_Space, both ends included. -/
def whiteSpaceRanges : List (Nat × Nat) :=
  [(0x09, 0x0D), (0x20, 0x20), (0x85, 0x85), (0xA0, 0xA0), (0x1680, 0x1680), (0x2000, 0x200A),
    (0x2028, 0x2029), (0x202F, 0x202F), (0x205F, 0x205F), (0x3000, 0x3000)]

def isWhiteSpace (c : Char) : Bool :=
  whiteSpaceRanges.any fun (low, high) => low ≤ c.toNat && c.toNat ≤ high

/-- The text without the white space at its end. -/
def trimEnd (text : String) : String :=
  String.ofList (text.toList.reverse.dropWhile isWhiteSpace).reverse

/-- The text of an input, if its bytes are text. -/
def contents? (bytes : ByteArray) : Option String := (String.fromUTF8? bytes).map trimEnd

end LineCompiler.Text
