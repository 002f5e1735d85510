import LineCompiler.Proofs.Lexemes
import LineCompiler.Proofs.Recognition

/-!
# Every expression can be written

`Expr.source` writes an expression as source text, with parentheses around all operands, and
`read_source` reads the expression back from that text.

* `Expr.scan_source`: the tokens of the text are `Expr.tokens`, whatever follows.
* `Expr.derives_tokens`: the grammar derives the expression from these tokens.
* `Expr.literal_unsigned`: a negative number is read back from the digits of a number 2 ^ 32 higher.
-/

namespace LineCompiler

/-! ## The value of a written number -/

namespace Expr

theorem valueOfDigits_eq (digits : List Char) :
    valueOfDigits digits = Int32.ofNat (Nat.ofDigitChars 10 digits 0) := by
  -- the folds agree from every pair of values that agree
  have hfold (n : Nat) : digits.foldl
      (fun value digit => value * 10 + Int32.ofNat (digit.toNat - '0'.toNat)) (Int32.ofNat n) =
        Int32.ofNat (Nat.ofDigitChars 10 digits n) := by
    unfold Nat.ofDigitChars
    induction digits generalizing n with
    | nil => rfl
    | cons digit digits ih =>
      rw [List.foldl_cons, List.foldl_cons, ← ih, Int32.ofNat_add, Int32.ofNat_mul, Int32.mul_comm]
      rfl
  exact hfold 0

/-- The number that is written for a value. A negative value has no digits of its own and is written
2 ^ 32 higher. -/
def unsigned (value : Int32) : Nat :=
  (if value.toInt < 0 then value.toInt + 2 ^ 32 else value.toInt).toNat

theorem unsigned_lt (value : Int32) : unsigned value < 2 ^ 32 := by
  have := value.toInt_lt
  unfold unsigned
  split
  · omega
  · omega

theorem ofNat_unsigned (value : Int32) : Int32.ofNat (unsigned value) = value := by
  have := value.toInt_lt
  have := value.le_toInt
  apply Int32.toInt_inj.mp
  rw [Int32.toInt_ofNat', Int.bmod_def, Int32.size, unsigned]
  split
  · split <;> omega
  · split <;> omega

theorem literal_unsigned (value : Int32) : literal (toString (unsigned value)) = num value := by
  rw [literal, Nat.toString_eq_ofList_toDigits, String.toList_ofList, valueOfDigits_eq,
    Nat.ofDigitChars_ten_toDigits, ofNat_unsigned]

/-! ## Text and tokens of an expression -/

/-- The expression as source text. Parentheses stand around the operands of an operator and around
an assignment, and `gap` on both sides of each operator. -/
def source (gap : String) : Expr → String
  | num value => toString (unsigned value)
  | var name => name
  | binary op left right =>
    "(" ++ left.source gap ++ ")" ++ gap ++ op.symbol ++ gap ++ "(" ++ right.source gap ++ ")"
  | assign op name right =>
    "(" ++ name ++ gap ++ op.symbol ++ gap ++ "(" ++ right.source gap ++ "))"

/-- The tokens of that text. -/
def tokens : Expr → List Token
  | num value => [.num (toString (unsigned value))]
  | var name => [.ident name]
  | binary op left right =>
    (.openParen :: left.tokens ++ [.closeParen]) ++
      .op op :: (.openParen :: right.tokens ++ [.closeParen])
  | assign op name right =>
    .openParen :: ([.ident name] ++ .assign op :: (.openParen :: right.tokens ++ [.closeParen])) ++
      [.closeParen]

/-- The names of the variables in an expression. -/
def names : Expr → List String
  | num _ => []
  | var name => [name]
  | binary _ left right => left.names ++ right.names
  | assign _ name right => name :: right.names

/-- The variables that an expression reads. An assignment reads its target only if it joins the old
value with the new one. -/
def loads : Expr → List String
  | num _ => []
  | var name => [name]
  | binary _ left right => left.loads ++ right.loads
  | assign op name right => if op = .set then right.loads else name :: right.loads

/-- The grammar derives the expression from its tokens. -/
theorem derives_tokens (e : Expr) : Derives .assign e.tokens e := by
  induction e with
  | num value =>
    have hnum := Derives.num (toString (unsigned value))
    rw [literal_unsigned] at hnum
    exact hnum.weaken (Nat.zero_le _)
  | var name => exact (Derives.var name).weaken (Nat.zero_le _)
  | binary op left right ihl ihr =>
    have hlevel : op.level < 5 := op.level_lt_signLevel
    have hrank := op.rank_category
    have hprimary : Category.primary.rank = 7 := rfl
    obtain ⟨d, hnext⟩ : ∃ d, op.category.next? = some d :=
      Category.exists_next (d := .primary) (by omega)
    have hnextRank := Category.rank_next hnext
    have hbinary := Derives.binary hnext (ihl.paren.weaken (by omega)) (ihr.paren.weaken (by omega))
    exact hbinary.weaken (Nat.zero_le _)
  | assign op name right ih =>
    have htarget : Derives .or [.ident name] (.var name) := (Derives.var name).weaken (by decide)
    have hvalue : Derives .assign _ right := ih.paren.weaken (Nat.zero_le _)
    exact (Derives.paren (.store htarget hvalue)).weaken (Nat.zero_le _)

end Expr

/-! ## Scanning the text -/

namespace Token

variable {gap after : List Char}

/-- Neither a number nor a word goes on with this text. -/
def Ends (after : List Char) : Prop := ∀ c ∈ after.head?, ¬ (c.isAlphanum ∨ c = '_')

theorem ends_cons {c : Char} {rest : List Char} (hc : ¬ (c.isAlphanum ∨ c = '_')) :
    Ends (c :: rest) := by
  rintro _ ⟨⟩
  exact hc

theorem ends_gap (hgap : ∀ c ∈ gap, isBlank c) (hafter : Ends after) : Ends (gap ++ after) := by
  cases gap with
  | nil => exact hafter
  | cons c gap =>
    apply ends_cons
    rcases isBlank_iff.mp (hgap c List.mem_cons_self) with rfl | rfl
    · decide
    · decide

theorem scan_gap (hgap : ∀ c ∈ gap, isBlank c) (text : List Char) :
    scan (gap ++ text) = scan text := by
  have hdrop : (gap ++ text).dropWhile isBlank = text.dropWhile isBlank :=
    List.dropWhile_append_of_pos hgap
  cases htext : text.dropWhile isBlank with
  | nil => rw [scan_of_nil htext, scan_of_nil (hdrop.trans htext)]
  | cons c rest => rw [scan_of_cons htext, scan_of_cons (hdrop.trans htext)]

/-- A lexeme at the start of a text. -/
theorem scan_lexeme {lexeme : List Char} {token : Token} (h : IsLexeme [] lexeme after token)
    (hshows : Shows lexeme token) : scan (lexeme ++ after) = token :: scan after :=
  scan_of_isLexeme h hshows (List.forall_mem_nil _)

theorem scan_openParen (after : List Char) : scan ('(' :: after) = openParen :: scan after := by
  have hlexeme : IsLexeme [] ['('] after openParen := rfl
  exact scan_lexeme hlexeme rfl

theorem scan_closeParen (after : List Char) : scan (')' :: after) = closeParen :: scan after := by
  have hlexeme : IsLexeme [] [')'] after closeParen := rfl
  exact scan_lexeme hlexeme rfl

/-- A number of digits that are all kept. -/
theorem scan_digits {digits : String} (hnumber : IsNumber digits.toList)
    (hlength : digits.length ≤ 255) (hafter : Ends after) :
    scan (digits.toList ++ after) = num digits :: scan after := by
  have hlexeme : IsLexeme [] digits.toList after (num digits) :=
    (Closed.nil_left _).maximal (fun _ => .inl) (.of_head hafter) hnumber
  apply scan_lexeme hlexeme
  show digits = String.ofList _
  rw [List.take_of_length_le (by rwa [String.length_toList]), String.ofList_toList]

theorem scan_number {n : Nat} (hn : n < 2 ^ 32) (hafter : Ends after) :
    scan ((toString n).toList ++ after) = num (toString n) :: scan after := by
  have hlength : (Nat.toDigits 10 n).length ≤ 255 := by
    rw [Nat.length_toDigits_le_iff (by omega) (by omega)]
    exact Nat.lt_of_lt_of_le hn (by norm_num)
  have hnumber : IsNumber (Nat.toDigits 10 n) :=
    ⟨Nat.toDigits_ne_nil, fun c => Nat.isDigit_of_mem_toDigits (by omega) (by omega)⟩
  apply scan_digits _ _ hafter
  · rwa [Nat.toString_eq_ofList_toDigits, String.toList_ofList]
  · rwa [Nat.toString_eq_ofList_toDigits, String.length_ofList]

theorem scan_word {name : String} (hword : IsWord name.toList) (hlength : name.length ≤ 255)
    (hafter : Ends after) : scan (name.toList ++ after) = ident name :: scan after := by
  have hlexeme : IsLexeme [] name.toList after (ident name) :=
    (Closed.nil_left _).maximal (fun _ => .inr) (.of_head hafter) hword
  apply scan_lexeme hlexeme
  show name = String.ofList _
  rw [List.take_of_length_le (by rwa [String.length_toList]), String.ofList_toList]

/-- An operator in front of a blank or a parenthesis, with which no sign makes a pair. -/
theorem scan_operator (o : BinOp) (hafter : ∀ c ∈ after.head?, isBlank c ∨ c = '(') :
    scan (o.symbol.toList ++ after) = op o :: scan after := by
  have hlexeme : IsLexeme [] o.symbol.toList after (op o) := by
    refine ⟨rfl, fun ho c hc => ?_⟩
    have hfollow : c = ' ' ∨ c = '\t' ∨ c = '(' := by
      rw [← or_assoc, ← isBlank_iff]
      exact hafter c hc
    rcases ho with rfl | rfl
    · rcases hfollow with rfl | rfl | rfl <;> decide
    · rcases hfollow with rfl | rfl | rfl <;> decide
  have hshows : Shows o.symbol.toList (op o) := by cases o <;> rfl
  exact scan_lexeme hlexeme hshows

theorem scan_op (hgap : ∀ c ∈ gap, isBlank c) (o : BinOp) (after : List Char) :
    scan (o.symbol.toList ++ (gap ++ '(' :: after)) = op o :: scan ('(' :: after) := by
  have hfollow : ∀ c ∈ (gap ++ '(' :: after).head?, isBlank c ∨ c = '(' := by
    cases gap with
    | nil =>
      rintro _ ⟨⟩
      exact .inr rfl
    | cons c gap =>
      rintro _ ⟨⟩
      exact .inl (hgap c List.mem_cons_self)
  rw [scan_operator o hfollow, scan_gap hgap]

theorem scan_assign (o : AssignOp) (after : List Char) :
    scan (o.symbol.toList ++ after) = assign o :: scan after := by
  have hlexeme : IsLexeme [] o.symbol.toList after (assign o) := rfl
  have hshows : Shows o.symbol.toList (assign o) := by cases o <;> rfl
  exact scan_lexeme hlexeme hshows

theorem ends_assign (o : AssignOp) (after : List Char) : Ends (o.symbol.toList ++ after) := by
  cases o with
  | set => exact ends_cons (c := '=') (by decide)
  | add => exact ends_cons (c := '+') (by decide)
  | sub => exact ends_cons (c := '-') (by decide)

end Token

namespace Expr

open Token (scan IsWord Ends isBlank)

/-- The tokens of the text are those of the expression, and scanning goes on behind it. -/
theorem scan_source {gap : String} (hgap : ∀ c ∈ gap.toList, isBlank c) {e : Expr}
    (hnames : ∀ name ∈ e.names, IsWord name.toList ∧ name.length ≤ 255) {after : List Char}
    (hafter : Ends after) : scan ((e.source gap).toList ++ after) = e.tokens ++ scan after := by
  have hclose (rest : List Char) : Ends (')' :: rest) := Token.ends_cons (by decide)
  induction e generalizing after with
  | num value => exact Token.scan_number (unsigned_lt value) hafter
  | var name =>
    obtain ⟨hword, hlength⟩ := hnames name (List.mem_singleton_self name)
    exact Token.scan_word hword hlength hafter
  | binary op left right ihl ihr =>
    have hleft := fun name h => hnames name (List.mem_append_left _ h)
    have hright := fun name h => hnames name (List.mem_append_right _ h)
    simp only [source, tokens, String.toList_append, String.reduceToList, List.append_assoc,
      List.cons_append, List.nil_append]
    rw [Token.scan_openParen, ihl hleft (hclose _), Token.scan_closeParen, Token.scan_gap hgap,
      Token.scan_op hgap, Token.scan_openParen, ihr hright (hclose _), Token.scan_closeParen]
  | assign op name right ih =>
    obtain ⟨hword, hlength⟩ := hnames name List.mem_cons_self
    have hright := fun name h => hnames name (List.mem_cons_of_mem _ h)
    simp only [source, tokens, String.toList_append, String.reduceToList, List.append_assoc,
      List.cons_append, List.nil_append]
    have hend := fun after => Token.ends_gap hgap (Token.ends_assign op after)
    rw [Token.scan_openParen, Token.scan_word hword hlength (hend _), Token.scan_gap hgap,
      Token.scan_assign, Token.scan_gap hgap, Token.scan_openParen,
      ih hright (hclose _), Token.scan_closeParen, Token.scan_closeParen]

end Expr

/-- **Every expression can be written.** The source text of an expression, with any blanks around
the operators, is read back as that expression, and the whole line is read. -/
theorem read_source (e : Expr) (gap : String) (hgap : ∀ c ∈ gap.toList, c = ' ' ∨ c = '\t')
    (hnames : ∀ name ∈ e.names, Token.IsWord name.toList ∧ name.length ≤ 255) :
    Statement.read (Token.ofString (e.source gap ++ "\n")) = (.ok (.expr e), [.eof]) := by
  have hblank : ∀ c ∈ gap.toList, Token.isBlank c := fun c hc => Token.isBlank_iff.mpr (hgap c hc)
  have hend : Token.Ends ['\n'] := Token.ends_cons (by decide)
  have hline : Token.scan ['\n'] = [.newline, .eof] := by cbv
  have htokens : Token.ofString (e.source gap ++ "\n") = e.tokens ++ [.newline, .eof] := by
    rw [Token.ofString, String.toList_append, ← hline]
    exact Expr.scan_source hblank hnames hend
  rw [htokens, Statement.read_eq_expr_iff]
  obtain ⟨p, hreads, hcomplete⟩ := complete_of_derives e.derives_tokens
  exact ⟨e.tokens, p, rfl, hreads, hcomplete⟩

/-- A negative number and an assignment as an operand. -/
theorem read_source_nested_assignment :
    let e : Expr := .assign .sub "x_1" (.binary .sub (.num (-1)) (.assign .set "y" (.var "z")))
    e.source " " = "(x_1 -= ((4294967295) - ((y = (z)))))" ∧
      (∀ c ∈ " ".toList, c = ' ' ∨ c = '\t') ∧
      (∀ name ∈ e.names, Token.IsWord name.toList ∧ name.length ≤ 255) ∧
      Statement.read (Token.ofString (e.source " " ++ "\n")) = (.ok (.expr e), [.eof]) := by
  intro e
  have hgap : ∀ c ∈ " ".toList, c = ' ' ∨ c = '\t' := by simp
  have hnames : ∀ name ∈ e.names, Token.IsWord name.toList ∧ name.length ≤ 255 := by
    have hlength : "x_1".length ≤ 255 ∧ "y".length ≤ 255 ∧ "z".length ≤ 255 := by decide
    simpa [e, Expr.names, Token.IsWord] using hlength
  exact ⟨by cbv, hgap, hnames, read_source e " " hgap hnames⟩

end LineCompiler
