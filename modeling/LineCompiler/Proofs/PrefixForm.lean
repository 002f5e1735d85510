import LineCompiler.Proofs.EarliestFault
import LineCompiler.Proofs.Names
import LineCompiler.Proofs.Words

/-!
# The prefix form identifies the tree

The prefix form has no parentheses, and it needs none: read from its last word to its first, every
operator finds its operands as the two topmost trees of a stack.

* `Expr.Word.ofText` tells the words apart. Operators, assignments and negative numbers share their
  first character, so whole words are compared.
* `Expr.ofWords?_words`: the words of a tree put that tree on the stack, whatever words follow.
* `prefixForm_identifies_tree`: the decoder for whole texts, and what it means for the trees of two
  texts.
-/

namespace LineCompiler

/-! ## The words of a prefix form -/

namespace BinOp

/-- The operator with this symbol. -/
def ofSymbol? (word : String) : Option BinOp :=
  [add, sub, mul, div, and, or, xor].find? (·.symbol == word)

theorem not_isAlphanum_of_mem_symbol (op : BinOp) : ∀ c ∈ op.symbol.toList, ¬ c.isAlphanum := by
  have hall : op.symbol.toList.all (fun c => !c.isAlphanum) := by cases op <;> rfl
  simpa using hall

end BinOp

namespace AssignOp

/-- The assignment with this symbol. -/
def ofSymbol? (word : String) : Option AssignOp :=
  [set, add, sub].find? (·.symbol == word)

theorem not_isAlphanum_of_mem_symbol (op : AssignOp) :
    ∀ c ∈ op.symbol.toList, ¬ c.isAlphanum := by
  have hall : op.symbol.toList.all (fun c => !c.isAlphanum) := by cases op <;> rfl
  simpa using hall

end AssignOp

namespace Expr

/-- What a word of a prefix form can be. -/
inductive Word where
  | num (value : Int32)
  | var (name : String)
  | binary (op : BinOp)
  | assign (op : AssignOp)
  deriving DecidableEq, Repr

namespace Word

/-- What the word is. A word that is neither an operator nor a number is a name. -/
def ofText (word : String) : Word :=
  match BinOp.ofSymbol? word, AssignOp.ofSymbol? word, Text.number? word with
  | some op, _, _ => binary op
  | none, some op, _ => assign op
  | none, none, some value => num value
  | none, none, none => var word

theorem ofText_binary (op : BinOp) : ofText op.symbol = binary op := by
  have hop : BinOp.ofSymbol? op.symbol = some op := by cases op <;> decide
  simp only [ofText, hop]

theorem ofText_assign (op : AssignOp) : ofText op.symbol = assign op := by
  have hbinary : BinOp.ofSymbol? op.symbol = none := by cases op <;> decide
  have hop : AssignOp.ofSymbol? op.symbol = some op := by cases op <;> decide
  simp only [ofText, hbinary, hop]

/-- A word with a letter or a digit is no operator. -/
theorem ofSymbol?_eq_none {word : String} {c : Char} (hmem : c ∈ word.toList)
    (hc : c.isAlphanum) : BinOp.ofSymbol? word = none ∧ AssignOp.ofSymbol? word = none := by
  constructor
  · refine List.find?_eq_none.mpr fun op _ hop => ?_
    rw [← beq_iff_eq.mp hop] at hmem
    exact op.not_isAlphanum_of_mem_symbol c hmem hc
  · refine List.find?_eq_none.mpr fun op _ hop => ?_
    rw [← beq_iff_eq.mp hop] at hmem
    exact op.not_isAlphanum_of_mem_symbol c hmem hc

theorem ofText_num (value : Int32) : ofText (toString value) = num value := by
  obtain ⟨c, hmem, hc⟩ := Text.exists_digit_mem_int32 value
  obtain ⟨hbinary, hassign⟩ := ofSymbol?_eq_none hmem (Token.isAlphanum_of_isDigit hc)
  simp only [ofText, hbinary, hassign, Text.number?_toString]

/-- A word that starts with a letter is no number. -/
theorem number?_of_isAlpha {name : String} {c : Char} {rest : List Char}
    (hlist : name.toList = c :: rest) (hc : c.isAlpha) : Text.number? name = none := by
  rw [Text.number?, Option.map_eq_none_iff, String.toInt?_eq_none_iff, Bool.eq_false_iff]
  intro hint
  rcases String.isInt_iff.mp hint with hnat | ⟨digits, rfl, -⟩
  · have hmem : c ∈ name.toList := hlist ▸ List.mem_cons_self
    rcases (String.isNat_iff.mp hnat).2.1 c hmem with hdigit | rfl
    · exact Token.not_isDigit_of_isAlpha hc hdigit
    · exact absurd hc (by decide)
  · rw [String.toList_append] at hlist
    obtain ⟨rfl, -⟩ := List.cons_eq_cons.mp hlist
    exact absurd hc (by decide)

theorem ofText_var {name : String} (h : Token.IsWord name.toList) : ofText name = var name := by
  cases hlist : name.toList with
  | nil =>
    rw [hlist] at h
    exact h.elim
  | cons c rest =>
    rw [hlist] at h
    have hmem : c ∈ name.toList := hlist ▸ List.mem_cons_self
    obtain ⟨hbinary, hassign⟩ := ofSymbol?_eq_none hmem (Token.isAlphanum_of_isAlpha h.1)
    simp only [ofText, hbinary, hassign, number?_of_isAlpha hlist h.1]

/-- Puts the word on a stack of trees. An operator takes the two topmost trees as its operands, the
left one on top, and an assignment takes a variable and a tree. -/
def push : Word → List Expr → Option (List Expr)
  | num value, stack => some (.num value :: stack)
  | var name, stack => some (.var name :: stack)
  | binary op, left :: right :: stack => some (.binary op left right :: stack)
  | assign op, .var name :: right :: stack => some (.assign op name right :: stack)
  | _, _ => none

end Word

/-! ## Decoding -/

/-- The trees that these words stand for one after the other. The last word is read first. -/
def ofWords? : List String → Option (List Expr)
  | [] => some []
  | word :: rest => (ofWords? rest).bind (Word.ofText word).push

/-- The words of a tree put it on the stack that the words behind it leave. -/
theorem ofWords?_words {e : Expr} (hnames : ∀ name ∈ e.names, Token.IsWord name.toList)
    (rest : List String) : ofWords? (e.words rest) = (ofWords? rest).map (e :: ·) := by
  induction e generalizing rest with
  | num value =>
    rw [words, ofWords?, Word.ofText_num]
    cases ofWords? rest <;> rfl
  | var name =>
    rw [words, ofWords?, Word.ofText_var (hnames name (List.mem_singleton_self name))]
    cases ofWords? rest <;> rfl
  | binary op left right ihl ihr =>
    have hleft := ihl fun name h => hnames name (List.mem_append_left _ h)
    have hright := ihr fun name h => hnames name (List.mem_append_right _ h)
    rw [words, ofWords?, Word.ofText_binary, hleft, hright]
    cases ofWords? rest <;> rfl
  | assign op name right ih =>
    have hright := ih fun name h => hnames name (List.mem_cons_of_mem _ h)
    rw [words, ofWords?, ofWords?, Word.ofText_assign,
      Word.ofText_var (hnames name List.mem_cons_self), hright]
    cases ofWords? rest <;> rfl

/-- The tree with this prefix form. -/
def ofPrefixForm? (text : String) : Option Expr :=
  match ofWords? (Text.parts ' ' text) with
  | some [e] => some e
  | _ => none

/-- The words of a tree are free of spaces. -/
theorem space_notMem_words {e : Expr} (hnames : ∀ name ∈ e.names, Token.IsWord name.toList)
    {rest : List String} (hrest : ∀ word ∈ rest, ' ' ∉ word.toList) :
    ∀ word ∈ e.words rest, ' ' ∉ word.toList := by
  have hname {name : String} (h : Token.IsWord name.toList) : ' ' ∉ name.toList := by
    intro hmem
    exact absurd (h.of_mem hmem) (by decide)
  induction e generalizing rest with
  | num value =>
    refine List.forall_mem_cons.mpr ⟨fun hmem => ?_, hrest⟩
    exact absurd (Text.isDigit_or_minus_of_mem_int32 hmem) (by decide)
  | var name =>
    exact List.forall_mem_cons.mpr ⟨hname (hnames name (List.mem_singleton_self name)), hrest⟩
  | binary op left right ihl ihr =>
    have hop : ' ' ∉ op.symbol.toList := by cases op <;> decide
    have hright := ihr (fun name h => hnames name (List.mem_append_right _ h)) hrest
    have hleft := ihl (fun name h => hnames name (List.mem_append_left _ h)) hright
    exact List.forall_mem_cons.mpr ⟨hop, hleft⟩
  | assign op name right ih =>
    have hop : ' ' ∉ op.symbol.toList := by cases op <;> decide
    have hright := ih (fun name h => hnames name (List.mem_cons_of_mem _ h)) hrest
    have hvar := hname (hnames name List.mem_cons_self)
    exact List.forall_mem_cons.mpr ⟨hop, List.forall_mem_cons.mpr ⟨hvar, hright⟩⟩

theorem ofPrefixForm?_prefixForm {e : Expr}
    (hnames : ∀ name ∈ e.names, Token.IsWord name.toList) :
    ofPrefixForm? e.prefixForm = some e := by
  have hne : e.words [] ≠ [] := by cases e <;> exact List.cons_ne_nil _ _
  have hparts : Text.parts ' ' e.prefixForm = e.words [] :=
    Text.parts_intercalate hne (space_notMem_words hnames (List.forall_mem_nil _))
  rw [ofPrefixForm?, hparts, ofWords?_words hnames]
  rfl

end Expr

/-! ## Trees of texts -/

theorem Cursor.wellNamed_after (text : String) (calls : Nat) : (after text calls).WellNamed :=
  Function.Iterate.rec WellNamed (wellNamed_ofString text 1) (fun _ hc => hc.next rfl) calls

/-- The trees of a text have legal names. -/
theorem Cursor.isWord_of_after {text : String} {calls : Nat} {e : Expr}
    (h : (after text calls).next.1 = .ok (.expr e)) :
    ∀ name ∈ e.names, Token.IsWord name.toList := by
  intro name hname
  have hnext : (after text calls).next = (.ok (.expr e), (after text calls).next.2) := by rw [← h]
  exact ((wellNamed_after text calls).tree hnext name hname).isWord

/-- **The prefix form identifies the tree.** Every tree with legal names is recovered from its
prefix form, whatever its shape and its numbers. So two trees that are read from any texts, after
any number of statements, have the same prefix form only if they are the same tree. -/
theorem prefixForm_identifies_tree :
    (∀ e : Expr, (∀ name ∈ e.names, Token.IsWord name.toList) →
      Expr.ofPrefixForm? e.prefixForm = some e) ∧
    ∀ (text text' : String) (calls calls' : Nat) (e e' : Expr),
      (Cursor.after text calls).next.1 = .ok (.expr e) →
      (Cursor.after text' calls').next.1 = .ok (.expr e') →
      e ≠ e' → e.prefixForm ≠ e'.prefixForm := by
  refine ⟨fun e => Expr.ofPrefixForm?_prefixForm, ?_⟩
  intro text text' calls calls' e e' h h' hne heq
  have he := Expr.ofPrefixForm?_prefixForm (Cursor.isWord_of_after h)
  rw [heq, Expr.ofPrefixForm?_prefixForm (Cursor.isWord_of_after h')] at he
  exact hne (Option.some.inj he).symm

/-- A difference of a negative number and an assignment is decoded, and the two ways of grouping a
difference are told apart. -/
theorem prefixForm_identifies_tree_differences :
    let e : Expr := .assign .sub "x" (.binary .sub (.num (-5)) (.assign .add "y_1" (.var "z")))
    let left : Expr := .binary .sub (.binary .sub (.var "a") (.var "b")) (.var "c")
    let right : Expr := .binary .sub (.var "a") (.binary .sub (.var "b") (.var "c"))
    e.prefixForm = "-= x - -5 += y_1 z" ∧ Expr.ofPrefixForm? e.prefixForm = some e ∧
      (Cursor.after "a - b - c\n" 0).next.1 = .ok (.expr left) ∧
      (Cursor.after "1\na - (b - c)\n" 1).next.1 = .ok (.expr right) ∧
      left.prefixForm ≠ right.prefixForm := by
  intro e left right
  have hnames : ∀ name ∈ e.names, Token.IsWord name.toList := by
    simp [e, Expr.names, Token.IsWord]
  have hleft : (Cursor.after "a - b - c\n" 0).next.1 = .ok (.expr left) := by cbv
  have hright : (Cursor.after "1\na - (b - c)\n" 1).next.1 = .ok (.expr right) := by cbv
  exact ⟨by cbv, prefixForm_identifies_tree.1 e hnames, hleft, hright,
    prefixForm_identifies_tree.2 _ _ _ _ _ _ hleft hright (by decide)⟩

end LineCompiler
