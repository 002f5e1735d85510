import LineCompiler.Proofs.Output
import LineCompiler.Proofs.Words

/-!
# Program text identifies the program

The text of a program is decoded in three steps: lines, the words of a line, the operands among the
words. No character that separates the parts of one kind occurs inside them, so each step undoes
what the writing has done.

* `Operand.ofText?`, `Instruction.ofWords?` and `Instruction.ofLines?` are the decoders, and
  `Operand.ofText?_text`, `Instruction.ofWords?_words` and `Instruction.ofLines?_lines` say that
  they recover what was written.
* `Operand.notMem_text`: operands are free of the characters that separate.
* `program_text_identifies_program` puts this together, and says how the two kinds of moves differ.
-/

namespace LineCompiler

/-! ## Operands -/

namespace Operand

/-- The number of the register that a word stands for. -/
def register? (word : String) : Option Nat :=
  match word.toList with
  | 'r' :: digits => (String.ofList digits).toNat?
  | _ => none

/-- The address of the memory cell that a word stands for. -/
def cell? (word : String) : Option Nat :=
  match word.toList with
  | '[' :: rest => (Text.strip? ']' (String.ofList rest)).bind String.toNat?
  | _ => none

def ofText? (word : String) : Option Operand :=
  (register? word).map reg <|> (cell? word).map mem <|> (Text.number? word).map imm

/-- An operand is made of digits, the marks of its kind and perhaps a sign. -/
theorem char_of_mem_text {operand : Operand} {c : Char} (hc : c ∈ operand.text.toList) :
    c.isDigit ∨ c ∈ ['r', '[', ']', '-'] := by
  cases operand with
  | reg index =>
    rw [text, String.toList_append, List.mem_append] at hc
    rcases hc with hc | hc
    · exact .inr (by simp_all)
    · exact .inl (Text.isDigit_of_mem_nat hc)
  | mem address =>
    rw [text, String.toList_append, String.toList_append, List.mem_append, List.mem_append] at hc
    rcases hc with (hc | hc) | hc
    · exact .inr (by simp_all)
    · exact .inl (Text.isDigit_of_mem_nat hc)
    · exact .inr (by simp_all)
  | imm value =>
    rcases Text.isDigit_or_minus_of_mem_int32 hc with hc | rfl
    · exact .inl hc
    · exact .inr (by simp)

/-- An operand is free of the characters that separate. -/
theorem notMem_text (operand : Operand) {c : Char} (hc : c ∈ " ,\n".toList) :
    c ∉ operand.text.toList := by
  intro hmem
  have hchar := char_of_mem_text hmem
  simp only [String.reduceToList, List.mem_cons, List.not_mem_nil, or_false] at hc
  rcases hc with rfl | rfl | rfl <;> revert hchar <;> decide

theorem toList_reg (index : Nat) : (reg index).text.toList = 'r' :: (toString index).toList := by
  rw [text, String.toList_append]
  rfl

theorem toList_mem (address : Nat) :
    (mem address).text.toList = '[' :: (toString address ++ "]").toList := by
  rw [text, String.append_assoc, String.toList_append]
  rfl

theorem register?_reg (index : Nat) : register? (reg index).text = some index := by
  simp only [register?, toList_reg, String.ofList_toList]
  exact Nat.toNat?_repr index

theorem cell?_mem (address : Nat) : cell? (mem address).text = some address := by
  have hbracket : Text.strip? ']' (toString address ++ "]") = some (toString address) :=
    Text.strip?_append _ _
  simp only [cell?, toList_mem, String.ofList_toList, hbracket, Option.bind_some]
  exact Nat.toNat?_repr address

/-- A number has none of the marks of registers and cells. -/
theorem notMem_imm (value : Int32) {c : Char} (hc : c = 'r' ∨ c = '[') :
    c ∉ (imm value).text.toList := by
  intro hmem
  have hchar := Text.isDigit_or_minus_of_mem_int32 hmem
  rcases hc with rfl | rfl <;> revert hchar <;> decide

theorem register?_imm (value : Int32) : register? (imm value).text = none := by
  unfold register?
  split
  · rename_i hlist
    exact absurd (hlist ▸ List.mem_cons_self) (notMem_imm value (.inl rfl))
  · rfl

theorem cell?_imm (value : Int32) : cell? (imm value).text = none := by
  unfold cell?
  split
  · rename_i hlist
    exact absurd (hlist ▸ List.mem_cons_self) (notMem_imm value (.inr rfl))
  · rfl

theorem ofText?_text (operand : Operand) : ofText? operand.text = some operand := by
  cases operand with
  | reg index => simp [ofText?, register?_reg]
  | mem address =>
    have hregister : register? (mem address).text = none := by simp [register?, toList_mem]
    simp [ofText?, hregister, cell?_mem]
  | imm value =>
    have hnumber : Text.number? (imm value).text = some value := Text.number?_toString value
    simp [ofText?, register?_imm, cell?_imm, hnumber]

end Operand

/-! ## Instructions -/

/-- The operator with this instruction. -/
def BinOp.ofMnemonic? (word : String) : Option BinOp :=
  [add, sub, mul, div, and, or, xor].find? (·.mnemonic == word)

theorem BinOp.ofMnemonic?_mnemonic (op : BinOp) : ofMnemonic? op.mnemonic = some op := by
  cases op <;> decide

namespace Instruction

/-- The words of an instruction. -/
def words : Instruction → List String
  | preload reg address => ["MOV", (Operand.reg reg).text ++ ",", (Operand.mem address).text]
  | mov dst src => ["MOV", dst.text, src.text]
  | combine op dst src => [op.mnemonic, (Operand.reg dst).text, (Operand.reg src).text]
  | exit code => ["EXIT", toString code]

theorem text_eq (i : Instruction) : i.text = " ".intercalate i.words := by
  cases i <;> simp [text, words, String.intercalate_cons_cons, String.append_assoc]

/-- The instruction with these words. A move is a preload if a comma follows its target. -/
def ofWords? : List String → Option Instruction
  | ["EXIT", code] => (Text.number? code).map exit
  | ["MOV", dst, src] =>
    match Text.strip? ',' dst with
    | some dst => do return preload (← Operand.register? dst) (← Operand.cell? src)
    | none => do return mov (← Operand.ofText? dst) (← Operand.ofText? src)
  | [mnemonic, dst, src] => do
    return combine (← BinOp.ofMnemonic? mnemonic) (← Operand.register? dst)
      (← Operand.register? src)
  | _ => none

theorem ofWords?_words (i : Instruction) : ofWords? i.words = some i := by
  cases i with
  | preload reg address =>
    have hcomma : Text.strip? ',' ((Operand.reg reg).text ++ ",") = some (Operand.reg reg).text :=
      Text.strip?_append _ _
    simp [words, ofWords?, hcomma, Operand.register?_reg, Operand.cell?_mem]
  | mov dst src =>
    have hcomma : Text.strip? ',' dst.text = none :=
      Text.strip?_of_notMem (dst.notMem_text (by decide))
    simp [words, ofWords?, hcomma, Operand.ofText?_text]
  | combine op dst src =>
    have hop := op.ofMnemonic?_mnemonic
    cases op <;> simp_all [words, ofWords?, BinOp.mnemonic, Operand.register?_reg]
  | exit code => simp [words, ofWords?, Text.number?_toString]

/-- The words of an instruction are free of the characters that separate, apart from the comma of a
preload. -/
theorem notMem_words {i : Instruction} {c : Char} (hc : c ∈ " ,\n".toList)
    (hcomma : c = ',' → ∀ reg address, i ≠ preload reg address) :
    ∀ word ∈ i.words, c ∉ word.toList := by
  have hfixed (word : String)
      (hword : ' ' ∉ word.toList ∧ ',' ∉ word.toList ∧ '\n' ∉ word.toList) : c ∉ word.toList := by
    simp only [String.reduceToList, List.mem_cons, List.not_mem_nil, or_false] at hc
    rcases hc with rfl | rfl | rfl
    · exact hword.1
    · exact hword.2.1
    · exact hword.2.2
  have hoperand (operand : Operand) : c ∉ operand.text.toList := operand.notMem_text hc
  cases i with
  | preload reg address =>
    have hne : c ≠ ',' := fun h => hcomma h reg address rfl
    have hdst : c ∉ ((Operand.reg reg).text ++ ",").toList := by
      rw [String.toList_append, List.mem_append, not_or]
      exact ⟨hoperand _, by simpa using hne⟩
    simp only [words, List.forall_mem_cons]
    exact ⟨hfixed "MOV" (by decide), hdst, hoperand _, List.forall_mem_nil _⟩
  | mov dst src =>
    simp only [words, List.forall_mem_cons]
    exact ⟨hfixed "MOV" (by decide), hoperand dst, hoperand src, List.forall_mem_nil _⟩
  | combine op dst src =>
    have hop : c ∉ op.mnemonic.toList := hfixed _ (by cases op <;> decide)
    simp only [words, List.forall_mem_cons]
    exact ⟨hop, hoperand _, hoperand _, List.forall_mem_nil _⟩
  | exit code =>
    simp only [words, List.forall_mem_cons]
    exact ⟨hfixed "EXIT" (by decide), hoperand (.imm code), List.forall_mem_nil _⟩

/-- The instruction with this text. -/
def ofText? (line : String) : Option Instruction := ofWords? (Text.parts ' ' line)

theorem ofText?_text (i : Instruction) : ofText? i.text = some i := by
  have hne : i.words ≠ [] := by cases i <;> exact List.cons_ne_nil _ _
  have hparts : Text.parts ' ' (" ".intercalate i.words) = i.words :=
    Text.parts_intercalate hne (notMem_words (by decide) (by simp))
  rw [ofText?, text_eq, hparts, ofWords?_words]

/-! ## Programs -/

theorem newline_notMem_text (i : Instruction) : '\n' ∉ i.text.toList := by
  rw [text_eq]
  exact Text.notMem_intercalate (by decide) (notMem_words (by decide) (by simp))

/-- The program with this text, in which every instruction has to end its line. -/
def ofLines? (text : String) : Option (List Instruction) :=
  let lines := Text.parts '\n' text
  if lines.getLast? = some "" then lines.dropLast.mapM ofText? else none

theorem lines_eq (program : List Instruction) :
    lines program = "\n".intercalate (program.map text ++ [""]) := by
  induction program with
  | nil => simp [lines]
  | cons i program ih =>
    rw [lines, line, ih, List.map_cons, List.cons_append,
      String.intercalate_cons_of_ne_nil (by simp)]

theorem ofLines?_lines (program : List Instruction) : ofLines? (lines program) = some program := by
  have hlines : ∀ line ∈ program.map text ++ [""], '\n' ∉ line.toList := by
    intro line hline
    rcases List.mem_append.mp hline with hline | hline
    · obtain ⟨i, -, rfl⟩ := List.mem_map.mp hline
      exact i.newline_notMem_text
    · simp_all
  have hparts : Text.parts '\n' (lines program) = program.map text ++ [""] := by
    rw [lines_eq]
    exact Text.parts_intercalate (by simp) hlines
  have hdecoded : (program.map text).mapM ofText? = some program := by
    have heach : ofText? ∘ text = fun i => pure i := funext ofText?_text
    rw [List.mapM_map, heach, List.mapM_pure, List.map_id']
    rfl
  simp [ofLines?, hparts, hdecoded]

/-! ## The comma -/

theorem comma_mem_text_iff (i : Instruction) :
    ',' ∈ i.text.toList ↔ ∃ reg address, i = preload reg address := by
  constructor
  · intro hmem
    by_contra hother
    have hne (reg address : Nat) : i ≠ preload reg address := fun h => hother ⟨reg, address, h⟩
    rw [text_eq] at hmem
    exact Text.notMem_intercalate (by decide) (notMem_words (by decide) fun _ => hne) hmem
  · rintro ⟨reg, address, rfl⟩
    simp [text]

/-- Without its comma, a preload is written as a move. -/
theorem erase_comma_preload (reg address : Nat) :
    (preload reg address).text.toList.erase ',' = (mov (.reg reg) (.mem address)).text.toList := by
  have hfront : ',' ∉ "MOV ".toList ++ (Operand.reg reg).text.toList := by
    rw [List.mem_append, not_or]
    exact ⟨by decide, Operand.notMem_text _ (by decide)⟩
  simp only [text, String.toList_append, List.append_assoc]
  rw [← List.append_assoc, List.erase_append_right _ hfront]
  simp

end Instruction

/-- **Program text identifies the program.** Every program is recovered from its text, in which each
instruction stands on a line of its own; so no two programs have the same text. The comma is what
tells a preload from the move with the same operands: preloads are the instructions with a comma,
and without it both are written alike. -/
theorem program_text_identifies_program :
    (∀ program, Instruction.ofLines? (Instruction.lines program) = some program) ∧
    Function.Injective Instruction.lines ∧
    (∀ i : Instruction, ',' ∈ i.text.toList ↔ ∃ reg address, i = .preload reg address) ∧
    ∀ reg address, (Instruction.preload reg address).text.toList.erase ',' =
      (Instruction.mov (.reg reg) (.mem address)).text.toList := by
  refine ⟨Instruction.ofLines?_lines, ?_, Instruction.comma_mem_text_iff,
    Instruction.erase_comma_preload⟩
  intro p q h
  have hp := Instruction.ofLines?_lines p
  rw [h, Instruction.ofLines?_lines q] at hp
  exact (Option.some.inj hp).symm

end LineCompiler
