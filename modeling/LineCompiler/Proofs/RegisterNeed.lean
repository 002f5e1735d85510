import LineCompiler.Proofs.ProgramText
import LineCompiler.Proofs.RegisterStack

/-!
# How many registers an expression needs

The left operand of an operator is computed in the registers from the first free one on, and the
right operand in those behind it. So an expression needs one register more than its right operands
do, but a long chain of operators needs no more than a short one.

* `Expr.registerNeed` is this number by recursion on the tree.
* `Action.touched` are the registers of a list of actions, and `Action.touched_actions` says that
  those of an expression are as many as it needs, without a gap.
* `Action.registers_effects` finds the same registers in the instructions.
* `Text.MentionsRegister` is about the text, character by character;
  `Instruction.mentionsRegister_lines` reads it off the instructions.
* `statement_mentions_needed_registers` puts this together for the text of a statement.
-/

namespace LineCompiler

/-! ## Registers in a text -/

/-- Somewhere in the text stands the name of the register, and no digit behind it that would make it
the name of another one. -/
def Text.MentionsRegister (text : String) (index : Nat) : Prop :=
  ∃ before after, text.toList = before ++ (Operand.reg index).text.toList ++ after ∧
    ∀ c ∈ after.head?, ¬ c.isDigit

namespace Text.MentionsRegister

variable {first second : String} {index : Nat}

theorem prepend (h : MentionsRegister second index) (first : String) :
    MentionsRegister (first ++ second) index := by
  obtain ⟨before, after, htext, hafter⟩ := h
  refine ⟨first.toList ++ before, after, ?_, hafter⟩
  rw [String.toList_append, htext]
  simp only [List.append_assoc]

/-- A text without the letter of the registers mentions none, and neither does a name begin in
it. -/
theorem append_of_notMem (h : 'r' ∉ first.toList) :
    MentionsRegister (first ++ second) index ↔ MentionsRegister second index := by
  refine ⟨?_, fun hsecond => hsecond.prepend first⟩
  rintro ⟨before, after, htext, hafter⟩
  rw [String.toList_append, List.append_assoc] at htext
  rcases List.append_eq_append_iff.mp htext with ⟨rest, rfl, hsecond⟩ | ⟨rest, hfirst, hname⟩
  · exact ⟨rest, after, by rw [hsecond, List.append_assoc], hafter⟩
  · cases rest with
    | nil => exact ⟨[], after, hname.symm, hafter⟩
    | cons c rest =>
      rw [Operand.toList_reg] at hname
      obtain ⟨rfl, -⟩ := List.cons_eq_cons.mp hname
      exact absurd (by rw [hfirst]; simp) h

/-- No name of a register reaches into a text that does not begin with a digit. -/
theorem append (h : ∀ c ∈ second.toList.head?, ¬ c.isDigit) :
    MentionsRegister (first ++ second) index ↔
      MentionsRegister first index ∨ MentionsRegister second index := by
  constructor
  · rintro ⟨before, after, htext, hafter⟩
    rw [String.toList_append, List.append_assoc] at htext
    rcases List.append_eq_append_iff.mp htext with ⟨rest, rfl, hsecond⟩ | ⟨rest, hfirst, hname⟩
    · exact .inr ⟨rest, after, by rw [hsecond, List.append_assoc], hafter⟩
    · rcases List.append_eq_append_iff.mp hname with ⟨more, hrest, hafter'⟩ | ⟨more, hreg, hsecond⟩
      · -- the name ends within the first text
        refine .inl ⟨before, more, by rw [hfirst, hrest, List.append_assoc], ?_⟩
        cases more with
        | nil => simp
        | cons c more => simpa [hafter'] using hafter
      · cases rest with
        | nil => exact .inr ⟨[], after, hname.symm, hafter⟩
        | cons r digits =>
          cases more with
          | nil =>
            rw [List.append_nil] at hreg
            exact .inl ⟨before, [], by rw [hfirst, hreg, List.append_nil], by simp⟩
          | cons c more =>
            -- the second text begins with one of the digits
            rw [Operand.toList_reg] at hreg
            have hdigit : c ∈ (toString index).toList := by
              rw [(List.cons_eq_cons.mp hreg).2]
              simp
            exact absurd (isDigit_of_mem_nat hdigit) (h c (by rw [hsecond]; rfl))
  · rintro (⟨before, after, htext, hafter⟩ | hsecond)
    · refine ⟨before, after ++ second.toList, ?_, ?_⟩
      · rw [String.toList_append, htext, List.append_assoc]
      · cases after with
        | nil => exact h
        | cons c after => exact hafter
    · exact hsecond.prepend first

theorem mem (h : MentionsRegister first index) : 'r' ∈ first.toList := by
  obtain ⟨before, after, htext, -⟩ := h
  rw [htext, Operand.toList_reg]
  simp

/-- The words of a text are told apart by what is between them. -/
theorem intercalate (separator : Char) (hseparator : separator ≠ 'r' ∧ ¬ separator.isDigit)
    (words : List String) :
    MentionsRegister ((String.singleton separator).intercalate words) index ↔
      ∃ word ∈ words, MentionsRegister word index := by
  induction words with
  | nil =>
    refine ⟨fun h => ?_, by simp⟩
    exact absurd h.mem (by simp)
  | cons word rest ih =>
    cases rest with
    | nil => simp
    | cons next rest =>
      have hmem : 'r' ∉ (String.singleton separator).toList := by simpa using hseparator.1.symm
      rw [String.intercalate_cons_cons, String.append_assoc, append (by simp [hseparator.2]),
        append_of_notMem hmem, ih]
      simp

/-- The name of a register mentions no other register. -/
theorem reg_inj {other : Nat} (h : MentionsRegister (Operand.reg other).text index) :
    other = index := by
  obtain ⟨before, after, htext, hafter⟩ := h
  rw [Operand.toList_reg, Operand.toList_reg] at htext
  cases before with
  | nil =>
    have hdigits : (toString other).toList = (toString index).toList ++ after :=
      (List.cons_eq_cons.mp htext).2
    cases after with
    | nil =>
      rw [List.append_nil] at hdigits
      exact Nat.repr_injective (String.toList_injective hdigits)
    | cons c after => exact absurd (isDigit_of_mem_nat (by rw [hdigits]; simp)) (hafter c rfl)
  | cons b before =>
    have hdigits := (List.cons_eq_cons.mp htext).2
    have hr : 'r' ∈ (toString other).toList := by
      rw [hdigits]
      simp
    exact absurd (isDigit_of_mem_nat hr) (by decide)

/-- An operand mentions the register that it is. -/
theorem operand_iff (operand : Operand) :
    MentionsRegister operand.text index ↔ operand = .reg index := by
  constructor
  · intro h
    cases operand with
    | reg other => rw [h.reg_inj]
    | mem address =>
      have hr := h.mem
      rw [Operand.toList_mem, String.toList_append] at hr
      have hdigit : 'r' ∈ (toString address).toList := by simpa using hr
      exact absurd (isDigit_of_mem_nat hdigit) (by decide)
    | imm value => exact absurd h.mem (Operand.notMem_imm value (.inl rfl))
  · rintro rfl
    exact ⟨[], [], by simp, by simp⟩

end Text.MentionsRegister

namespace Instruction

open Text (MentionsRegister)

/-- The operands of an instruction, in the order in which they are written. -/
def operands : Instruction → List Operand
  | preload reg address => [.reg reg, .mem address]
  | mov dst src => [dst, src]
  | combine _ dst src => [.reg dst, .reg src]
  | exit code => [.imm code]

theorem mentionsRegister_text (i : Instruction) (index : Nat) :
    MentionsRegister i.text index ↔ .reg index ∈ i.operands := by
  have hword {word : String} (h : 'r' ∉ word.toList) : ¬ MentionsRegister word index :=
    fun hmentions => h hmentions.mem
  have hcomma (operand : Operand) :
      MentionsRegister (operand.text ++ ",") index ↔ operand = .reg index := by
    rw [MentionsRegister.append (by simp), MentionsRegister.operand_iff]
    simp [hword]
  rw [text_eq]
  refine (MentionsRegister.intercalate ' ' (by decide) i.words).trans ?_
  cases i with
  | preload reg address =>
    simp [words, operands, hcomma, hword, MentionsRegister.operand_iff, eq_comm]
  | mov dst src => simp [words, operands, hword, MentionsRegister.operand_iff, eq_comm]
  | combine op dst src =>
    have hop : ¬ MentionsRegister op.mnemonic index := hword (by cases op <;> decide)
    simp [words, operands, hop, MentionsRegister.operand_iff, eq_comm]
  | exit code =>
    have hcode : MentionsRegister (toString code) index ↔ Operand.imm code = .reg index :=
      MentionsRegister.operand_iff (.imm code)
    simp [words, operands, hword, hcode]

/-- The registers among the operands of a program. -/
def registers (program : List Instruction) : Set Nat :=
  {index | ∃ i ∈ program, .reg index ∈ i.operands}

@[simp] theorem registers_nil : registers [] = ∅ := by simp [registers]

@[simp] theorem registers_append (p q : List Instruction) :
    registers (p ++ q) = registers p ∪ registers q := by
  ext index
  simp [registers, or_and_right, exists_or]

theorem registers_singleton (i : Instruction) :
    registers [i] = {index | .reg index ∈ i.operands} := by
  simp [registers]

/-- The text of a program mentions its registers and no others. -/
theorem mentionsRegister_lines (program : List Instruction) (index : Nat) :
    MentionsRegister (lines program) index ↔ index ∈ registers program := by
  have hempty : ¬ MentionsRegister "" index := fun h => absurd h.mem (by simp)
  rw [lines_eq]
  refine (MentionsRegister.intercalate '\n' (by decide) _).trans ?_
  simp [mentionsRegister_text, hempty, registers]

end Instruction

/-! ## Registers of actions -/

/-- The registers that are needed to compute an expression. -/
def Expr.registerNeed : Expr → Nat
  | num _ | var _ => 1
  | binary _ left right => max left.registerNeed (1 + right.registerNeed)
  | assign .set _ right => right.registerNeed
  | assign .add _ right | assign .sub _ right => 1 + right.registerNeed

theorem Expr.registerNeed_pos (e : Expr) : 0 < e.registerNeed := by
  induction e with
  | num | var => exact Nat.one_pos
  | binary op left right ihl ihr =>
    rw [registerNeed]
    omega
  | assign op name right ih => cases op <;> simp only [registerNeed] <;> omega

namespace Action

/-- The registers that actions have in hand, each from its lowest operand on, if `depth` registers
are in use at first. -/
def touched : Nat → List Action → Set Nat
  | _, [] => ∅
  | depth, a :: rest =>
    Set.Ico (depth - a.arity) (depth - a.arity + max a.arity a.yield) ∪
      touched (depth - a.arity + a.yield) rest

theorem touched_cons (a : Action) (below : Nat) (rest : List Action) :
    touched (below + a.arity) (a :: rest) =
      Set.Ico below (below + max a.arity a.yield) ∪ touched (below + a.yield) rest := by
  rw [touched, Nat.add_sub_cancel]

/-- The ends of a divisor touch no register. -/
theorem touched_of_idle {a : Action} (harity : a.arity = 0) (hyield : a.yield = 0) (depth : Nat)
    (rest : List Action) : touched depth (a :: rest) = touched depth rest := by
  simp [touched, harity, hyield]

/-- An operator joins its operands at the bottom of what the right one needs. -/
theorem touched_right (right : Expr) (op : BinOp) (depth : Nat) (rest : List Action) :
    Set.Ico (depth + 1) (depth + 1 + right.registerNeed) ∪
        touched (depth + 2) (combine op :: rest) =
      Set.Ico depth (depth + (1 + right.registerNeed)) ∪ touched (depth + 1) rest := by
  have hcombine : touched (depth + 2) (combine op :: rest) =
      Set.Ico depth (depth + 2) ∪ touched (depth + 1) rest := touched_cons (combine op) depth rest
  have hright := right.registerNeed_pos
  rw [hcombine, ← Set.union_assoc]
  congr 1
  ext index
  simp only [Set.mem_union, Set.mem_Ico]
  omega

/-- An expression touches as many registers as it needs, from the first free one on. -/
theorem touched_actions (tree : Expr) (depth : Nat) (rest : List Action) :
    touched depth (tree.actions rest) =
      Set.Ico depth (depth + tree.registerNeed) ∪ touched (depth + 1) rest := by
  have hmerge (depth n m : Nat) (more : Set Nat) :
      Set.Ico depth (depth + n) ∪ (Set.Ico depth (depth + m) ∪ more) =
        Set.Ico depth (depth + max n m) ∪ more := by
    rw [← Set.union_assoc]
    congr 1
    ext index
    simp only [Set.mem_union, Set.mem_Ico]
    omega
  induction tree generalizing depth rest with
  | num value => rfl
  | var name => rfl
  | binary op left right ihl ihr =>
    rw [Expr.actions, Expr.registerNeed]
    split
    · rw [ihl, touched_of_idle (a := enterDivisor) rfl rfl, ihr,
        touched_of_idle (a := leaveDivisor) rfl rfl, touched_right, hmerge]
    · rw [ihl, ihr, touched_right, hmerge]
  | assign op name right ih =>
    have hright := right.registerNeed_pos
    have hstore : touched (depth + 1) (store name :: rest) =
        Set.Ico depth (depth + 1) ∪ touched (depth + 1) rest := touched_cons (store name) depth rest
    -- a compound assignment loads its variable below the right-hand side
    have hcompound (op : BinOp) : touched depth
        (load name :: right.actions (combine op :: store name :: rest)) =
          Set.Ico depth (depth + (1 + right.registerNeed)) ∪ touched (depth + 1) rest := by
      have hload : touched depth (load name :: right.actions (combine op :: store name :: rest)) =
          Set.Ico depth (depth + 1) ∪
            touched (depth + 1) (right.actions (combine op :: store name :: rest)) :=
        touched_cons (load name) depth _
      rw [hload, ih, touched_right, hstore, hmerge, hmerge]
      congr 3
      omega
    cases op with
    | set =>
      have hset : touched depth ((Expr.assign .set name right).actions rest) =
          Set.Ico depth (depth + right.registerNeed) ∪ touched (depth + 1) (store name :: rest) :=
        ih depth _
      rw [hset, hstore, hmerge, Expr.registerNeed, Nat.max_eq_left hright]
    | add => exact hcompound .add
    | sub => exact hcompound .sub

variable {e : Emitter} {depth below final : Nat}

/-- An action that succeeds has in its instruction the registers that it touches. -/
theorem registers_effect (a : Action) (h : e.registers.length = below + a.arity)
    (hok : (a.effect e).result = .ok ()) :
    Instruction.registers (Event.program (a.effect e).events) =
      Set.Ico below (below + max a.arity a.yield) := by
  have hone (n : Nat) : {index | index = n} = Set.Ico n (n + 1) := by
    ext index
    simp only [Set.mem_ofPred_eq, Set.mem_Ico]
    omega
  cases a with
  | literal value =>
    simp [effect, Instruction.registers_singleton, Instruction.operands, h, arity, yield, hone]
  | load name =>
    rw [effect] at hok ⊢
    cases hread : e.table.read name with
    | error fault =>
      rw [hread] at hok
      cases hok
    | ok answer =>
      dsimp only
      rw [Event.program_declarations_emit]
      simp [Instruction.registers_singleton, Instruction.operands, h, arity, yield, hone]
  | enterDivisor => simp [effect, arity, yield]
  | leaveDivisor => simp [effect, arity, yield]
  | combine op =>
    have hoperands : Instruction.registers (Event.program ((combine op).effect e).events) =
        {index | index = below ∨ index = below + 1} := by
      simp [effect, Instruction.registers_singleton, Instruction.operands, h, arity]
    rw [hoperands]
    ext index
    simp only [Set.mem_ofPred_eq, Set.mem_Ico, arity, yield]
    omega
  | store name =>
    rw [effect] at hok ⊢
    cases hwrite : e.table.write name (e.registers.headD 0) with
    | error fault =>
      rw [hwrite] at hok
      cases hok
    | ok answer =>
      dsimp only
      rw [Event.program_declarations_emit]
      simp [Instruction.registers_singleton, Instruction.operands, h, arity, yield, hone]

/-- Actions that find their operands and succeed have in their instructions the registers that they
touch. -/
theorem registers_effects {actions : List Action} (hbalanced : Balanced depth actions final)
    (h : e.registers.length = depth) (hok : (effects actions e).result = .ok ()) :
    Instruction.registers (Event.program (effects actions e).events) = touched depth actions := by
  induction hbalanced generalizing e with
  | nil depth => exact Instruction.registers_nil
  | @cons a rest below final _ ih =>
    rw [effects] at hok ⊢
    cases hresult : (a.effect e).result with
    | error fault =>
      rw [Effect.andThen_of_error hresult] at hok
      cases hok
    | ok _ =>
      have hmiddle := (stacks_effect a h).reaches () hresult
      rw [Effect.andThen_of_ok hresult] at hok ⊢
      rw [Event.program_append, Instruction.registers_append, registers_effect a h hresult,
        ih hmiddle hok, touched_cons]

end Action

/-! ## Statements -/

theorem Emit.registers_statement {tree : Expr} {e : Emitter} {value : Int32}
    (hok : (statementEffect tree e).result = .ok value) :
    Instruction.registers (Event.program (statementEffect tree e).events) =
      Set.Iio tree.registerNeed := by
  have hbalanced := tree.balanced_actions (.nil 1)
  rw [statementEffect] at hok ⊢
  cases hresult : (Action.effects (tree.actions [])
      { e with registers := [], divisor := .outside }).result with
  | error fault =>
    rw [Effect.andThen_of_error hresult] at hok
    cases hok
  | ok _ =>
    rw [Effect.andThen_of_ok hresult, List.append_nil,
      Action.registers_effects hbalanced rfl hresult, Action.touched_actions]
    ext index
    simp [Action.touched]

theorem Emitter.mentionsRegister_statement {tree : Expr} {e : Emitter} {value : Int32}
    (hok : (e.run (Emit.statement tree)).1.result = .ok value) (index : Nat) :
    Text.MentionsRegister (e.run (Emit.statement tree)).1.text index ↔
      index < tree.registerNeed := by
  rcases Emitter.run_taken_or_refused (Emit.performs_statement tree e) with
    ⟨hresult, htext, -⟩ | ⟨hrefused, -⟩
  · rw [htext, Instruction.mentionsRegister_lines,
      Emit.registers_statement (hresult.symm.trans hok), Set.mem_Iio]
  · cases hrefused.symm.trans hok

/-! ## Chains -/

namespace Expr

/-- A number or a variable. -/
def IsLeaf : Expr → Prop
  | num _ | var _ => True
  | binary .. | assign .. => False

/-- A chain of operators, each of which takes all that is to the left of it as its left operand. -/
def chain (first : Expr) (links : List (BinOp × Expr)) : Expr :=
  links.foldl (fun left link => binary link.1 left link.2) first

theorem IsLeaf.registerNeed_eq {e : Expr} (h : e.IsLeaf) : e.registerNeed = 1 := by
  cases e with
  | num | var => rfl
  | binary | assign => exact h.elim

theorem registerNeed_chain (first : Expr) {links : List (BinOp × Expr)}
    (hlinks : ∀ link ∈ links, link.2.IsLeaf) :
    (first.chain links).registerNeed =
      if links = [] then first.registerNeed else max first.registerNeed 2 := by
  induction links generalizing first with
  | nil => rfl
  | cons link links ih =>
    have hlink := (hlinks link List.mem_cons_self).registerNeed_eq
    have hrest := ih (binary link.1 first link.2) fun link h =>
      hlinks link (List.mem_cons_of_mem _ h)
    rw [registerNeed, hlink] at hrest
    refine hrest.trans ?_
    rw [if_neg (List.cons_ne_nil link links)]
    split
    · rfl
    · omega

end Expr

/-- **A statement uses the registers that it needs.** If a statement succeeds, whatever the table
and the sink, its text mentions the registers from 0 up to the need of its tree, all of them and no
others. The need of a chain of operators does not grow with its length: over numbers and variables,
it uses register 0, and register 1 if there is an operator. -/
theorem statement_mentions_needed_registers :
    (∀ (tree : Expr) (e : Emitter) (value : Int32),
      (e.run (Emit.statement tree)).1.result = .ok value →
      ∀ index, Text.MentionsRegister (e.run (Emit.statement tree)).1.text index ↔
        index < tree.registerNeed) ∧
    ∀ (first : Expr) (links : List (BinOp × Expr)) (e : Emitter) (value : Int32),
      first.IsLeaf → (∀ link ∈ links, link.2.IsLeaf) →
      (e.run (Emit.statement (first.chain links))).1.result = .ok value →
      ∀ index, Text.MentionsRegister (e.run (Emit.statement (first.chain links))).1.text index ↔
        index = 0 ∨ index = 1 ∧ links ≠ [] := by
  refine ⟨fun _ _ _ => Emitter.mentionsRegister_statement, ?_⟩
  intro first links e value hfirst hlinks hok index
  rw [Emitter.mentionsRegister_statement hok, Expr.registerNeed_chain first hlinks,
    hfirst.registerNeed_eq]
  split
  · rename_i hnil
    simp [hnil]
  · rename_i hne
    simp only [hne, ne_eq, not_false_eq_true, and_true]
    omega

/-- The statement `x = (a += 5) / (b - 1)` needs three registers, and the chain `a - 1 - b - 2`
two. -/
theorem statement_mentions_needed_registers_nested :
    let e : Emitter := { table := { vars := [⟨"a", 6⟩, ⟨"b", 3⟩] } }
    let tree : Expr := .assign .set "x" (.binary .div (.assign .add "a" (.num 5))
      (.binary .sub (.var "b") (.num 1)))
    let links : List (BinOp × Expr) := [(.sub, .num 1), (.sub, .var "b"), (.sub, .num 2)]
    (e.run (Emit.statement tree)).1.result = .ok 5 ∧
      (∀ index, Text.MentionsRegister (e.run (Emit.statement tree)).1.text index ↔ index < 3) ∧
      (e.run (Emit.statement (Expr.chain (.var "a") links))).1.result = .ok 0 ∧
      ∀ index, Text.MentionsRegister (e.run (Emit.statement (Expr.chain (.var "a") links))).1.text
        index ↔ index = 0 ∨ index = 1 ∧ links ≠ [] := by
  intro e tree links
  have htree : (e.run (Emit.statement tree)).1.result = .ok 5 := by cbv
  have hchain : (e.run (Emit.statement (Expr.chain (.var "a") links))).1.result = .ok 0 := by cbv
  have hleaves : ∀ link ∈ links, link.2.IsLeaf := by simp [links, Expr.IsLeaf]
  exact ⟨htree, statement_mentions_needed_registers.1 tree e 5 htree, hchain,
    statement_mentions_needed_registers.2 (.var "a") links e 0 trivial hleaves hchain⟩

end LineCompiler
