import LineCompiler.Proofs.Effects

/-!
# Registers form a stack

The program of a statement starts with no register in use. A load takes the next free register, an
operator joins the two highest in the lower of them, and a store copies the highest into memory.
This holds on every way out of a statement, whichever fault ends it.

* `Instruction.stackStep?` follows the number of registers in use through a program, as long as the
  program keeps to the stack.
* `Action.Balanced` is the static account of it: each action finds its operands, and an expression
  leaves one register more (`Expr.balanced_actions`).
* `Action.stacks_effect` is the step lemma, one case for each action, and `Action.stacks_effects`
  follows a list of actions.
* `statement_keeps_register_stack` is the result for the program of a statement.
-/

namespace LineCompiler

/-! ## Programs on a register stack -/

namespace Instruction

/-- The number of registers in use behind an instruction that finds `depth` of them in use, if it
keeps to the stack: a load of the next register, an operator on the two highest, or a store of the
highest. -/
def stackStep? : Nat → Instruction → Option Nat
  | depth, mov (.reg index) (.mem _) => if index = depth then some (depth + 1) else none
  | depth, mov (.reg index) (.imm _) => if index = depth then some (depth + 1) else none
  | depth + 2, combine _ dst src =>
    if dst = depth ∧ src = depth + 1 then some (depth + 1) else none
  | depth + 1, mov (.mem _) (.reg index) => if index = depth then some (depth + 1) else none
  | _, _ => none

/-- The registers that an instruction takes operands from. -/
def reads : Instruction → List Nat
  | mov _ (.reg index) => [index]
  | combine _ dst src => [dst, src]
  | _ => []

/-- The registers that an instruction gives a value to. -/
def writes : Instruction → List Nat
  | preload reg _ => [reg]
  | mov (.reg index) _ => [index]
  | combine _ dst _ => [dst]
  | _ => []

def isLoad : Instruction → Bool
  | mov (.reg _) _ => true
  | _ => false

def isCombine : Instruction → Bool
  | combine .. => true
  | _ => false

variable {depth depth' index : Nat} {i : Instruction} {p : List Instruction}

/-- The three instructions that keep to the stack. -/
theorem stackStep?_cases (h : stackStep? depth i = some depth') :
    (∃ source, i = mov (.reg depth) source ∧ (∀ r, source ≠ .reg r) ∧ depth' = depth + 1) ∨
    (∃ op below, depth = below + 2 ∧ i = combine op below (below + 1) ∧ depth' = below + 1) ∨
    ∃ address below, depth = below + 1 ∧ i = mov (.mem address) (.reg below) ∧ depth' = depth := by
  unfold stackStep? at h
  split at h
  · split at h
    · subst_vars
      cases h
      exact .inl ⟨_, rfl, nofun, rfl⟩
    · cases h
  · split at h
    · subst_vars
      cases h
      exact .inl ⟨_, rfl, nofun, rfl⟩
    · cases h
  · split at h
    · rename_i hregisters
      obtain ⟨rfl, rfl⟩ := hregisters
      cases h
      exact .inr (.inl ⟨_, _, rfl, rfl, rfl⟩)
    · cases h
  · split at h
    · subst_vars
      cases h
      exact .inr (.inr ⟨_, _, rfl, rfl, rfl⟩)
    · cases h
  · cases h

theorem lt_of_mem_reads (h : stackStep? depth i = some depth') (hindex : index ∈ i.reads) :
    index < depth := by
  rcases stackStep?_cases h with ⟨source, rfl, hsource, -⟩ | ⟨op, below, rfl, rfl, -⟩ |
    ⟨address, below, rfl, rfl, -⟩
  · cases source with
    | reg r => exact absurd rfl (hsource r)
    | mem | imm => simp [reads] at hindex
  · simp only [reads, List.mem_cons, List.not_mem_nil, or_false] at hindex
    omega
  · simp only [reads, List.mem_singleton] at hindex
    omega

theorem lt_or_mem_writes (h : stackStep? depth i = some depth') (hindex : index < depth') :
    index < depth ∨ index ∈ i.writes := by
  rcases stackStep?_cases h with ⟨source, rfl, -, rfl⟩ | ⟨op, below, rfl, rfl, rfl⟩ |
    ⟨address, below, rfl, rfl, rfl⟩
  · simp only [writes, List.mem_singleton]
    omega
  · exact .inl (by omega)
  · exact .inl hindex

theorem depth_add_isLoad (h : stackStep? depth i = some depth') :
    depth + (if i.isLoad then 1 else 0) = depth' + if i.isCombine then 1 else 0 := by
  rcases stackStep?_cases h with ⟨source, rfl, -, rfl⟩ | ⟨op, below, rfl, rfl, rfl⟩ |
    ⟨address, below, rfl, rfl, rfl⟩
  · rfl
  · rfl
  · rfl

/-- A program that keeps to the stack has written every register that is then in use. -/
theorem written_of_lt (h : p.foldlM stackStep? depth = some depth') (hindex : index < depth') :
    index < depth ∨ ∃ i ∈ p, index ∈ i.writes := by
  induction p generalizing depth with
  | nil =>
    cases h
    exact .inl hindex
  | cons i p ih =>
    rw [List.foldlM_cons] at h
    obtain ⟨middle, hstep, hrest⟩ := Option.bind_eq_some_iff.mp h
    rcases ih hrest with hlt | ⟨j, hj, hwrites⟩
    · rcases lt_or_mem_writes hstep hlt with hlt | hwrites
      · exact .inl hlt
      · exact .inr ⟨i, List.mem_cons_self, hwrites⟩
    · exact .inr ⟨j, List.mem_cons_of_mem i hj, hwrites⟩

/-- Such a program loads one register for each operator and for each register that it leaves in
use. -/
theorem depth_add_countP_isLoad (h : p.foldlM stackStep? depth = some depth') :
    depth + p.countP isLoad = depth' + p.countP isCombine := by
  induction p generalizing depth with
  | nil =>
    cases h
    rfl
  | cons i p ih =>
    rw [List.foldlM_cons] at h
    obtain ⟨middle, hstep, hrest⟩ := Option.bind_eq_some_iff.mp h
    have hi := depth_add_isLoad hstep
    have hp := ih hrest
    rw [List.countP_cons, List.countP_cons]
    omega

/-- Such a program reads no register that it has not written before. -/
theorem written_before_read (h : p.foldlM stackStep? 0 = some depth)
    {before after : List Instruction} (hp : p = before ++ i :: after) (hindex : index ∈ i.reads) :
    ∃ j ∈ before, index ∈ j.writes := by
  rw [hp, List.foldlM_append] at h
  obtain ⟨middle, hbefore, hafter⟩ := Option.bind_eq_some_iff.mp h
  rw [List.foldlM_cons] at hafter
  obtain ⟨next, hstep, -⟩ := Option.bind_eq_some_iff.mp hafter
  rcases written_of_lt hbefore (lt_of_mem_reads hstep hindex) with hlt | hwritten
  · exact absurd hlt (Nat.not_lt_zero index)
  · exact hwritten

end Instruction

/-! ## Actions that find their operands -/

namespace Action

/-- The number of registers that an action takes its operands from. -/
def arity : Action → Nat
  | literal _ | load _ | enterDivisor | leaveDivisor => 0
  | combine _ => 2
  | store _ => 1

/-- The number of registers that it leaves in place of those. -/
def yield : Action → Nat
  | enterDivisor | leaveDivisor => 0
  | literal _ | load _ | combine _ | store _ => 1

/-- With `depth` registers in use at the start, each action finds its operands, and `final`
registers are in use at the end. -/
inductive Balanced : Nat → List Action → Nat → Prop
  | nil (depth : Nat) : Balanced depth [] depth
  | cons (a : Action) {rest : List Action} {depth final : Nat}
      (h : Balanced (depth + a.yield) rest final) : Balanced (depth + a.arity) (a :: rest) final

theorem Balanced.split {actions rest : List Action} {depth final : Nat}
    (h : Balanced depth (actions ++ rest) final) :
    ∃ middle, Balanced depth actions middle ∧ Balanced middle rest final := by
  induction actions generalizing depth with
  | nil => exact ⟨depth, .nil depth, h⟩
  | cons a actions ih =>
    cases h with
    | cons _ h =>
      obtain ⟨middle, hactions, hrest⟩ := ih h
      exact ⟨middle, .cons a hactions, hrest⟩

end Action

/-- The actions of an expression take one register more, whatever comes behind. -/
theorem Expr.balanced_actions (tree : Expr) {rest : List Action} {depth final : Nat}
    (h : Action.Balanced (depth + 1) rest final) :
    Action.Balanced depth (tree.actions rest) final := by
  induction tree generalizing depth rest with
  | num value => exact .cons (.literal value) h
  | var name => exact .cons (.load name) h
  | binary op left right ihl ihr =>
    -- both operands are in registers when the operator comes
    have hcombine : Action.Balanced (depth + 2) (.combine op :: rest) final := .cons (.combine op) h
    rw [actions]
    split
    · apply ihl
      apply Action.Balanced.cons .enterDivisor
      apply ihr
      exact .cons .leaveDivisor hcombine
    · apply ihl
      apply ihr
      exact hcombine
  | assign op name right ih =>
    have hstore : Action.Balanced (depth + 1) (.store name :: rest) final := .cons (.store name) h
    rw [actions]
    split
    · exact ih hstore
    · rename_i joined _
      apply Action.Balanced.cons (.load name)
      apply ih
      exact .cons (.combine joined) hstore

/-! ## Effects that keep to the stack -/

/-- The instructions of an effect keep to a stack of `depth` registers and bring it to the registers
that the emitter then knows of. There are `final` of these unless there was a fault. -/
structure Stacks {α : Type} (effect : Effect Emitter α) (depth final : Nat) : Prop where
  keeps : (Event.program effect.events).foldlM Instruction.stackStep? depth =
    some effect.state.registers.length
  reaches : ∀ a, effect.result = .ok a → effect.state.registers.length = final

theorem Stacks.andThen {α β : Type} {effect : Effect Emitter α}
    {next : α → Emitter → Effect Emitter β} {depth middle final : Nat}
    (h : Stacks effect depth middle) (hnext : ∀ a, effect.state.registers.length = middle →
      Stacks (next a effect.state) middle final) :
    Stacks (effect.andThen next) depth final := by
  cases hresult : effect.result with
  | ok a =>
    have hmiddle := h.reaches a hresult
    have hrest := hnext a hmiddle
    rw [Effect.andThen_of_ok hresult]
    refine ⟨?_, hrest.reaches⟩
    rw [Event.program_append, List.foldlM_append, h.keeps, hmiddle]
    exact hrest.keeps
  | error fault =>
    rw [Effect.andThen_of_error hresult]
    exact ⟨h.keeps, nofun⟩

namespace Action

variable {e : Emitter} {depth final : Nat}

theorem length_foldTop {registers : List Int32} (op : BinOp) (h : registers.length = depth + 2) :
    (foldTop op registers).length = depth + 1 := by
  match registers with
  | right :: left :: rest =>
    simp only [foldTop, List.length_cons] at h ⊢
    omega

/-- Every action keeps to the stack, whether it succeeds or not. -/
theorem stacks_effect (a : Action) (h : e.registers.length = depth + a.arity) :
    Stacks (a.effect e) (depth + a.arity) (depth + a.yield) := by
  cases a with
  | literal value =>
    refine ⟨?_, fun _ _ => by simp [effect, yield, h, arity]⟩
    simp [effect, h, arity, Instruction.stackStep?]
  | load name =>
    rw [effect]
    split
    · refine ⟨?_, fun _ _ => by simp [yield, h, arity]⟩
      rw [Event.program_declarations_emit]
      simp [h, arity, Instruction.stackStep?]
    · refine ⟨by simp [h, arity], ?_⟩
      rintro _ ⟨⟩
  | enterDivisor => exact ⟨by simp [effect, h, arity], fun _ _ => h⟩
  | leaveDivisor => exact ⟨by simp [effect, h, arity], fun _ _ => h⟩
  | combine op =>
    have hfold := length_foldTop op h
    refine ⟨?_, fun _ _ => hfold⟩
    simp [effect, h, arity, hfold, Instruction.stackStep?]
  | store name =>
    rw [effect]
    split
    · refine ⟨?_, fun _ _ => h⟩
      rw [Event.program_declarations_emit]
      simp [h, arity, Instruction.stackStep?]
    · refine ⟨by simp [h, arity], ?_⟩
      rintro _ ⟨⟩

/-- Actions that find their operands keep to the stack up to the first fault. -/
theorem stacks_effects {actions : List Action} (hbalanced : Balanced depth actions final)
    (h : e.registers.length = depth) : Stacks (effects actions e) depth final := by
  induction hbalanced generalizing e with
  | nil depth => exact ⟨congrArg some h.symm, fun _ _ => h⟩
  | cons a _ ih => exact (stacks_effect a h).andThen (fun _ hmiddle => ih hmiddle)

/-- Whenever one of these actions is carried out, as many registers are in use as it has
operands. -/
theorem Balanced.arity_le {actions before after : List Action} {a : Action}
    (hbalanced : Balanced depth actions final) (hactions : actions = before ++ a :: after)
    (h : e.registers.length = depth) {s : Emitter} (hbefore : forM before perform e = .ok () s) :
    a.arity ≤ s.registers.length := by
  rw [hactions] at hbalanced
  obtain ⟨middle, hfirst, hrest⟩ := hbalanced.split
  obtain ⟨hresult, o, -, rfl⟩ := (performs_forM before e).of_ok (o := output e) hbefore
  have hmiddle : (effects before e).state.registers.length = middle :=
    (stacks_effects hfirst h).reaches () hresult
  cases hrest with
  | cons _ _ =>
    show a.arity ≤ (effects before e).state.registers.length
    omega

end Action

/-! ## Statements -/

theorem Emit.stacks_statement (tree : Expr) (e : Emitter) :
    Stacks (statementEffect tree e) 0 1 := by
  have hstart : ({ e with registers := [], divisor := .outside } : Emitter).registers.length = 0 :=
    rfl
  have hactions := Action.stacks_effects (tree.balanced_actions (.nil 1)) hstart
  exact hactions.andThen (fun _ hone => ⟨congrArg some hone.symm, fun _ _ => hone⟩)

/-- **Registers form a stack.** Whatever the table and the sink, the instructions that a statement
writes, up to its end or to the fault that stops it, keep to a stack of registers that is empty at
first. No register is read before the statement has written it, and no action is carried out with
fewer registers in use than it has operands. A statement that succeeds leaves one register in use:
it has one load more than operators. -/
theorem statement_keeps_register_stack (tree : Expr) (e : Emitter) :
    let trace := (e.run (Emit.statement tree)).1
    (∃ depth, trace.program.foldlM Instruction.stackStep? 0 = some depth ∧
      ∀ value, trace.result = .ok value → depth = 1 ∧
        trace.program.countP Instruction.isLoad = trace.program.countP Instruction.isCombine + 1) ∧
    (∀ before i after, trace.program = before ++ i :: after →
      ∀ index ∈ i.reads, ∃ j ∈ before, index ∈ j.writes) ∧
    (∀ before a after s, tree.actions [] = before ++ a :: after →
      forM before Action.perform { e with registers := [], divisor := .outside } = .ok () s →
        a.arity ≤ s.registers.length) ∧
    (e.sink.room = none → trace.text = Instruction.lines trace.program) := by
  intro trace
  have hperforms := Emit.performs_statement tree e
  have hstacks := Emit.stacks_statement tree e
  obtain ⟨⟨rest, hrest⟩, hok⟩ := Emitter.log_run hperforms
  obtain ⟨depth, hdepth⟩ : ∃ depth, trace.program.foldlM Instruction.stackStep? 0 = some depth := by
    -- what was written is a beginning of what keeps to the stack
    have hkeeps := hstacks.keeps
    rw [← hrest, Event.program_append, List.foldlM_append] at hkeeps
    obtain ⟨depth, hdepth, -⟩ := Option.bind_eq_some_iff.mp hkeeps
    exact ⟨depth, hdepth⟩
  refine ⟨⟨depth, hdepth, ?_⟩, ?_, ?_, ?_⟩
  · intro value hvalue
    obtain ⟨hresult, hlog⟩ := hok value hvalue
    have hone : depth = 1 := by
      have hkeeps := hstacks.keeps
      rw [← hlog, hstacks.reaches value hresult] at hkeeps
      exact Option.some.inj (hdepth.symm.trans hkeeps)
    have hcount := Instruction.depth_add_countP_isLoad hdepth
    exact ⟨hone, by omega⟩
  · intro before i after hprogram index hindex
    exact Instruction.written_before_read hdepth hprogram hindex
  · intro before a after s hactions hbefore
    exact (tree.balanced_actions (.nil 1)).arity_le hactions rfl hbefore
  · exact Emitter.text_run_of_unlimited hperforms

/-- The statement `x = (a += 5) / (b - 1)`, with `a` and `b` declared. -/
theorem statement_keeps_register_stack_nested_store :
    let e : Emitter := { table := { vars := [⟨"a", 6⟩, ⟨"b", 3⟩] } }
    let tree : Expr := .assign .set "x" (.binary .div (.assign .add "a" (.num 5))
      (.binary .sub (.var "b") (.num 1)))
    (e.run (Emit.statement tree)).1.result = .ok 5 ∧
      (e.run (Emit.statement tree)).1.program.foldlM Instruction.stackStep? 0 = some 1 := by
  intro e tree
  have hresult : (e.run (Emit.statement tree)).1.result = .ok 5 := by cbv
  obtain ⟨⟨depth, hdepth, hsuccess⟩, -⟩ := statement_keeps_register_stack tree e
  obtain ⟨rfl, -⟩ := hsuccess 5 hresult
  exact ⟨hresult, hdepth⟩

end LineCompiler
