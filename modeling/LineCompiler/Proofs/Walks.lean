import LineCompiler.Proofs.Effects

/-!
# Three ways to walk an expression

A statement is compiled from a list of actions that is laid out before the first of them is carried
out. This module compares that walk with two others.

* `Emit.expr` is plain recursion on the tree: the left operand, the right operand, the operator.
  Each part hands its value on to the one above it.
* `Emit.chained` spends no recursion on left operands. It follows them down to the first one
  (`Expr.spine`) and then takes up the operators in turn (`Emit.links`).
* `Emit.chained_eq_expr` and `Emit.forM_actions` compare both walks with the recursion, the second
  one by way of `Emit.yields_expr`: the value of an expression is the one in the register that it
  takes.
* `walks_agree` says that from any state all three come to the same end.
-/

namespace LineCompiler

namespace Emit

/-! ## The parts of a walk -/

/-- Loads a number into the next free register. -/
def literal (value : Int32) : Emit Int32 := do
  push (.imm value) value
  return value

/-- Loads a variable into the next free register. A divisor that is being computed has then read
one. -/
def load (name : String) : Emit Int32 := do
  modify fun e => { e with divisor := e.divisor.readVariable }
  let (slot, value) ← onTable (·.read name)
  push (← cell slot) value
  return value

/-- Replaces the two highest registers, which hold the operands, by the result. -/
def join (op : BinOp) (left right : Int32) : Emit Int32 := do
  let depth := (← get).registers.length
  instruction (.combine op (depth - 2) (depth - 1))
  modify fun e => { e with registers := op.fold left right :: e.registers.drop 2 }
  return op.fold left right

/-- Stores the highest register, which holds `value`. -/
def store (name : String) (value : Int32) : Emit Int32 := do
  let depth := (← get).registers.length
  let slot ← onTable (·.write name value)
  instruction (.mov (← cell slot) (.reg (depth - 1)))
  return value

/-- Computes a divisor. If it is 0, a variable has to have been read. -/
def divisor (operand : Emit Int32) : Emit Int32 := do
  modify fun e => { e with divisor := e.divisor.enter }
  let value ← operand
  let scan := (← get).divisor
  modify fun e => { e with divisor := .outside }
  if value = 0 ∧ scan ≠ .varying then throw .zeroDivisor
  return value

/-- Computes the right operand of an operator. -/
def rightOperand (op : BinOp) (operand : Emit Int32) : Emit Int32 :=
  if op = .div then divisor operand else operand

/-- Computes an expression by recursion on its tree. -/
def expr : Expr → Emit Int32
  | .num value => literal value
  | .var name => load name
  | .binary op left right => do
    let l ← expr left
    let r ← rightOperand op (expr right)
    join op l r
  | .assign op name right =>
    match op.combine? with
    | none => do
      let value ← expr right
      store name value
    | some op => do
      let l ← load name
      let r ← expr right
      let value ← join op l r
      store name value

end Emit

/-! ## Chains of operators -/

namespace Expr

/-- The first of the left operands of `e`, and the operators behind it, each with its right operand
and the innermost first, in front of `rest`. -/
def spine : Expr → List (BinOp × Expr) → Expr × List (BinOp × Expr)
  | binary op left right, rest => left.spine ((op, right) :: rest)
  | e, rest => (e, rest)

example : (binary .sub (binary .mul (num 5) (num 2)) (var "x")).spine [] =
    (num 5, [(.mul, num 2), (.sub, var "x")]) := rfl

/-- The number of nodes of the tree. -/
def nodes : Expr → Nat
  | num _ | var _ => 1
  | binary _ left right => left.nodes + right.nodes + 1
  | assign _ _ right => right.nodes + 1

/-- The number of nodes that the links of a chain add to its first operand. -/
def linkNodes : List (BinOp × Expr) → Nat
  | [] => 0
  | (_, right) :: rest => right.nodes + 1 + linkNodes rest

theorem nodes_pos (e : Expr) : 0 < e.nodes := by
  cases e <;> simp only [nodes] <;> omega

theorem nodes_spine (e : Expr) (rest : List (BinOp × Expr)) :
    (e.spine rest).1.nodes + linkNodes (e.spine rest).2 = e.nodes + linkNodes rest := by
  induction e generalizing rest with
  | num | var | assign => rfl
  | binary op left right ihl _ =>
    rw [spine, ihl, linkNodes, nodes]
    omega

theorem linkNodes_le_spine (e : Expr) (rest : List (BinOp × Expr)) :
    linkNodes rest ≤ linkNodes (e.spine rest).2 := by
  induction e generalizing rest with
  | num | var | assign => exact Nat.le_refl _
  | binary op left right ihl _ =>
    have hleft := ihl ((op, right) :: rest)
    rw [linkNodes] at hleft
    rw [spine]
    omega

/-- The first operand of a chain is smaller than the chain. -/
theorem nodes_spine_lt (op : BinOp) (left right : Expr) :
    (left.spine [(op, right)]).1.nodes < (binary op left right).nodes := by
  have hnodes := left.nodes_spine [(op, right)]
  have hlinks := left.linkNodes_le_spine [(op, right)]
  rw [nodes]
  omega

/-- What is linked to the first operand is smaller than the chain. -/
theorem linkNodes_spine_lt (op : BinOp) (left right : Expr) :
    linkNodes (left.spine [(op, right)]).2 < (binary op left right).nodes := by
  have hnodes := left.nodes_spine [(op, right)]
  have hfirst := (left.spine [(op, right)]).1.nodes_pos
  rw [linkNodes, linkNodes] at hnodes
  rw [nodes]
  omega

theorem nodes_lt_linkNodes (op : BinOp) (right : Expr) (rest : List (BinOp × Expr)) :
    right.nodes < linkNodes ((op, right) :: rest) := by
  rw [linkNodes]
  omega

theorem linkNodes_lt_cons (op : BinOp) (right : Expr) (rest : List (BinOp × Expr)) :
    linkNodes rest < linkNodes ((op, right) :: rest) := by
  rw [linkNodes]
  omega

end Expr

namespace Emit

mutual

/-- Computes an expression. Left operands are followed down to the first one, from where the
operators are taken up in turn. -/
def chained : Expr → Emit Int32
  | .num value => literal value
  | .var name => load name
  | .binary op left right => do
    let value ← chained (left.spine [(op, right)]).1
    links (left.spine [(op, right)]).2 value
  | .assign op name right =>
    match op.combine? with
    | none => do
      let value ← chained right
      store name value
    | some op => do
      let l ← load name
      let r ← chained right
      let value ← join op l r
      store name value
termination_by e => e.nodes
decreasing_by
  · exact Expr.nodes_spine_lt op left right
  · exact Expr.linkNodes_spine_lt op left right
  · exact Nat.lt_succ_self _
  · exact Nat.lt_succ_self _

/-- Goes on with these operators, `value` being that of all that is to the left of them. -/
def links : List (BinOp × Expr) → Int32 → Emit Int32
  | [], value => return value
  | (op, right) :: rest, value => do
    let r ← rightOperand op (chained right)
    let value ← join op value r
    links rest value
termination_by chain => Expr.linkNodes chain
decreasing_by
  · exact Expr.nodes_lt_linkNodes op right rest
  · exact Expr.linkNodes_lt_cons op right rest

end

/-- Goes on with these operators, with recursion for the right operands. -/
def exprLinks : List (BinOp × Expr) → Int32 → Emit Int32
  | [], value => return value
  | (op, right) :: rest, value => do
    let r ← rightOperand op (expr right)
    let value ← join op value r
    exprLinks rest value

/-- It makes no difference how far the left operands have been followed. -/
theorem expr_spine (e : Expr) (rest : List (BinOp × Expr)) :
    (expr (e.spine rest).1 >>= exprLinks (e.spine rest).2) = expr e >>= exprLinks rest := by
  induction e generalizing rest with
  | num | var | assign => rfl
  | binary op left right ihl _ =>
    rw [Expr.spine, ihl, expr]
    simp only [exprLinks, bind_assoc]

mutual

theorem chained_eq_expr (e : Expr) : chained e = expr e := by
  match e with
  | .num value => rw [chained, expr]
  | .var name => rw [chained, expr]
  | .binary op left right =>
    rw [chained, chained_eq_expr, funext (links_eq_exprLinks _), expr_spine, expr]
    simp only [exprLinks, bind_pure]
  | .assign op name right => rw [chained, expr, chained_eq_expr right]
termination_by e.nodes
decreasing_by
  · exact Expr.nodes_spine_lt op left right
  · exact Expr.linkNodes_spine_lt op left right
  · exact Nat.lt_succ_self _

theorem links_eq_exprLinks (chain : List (BinOp × Expr)) (value : Int32) :
    links chain value = exprLinks chain value := by
  match chain with
  | [] => rw [links, exprLinks]
  | (op, right) :: rest =>
    rw [links, exprLinks, chained_eq_expr right]
    simp only [links_eq_exprLinks rest]
termination_by Expr.linkNodes chain
decreasing_by
  · exact Expr.nodes_lt_linkNodes op right rest
  · exact Expr.linkNodes_lt_cons op right rest

end

/-! ## Values and registers -/

/-- Where the step succeeds, its value is in the next free register, and the others are as they
were. -/
def Yields (step : Emit Int32) : Prop :=
  ∀ ⦃e s : Emitter⦄ ⦃value : Int32⦄, step e = .ok value s → s.registers = value :: e.registers

variable {e s : Emitter}

theorem registers_instruction {i : Instruction} (h : instruction i e = .ok () s) :
    s.registers = e.registers := by
  obtain ⟨-, o, -, rfl⟩ := (Performs.instruction i e).of_ok (o := output e) h
  rfl

theorem registers_push {source : Operand} {value : Int32} (h : push source value e = .ok () s) :
    s.registers = value :: e.registers := by
  obtain ⟨-, o, -, rfl⟩ := (Performs.push source value e).of_ok (o := output e) h
  rfl

theorem registers_onTable {α : Type} {operation : Table → Except Fault (α × Table)} {a : α}
    (h : onTable operation e = .ok a s) : s.registers = e.registers := by
  obtain ⟨_, _, hget, h⟩ := exists_of_bind_ok h
  cases hget
  cases hoperation : operation e.table with
  | ok pair =>
    simp only [hoperation] at h
    cases h
    rfl
  | error fault =>
    simp only [hoperation] at h
    cases h

theorem registers_join {op : BinOp} {left right value : Int32}
    (h : join op left right e = .ok value s) : s.registers = value :: e.registers.drop 2 := by
  obtain ⟨_, _, hget, h⟩ := exists_of_bind_ok h
  cases hget
  obtain ⟨_, t, hinstruction, h⟩ := exists_of_bind_ok h
  cases h
  show op.fold left right :: t.registers.drop 2 = _
  rw [registers_instruction hinstruction]

theorem registers_store {name : String} {value value' : Int32}
    (h : store name value e = .ok value' s) : value' = value ∧ s.registers = e.registers := by
  obtain ⟨_, _, hget, h⟩ := exists_of_bind_ok h
  cases hget
  obtain ⟨slot, t, htable, h⟩ := exists_of_bind_ok h
  obtain ⟨_, _, hcell, h⟩ := exists_of_bind_ok h
  cases hcell
  obtain ⟨_, u, hinstruction, h⟩ := exists_of_bind_ok h
  cases h
  exact ⟨rfl, (registers_instruction hinstruction).trans (registers_onTable htable)⟩

/-- The end of a divisor, once its value is known. -/
theorem divisor_of_ok {operand : Emit Int32} {value : Int32}
    (h : operand { e with divisor := e.divisor.enter } = .ok value s) :
    divisor operand e =
      if value = 0 ∧ s.divisor ≠ .varying then .error .zeroDivisor { s with divisor := .outside }
      else .ok value { s with divisor := .outside } := by
  have hcheck : divisor operand e =
      (do if value = 0 ∧ s.divisor ≠ .varying then throw .zeroDivisor
          return value : Emit Int32) { s with divisor := .outside } :=
    bind_of_ok h _
  rw [hcheck]
  split
  · rfl
  · rfl

theorem divisor_of_error {operand : Emit Int32} {fault : Fault}
    (h : operand { e with divisor := e.divisor.enter } = .error fault s) :
    divisor operand e = .error fault s :=
  bind_of_error h _

theorem yields_literal (value : Int32) : Yields (literal value) := by
  intro e s v h
  obtain ⟨_, t, hpush, h⟩ := exists_of_bind_ok h
  cases h
  exact registers_push hpush

theorem yields_load (name : String) : Yields (load name) := by
  intro e s v h
  obtain ⟨_, _, hmodify, h⟩ := exists_of_bind_ok h
  cases hmodify
  obtain ⟨⟨slot, value⟩, t, htable, h⟩ := exists_of_bind_ok h
  obtain ⟨_, _, hcell, h⟩ := exists_of_bind_ok h
  cases hcell
  obtain ⟨_, u, hpush, h⟩ := exists_of_bind_ok h
  cases h
  rw [registers_push hpush, registers_onTable htable]

namespace Yields

variable {operand : Emit Int32}

protected theorem divisor (h : Yields operand) : Yields (divisor operand) := by
  intro e s value hdivisor
  cases hoperand : operand { e with divisor := e.divisor.enter } with
  | error fault t =>
    rw [divisor_of_error hoperand] at hdivisor
    cases hdivisor
  | ok v t =>
    have hregisters := h hoperand
    rw [divisor_of_ok hoperand] at hdivisor
    split at hdivisor
    · cases hdivisor
    · cases hdivisor
      exact hregisters

protected theorem rightOperand (h : Yields operand) (op : BinOp) :
    Yields (rightOperand op operand) := by
  unfold Emit.rightOperand
  split
  · exact h.divisor
  · exact h

protected theorem join {left right : Emit Int32} (hleft : Yields left) (hright : Yields right)
    (op : BinOp) : Yields (do let l ← left; let r ← right; join op l r) := by
  intro e s value h
  obtain ⟨l, t, hl, h⟩ := exists_of_bind_ok h
  obtain ⟨r, u, hr, h⟩ := exists_of_bind_ok h
  rw [registers_join h, hright hr, hleft hl]
  rfl

protected theorem store (h : Yields operand) (name : String) :
    Yields (operand >>= store name) := by
  intro e s value hstore
  obtain ⟨v, t, hoperand, hstore⟩ := exists_of_bind_ok hstore
  obtain ⟨rfl, hregisters⟩ := registers_store hstore
  rw [hregisters, h hoperand]

end Yields

theorem yields_expr (tree : Expr) : Yields (expr tree) := by
  induction tree with
  | num value => exact yields_literal value
  | var name => exact yields_load name
  | binary op left right ihl ihr => exact ihl.join (ihr.rightOperand op) op
  | assign op name right ih =>
    rw [expr]
    split
    · exact ih.store name
    · rename_i joined _
      have hjoined := ((yields_load name).join ih joined).store name
      simpa only [bind_assoc] using hjoined

/-! ## Actions

An action takes its operands from the registers, where the recursion has them at hand. -/

theorem forM_literal (value : Int32) (rest : List Action) :
    forM (.literal value :: rest) Action.perform =
      literal value >>= fun _ => forM rest Action.perform := by
  simp only [List.forM_cons, Action.perform, literal, bind_assoc, pure_bind]

theorem forM_load (name : String) (rest : List Action) :
    forM (.load name :: rest) Action.perform =
      load name >>= fun _ => forM rest Action.perform := by
  simp only [List.forM_cons, Action.perform, load, bind_assoc, pure_bind]

theorem forM_combine {op : BinOp} {left right : Int32} {below : List Int32}
    (h : e.registers = right :: left :: below) (rest : List Action) :
    forM (.combine op :: rest) Action.perform e =
      (join op left right >>= fun _ => forM rest Action.perform) e := by
  cases hinstruction : instruction
      (.combine op (e.registers.length - 2) (e.registers.length - 1)) e with
  | ok _ t =>
    have hregisters := (registers_instruction hinstruction).trans h
    have hperform : Action.perform (.combine op) e =
        .ok () { t with registers := op.fold left right :: below } := by
      refine (bind_of_ok hinstruction _).trans ?_
      show EStateM.Result.ok () { t with registers := Action.foldTop op t.registers } = _
      rw [hregisters]
      rfl
    have hjoin : join op left right e =
        .ok (op.fold left right) { t with registers := op.fold left right :: below } := by
      refine (bind_of_ok hinstruction _).trans ?_
      show EStateM.Result.ok (op.fold left right)
        { t with registers := op.fold left right :: t.registers.drop 2 } = _
      rw [hregisters]
      rfl
    exact (bind_of_ok hperform _).trans (bind_of_ok hjoin fun _ => forM rest Action.perform).symm
  | error fault t =>
    have hperform : Action.perform (.combine op) e = .error fault t :=
      bind_of_error hinstruction _
    have hjoin : join op left right e = .error fault t := bind_of_error hinstruction _
    exact (bind_of_error hperform _).trans
      (bind_of_error hjoin fun _ => forM rest Action.perform).symm

theorem forM_store {name : String} {value : Int32} {below : List Int32}
    (h : e.registers = value :: below) (rest : List Action) :
    forM (.store name :: rest) Action.perform e =
      (store name value >>= fun _ => forM rest Action.perform) e := by
  have hvalue : e.registers.headD 0 = value := by rw [h, List.headD_cons]
  have hperform : forM (.store name :: rest) Action.perform e = ((do
      let slot ← onTable (·.write name (e.registers.headD 0))
      instruction (.mov (← cell slot) (.reg (e.registers.length - 1)))) >>=
        fun _ => forM rest Action.perform) e := rfl
  rw [hperform, hvalue]
  simp only [store, bind_assoc, pure_bind]
  rfl

theorem perform_leaveDivisor {value : Int32} {below : List Int32}
    (h : e.registers = value :: below) :
    Action.perform .leaveDivisor e =
      if value = 0 ∧ e.divisor ≠ .varying then .error .zeroDivisor { e with divisor := .outside }
      else .ok () { e with divisor := .outside } := by
  have hhead : e.registers.head? = some 0 ↔ value = 0 := by
    rw [h, List.head?_cons, Option.some_inj]
  rw [Action.perform_leaveDivisor]
  simp only [hhead]

end Emit

/-- The actions that compute the right operand of an operator, in front of `rest`. -/
def Expr.operandActions (op : BinOp) (right : Expr) (rest : List Action) : List Action :=
  if op = .div then .enterDivisor :: right.actions (.leaveDivisor :: rest) else right.actions rest

theorem Expr.actions_binary (op : BinOp) (left right : Expr) (rest : List Action) :
    (binary op left right).actions rest =
      left.actions (right.operandActions op (.combine op :: rest)) := by
  rw [actions, operandActions]
  split
  · rfl
  · rfl

namespace Emit

variable {right : Expr}

/-- The actions of `right` do what recursion does, whatever comes behind them. -/
def Unrolls (right : Expr) : Prop :=
  ∀ (rest : List Action) (e : Emitter), forM (right.actions rest) Action.perform e =
    (expr right >>= fun _ => forM rest Action.perform) e

theorem Unrolls.divisor (h : Unrolls right) (rest : List Action) (e : Emitter) :
    forM (.enterDivisor :: right.actions (.leaveDivisor :: rest)) Action.perform e =
      (divisor (expr right) >>= fun _ => forM rest Action.perform) e := by
  have henter : forM (.enterDivisor :: right.actions (.leaveDivisor :: rest)) Action.perform e =
      forM (right.actions (.leaveDivisor :: rest)) Action.perform
        { e with divisor := e.divisor.enter } := rfl
  rw [henter, h]
  cases hright : expr right { e with divisor := e.divisor.enter } with
  | error fault s => rw [bind_of_error hright, bind_of_error (divisor_of_error hright)]
  | ok value s =>
    have hleave := perform_leaveDivisor (yields_expr right hright)
    have hdivisor := divisor_of_ok hright
    rw [bind_of_ok hright]
    by_cases hzero : value = 0 ∧ s.divisor ≠ .varying
    · rw [if_pos hzero] at hleave hdivisor
      rw [bind_of_error hdivisor]
      exact bind_of_error hleave _
    · rw [if_neg hzero] at hleave hdivisor
      rw [bind_of_ok hdivisor]
      exact bind_of_ok hleave _

theorem Unrolls.operand (h : Unrolls right) (op : BinOp) (rest : List Action) (e : Emitter) :
    forM (right.operandActions op rest) Action.perform e =
      (rightOperand op (expr right) >>= fun _ => forM rest Action.perform) e := by
  rw [Expr.operandActions, rightOperand]
  split
  · exact h.divisor rest e
  · exact h rest e

/-- The actions of an expression do what recursion on the tree does. -/
theorem forM_actions (tree : Expr) : Unrolls tree := by
  induction tree with
  | num value =>
    intro rest e
    rw [Expr.actions, forM_literal, expr]
  | var name =>
    intro rest e
    rw [Expr.actions, forM_load, expr]
  | binary op left right ihl ihr =>
    intro rest e
    rw [Expr.actions_binary, ihl, expr]
    simp only [bind_assoc]
    refine bind_congr_of_ok fun l s hleft => ?_
    rw [ihr.operand]
    refine bind_congr_of_ok fun r t hright => ?_
    have hregisters : t.registers = r :: l :: e.registers := by
      rw [(yields_expr right).rightOperand op hright, yields_expr left hleft]
    exact forM_combine hregisters rest
  | assign op name right ih =>
    intro rest e
    cases hop : op.combine? with
    | none =>
      simp only [Expr.actions, expr, hop, bind_assoc]
      rw [ih]
      refine bind_congr_of_ok fun value s hright => ?_
      exact forM_store (yields_expr right hright) rest
    | some joined =>
      simp only [Expr.actions, expr, hop, bind_assoc, forM_load]
      refine bind_congr_of_ok fun l s hload => ?_
      rw [ih]
      refine bind_congr_of_ok fun r t hright => ?_
      have hregisters : t.registers = r :: l :: e.registers := by
        rw [yields_expr right hright, yields_load name hload]
      rw [forM_combine hregisters]
      refine bind_congr_of_ok fun value u hjoin => ?_
      exact forM_store (registers_join hjoin) rest

/-- Carries out the actions of an expression and looks its value up. -/
def unrolled (tree : Expr) : Emit Int32 := do
  forM (tree.actions []) Action.perform
  return (← get).registers.headD 0

theorem unrolled_eq_expr (tree : Expr) : unrolled tree = expr tree := by
  funext e
  have hactions := forM_actions tree [] e
  cases htree : expr tree e with
  | ok value s =>
    rw [bind_of_ok htree] at hactions
    refine (bind_of_ok hactions _).trans ?_
    show EStateM.Result.ok (s.registers.headD 0) s = _
    rw [yields_expr tree htree, List.headD_cons]
  | error fault s =>
    rw [bind_of_error htree] at hactions
    exact bind_of_error hactions _

end Emit

/-- **All walks are the same.** Let the emitter be in any state: any table, any registers in use, in
or outside a divisor, with any output behind it and any sink. Carrying out the list of actions of an
expression, and following its left operands down and taking up the operators in turn, both end as
plain recursion on the tree ends: with the same value or fault, the same program and log, and the
same table, registers and divisor scan. A statement is such a walk that starts with no register in
use and outside of divisors. -/
theorem walks_agree (tree : Expr) (e : Emitter) :
    Emit.unrolled tree e = Emit.expr tree e ∧
    Emit.chained tree e = Emit.expr tree e ∧
    Emit.statement tree e = Emit.expr tree { e with registers := [], divisor := .outside } := by
  refine ⟨?_, ?_, ?_⟩
  · rw [Emit.unrolled_eq_expr]
  · rw [Emit.chained_eq_expr]
  · have hstatement : Emit.statement tree e =
        Emit.unrolled tree { e with registers := [], divisor := .outside } := rfl
    rw [hstatement, Emit.unrolled_eq_expr]

end LineCompiler
