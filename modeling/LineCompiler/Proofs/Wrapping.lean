import LineCompiler.Proofs.TableHistory
import LineCompiler.Proofs.Walks

/-!
# Wrapping at every step and wrapping once

The emitter follows values in 32 bits, and every operation wraps. For sums, differences and products
the wrapping could as well be left to the end: taking a number to 32 bits respects these operations,
and so it respects whatever is built from them, assignments included.

* `Expr.eval` computes an expression over any kind of numbers, with variables that are just numbers
  by name. `Expr.eval_ofInt` compares the two kinds of numbers.
* `Table.Holds t values`: the table has these values. `Table.Holds.read` and `Table.Holds.write` are
  the steps, and `Emit.computes_expr` follows an expression: what the emitter computes is what
  `Expr.eval` computes in 32 bits, for all operators.
* `wrapping_once` compares a sequence of statements with integers without bounds.
-/

namespace LineCompiler

/-! ## Residues -/

/-- Among the numbers of 32 bits, this is the one that is congruent to `n` modulo 2 ^ 32. -/
def Wraps (n : Int) (value : Int32) : Prop :=
  ∀ other : Int32, other.toInt ≡ n [ZMOD 2 ^ 32] ↔ other = value

theorem wraps_ofInt (n : Int) : Wraps n (Int32.ofInt n) := by
  have hresidue : (Int32.ofInt n).toInt ≡ n [ZMOD 2 ^ 32] := by
    rw [Int32.toInt_ofInt]
    exact Int.bmod_emod
  intro other
  constructor
  · intro h
    have hmod : other.toInt % (2 ^ 32 : Nat) = n % (2 ^ 32 : Nat) := h
    rw [eq_comm, Int32.ofInt_eq_iff_bmod_eq_toInt, ← Int.emod_bmod, ← hmod, Int.emod_bmod,
      ← Int32.ofInt_eq_iff_bmod_eq_toInt, Int32.ofInt_toInt]
  · rintro rfl
    exact hresidue

theorem forall₂_wraps (ns : List Int) : List.Forall₂ Wraps ns (ns.map Int32.ofInt) := by
  rw [List.forall₂_map_right_iff, List.forall₂_same]
  exact fun n _ => wraps_ofInt n

/-! ## Evaluation -/

/-- What numbers and operators mean, over some kind of numbers. -/
structure Arithmetic (α : Type) where
  ofNum : Int32 → α
  fold : BinOp → α → α → α

namespace Arithmetic

/-- What an assignment stores, given the old value of its variable and the value on its right. -/
def stored {α : Type} (A : Arithmetic α) (op : AssignOp) (old value : α) : α :=
  match op.combine? with
  | none => value
  | some op => A.fold op old value

/-- Numbers of 32 bits. -/
def wrapping : Arithmetic Int32 := ⟨id, BinOp.fold⟩

/-- Integers without bounds. -/
def unbounded : Arithmetic Int where
  ofNum := Int32.toInt
  fold
    | .add, a, b => a + b
    | .sub, a, b => a - b
    | .mul, a, b => a * b
    | .div, a, b => a.tdiv b
    | .and, a, b => a.land b
    | .or, a, b => a.lor b
    | .xor, a, b => a.xor b

/-- Sums, differences and products of integers have the residues that are computed in 32 bits. -/
theorem ofInt_fold {op : BinOp} (hop : op ∈ [BinOp.add, .sub, .mul]) (a b : Int) :
    Int32.ofInt (unbounded.fold op a b) = wrapping.fold op (Int32.ofInt a) (Int32.ofInt b) := by
  simp only [List.mem_cons, List.not_mem_nil, or_false] at hop
  rcases hop with rfl | rfl | rfl
  · exact Int32.ofInt_add a b
  · exact Int32.ofInt_sub a b
  · exact Int32.ofInt_mul a b

theorem ofInt_stored (op : AssignOp) (old value : Int) :
    Int32.ofInt (unbounded.stored op old value) =
      wrapping.stored op (Int32.ofInt old) (Int32.ofInt value) := by
  cases op with
  | set => rfl
  | add => exact Int32.ofInt_add old value
  | sub => exact Int32.ofInt_sub old value

end Arithmetic

namespace Expr

variable {α : Type}

/-- The value of an expression whose variables have these values, and the values of the variables
behind it. Operands are computed from left to right, and a compound assignment looks its variable up
first. -/
def eval (A : Arithmetic α) : Expr → (String → α) → α × (String → α)
  | num value, values => (A.ofNum value, values)
  | var name, values => (values name, values)
  | binary op left right, values =>
    let (l, values) := left.eval A values
    let (r, values) := right.eval A values
    (A.fold op l r, values)
  | assign op name right, values =>
    let old := values name
    let (r, values) := right.eval A values
    (A.stored op old r, Function.update values name (A.stored op old r))

/-- The values of expressions that are computed one after the other, and the values of the variables
behind them. -/
def evalAll (A : Arithmetic α) : List Expr → (String → α) → List α × (String → α)
  | [], values => ([], values)
  | tree :: rest, values =>
    let (value, values) := tree.eval A values
    let (more, values) := evalAll A rest values
    (value :: more, values)

/-- The binary operators of an expression. -/
def operators : Expr → List BinOp
  | num _ | var _ => []
  | binary op left right => op :: (left.operators ++ right.operators)
  | assign _ _ right => right.operators

/-- An expression that is built with these operators only has the same residue in both kinds of
numbers, and so has every variable behind it. -/
theorem eval_ofInt {e : Expr} (he : ∀ op ∈ e.operators, op ∈ [BinOp.add, .sub, .mul])
    (values : String → Int) :
    e.eval .wrapping (Int32.ofInt ∘ values) =
      (Int32.ofInt (e.eval .unbounded values).1, Int32.ofInt ∘ (e.eval .unbounded values).2) := by
  induction e generalizing values with
  | num value =>
    have hvalue : Int32.ofInt value.toInt = value := Int32.ofInt_toInt value
    exact Prod.ext hvalue.symm rfl
  | var name => rfl
  | binary op left right ihl ihr =>
    have hop := he op List.mem_cons_self
    have hleft := ihl fun op h => he op (List.mem_cons_of_mem _ (List.mem_append_left _ h))
    have hright := ihr fun op h => he op (List.mem_cons_of_mem _ (List.mem_append_right _ h))
    simp only [eval, hleft, hright, Arithmetic.ofInt_fold hop]
  | assign op name right ih =>
    simp only [eval, ih he, Function.comp_apply, Function.comp_update, Arithmetic.ofInt_stored]

theorem evalAll_ofInt {trees : List Expr}
    (htrees : ∀ tree ∈ trees, ∀ op ∈ tree.operators, op ∈ [BinOp.add, .sub, .mul])
    (values : String → Int) :
    evalAll .wrapping trees (Int32.ofInt ∘ values) =
      ((evalAll .unbounded trees values).1.map Int32.ofInt,
        Int32.ofInt ∘ (evalAll .unbounded trees values).2) := by
  induction trees generalizing values with
  | nil => rfl
  | cons tree rest ih =>
    have hrest := ih fun tree h => htrees tree (List.mem_cons_of_mem _ h)
    simp only [evalAll, eval_ofInt (htrees tree List.mem_cons_self), hrest, List.map_cons]

end Expr

/-! ## Tables that hold values -/

namespace Table

/-- The table holds these values by name, where an unknown name stands for 0. A slot that no name
finds, since an earlier one bears the same name, holds 0. -/
structure Holds (t : Table) (values : String → Int32) : Prop where
  current : ∀ name, (t.current? name).getD 0 = values name
  hidden : ∀ slot value, (∀ name, t.slot? name ≠ some slot) → t.value? slot = some value → value = 0

namespace Holds

variable {t t' : Table} {values : String → Int32} {name : String} {slot : Nat} {value : Int32}

theorem of_zeros (h : ∀ var ∈ t.vars, var.value = 0) : t.Holds fun _ => 0 := by
  have hvalue {slot : Nat} {value : Int32} (hslot : t.value? slot = some value) : value = 0 := by
    obtain ⟨var, hvar, rfl⟩ := Option.map_eq_some_iff.mp hslot
    exact h var (List.mem_of_getElem? hvar)
  refine ⟨fun name => ?_, fun slot value _ hslot => hvalue hslot⟩
  cases hcurrent : t.current? name with
  | none => rfl
  | some value =>
    obtain ⟨slot, -, hslot⟩ := Option.bind_eq_some_iff.mp hcurrent
    exact hvalue hslot

theorem of_slot? (h : t.Holds values) (hslot : t.slot? name = some slot)
    (hvalue : t.value? slot = some value) : value = values name := by
  have hcurrent := h.current name
  rw [current?, hslot, Option.bind_some, hvalue] at hcurrent
  exact hcurrent

theorem of_unknown (h : t.Holds values) (hslot : t.slot? name = none) : values name = 0 := by
  have hcurrent := h.current name
  rw [current?_eq_none_iff.mpr hslot] at hcurrent
  exact hcurrent.symm

/-- A new variable gets its value, and the others keep theirs. -/
theorem extend (h : t.Holds values) (hslot : t.slot? name = none) (value : Int32) :
    (t.extend name value).Holds (Function.update values name value) where
  current n := by
    rw [current?_extend]
    by_cases hn : name = n
    · subst hn
      rw [current?_eq_none_iff.mpr hslot, Option.none_or, if_pos rfl, Function.update_self]
      rfl
    · rw [if_neg hn, Option.or_none, Function.update_of_ne (Ne.symm hn), h.current]
  hidden s v hhidden hvalue := by
    have hname := hhidden name
    rw [slot?_extend, hslot, Option.none_or, if_pos rfl] at hname
    rw [value?_extend, if_neg fun hs => hname (congrArg some hs.symm)] at hvalue
    refine h.hidden s v (fun n hn => hhidden n ?_) hvalue
    rw [slot?_extend, hn, Option.some_or]

theorem assign (h : t.Holds values) (hslot : t.slot? name = some slot) (value : Int32) :
    (t.assign slot value).Holds (Function.update values name value) where
  current n := by
    rw [current?_assign hslot]
    by_cases hn : name = n
    · subst hn
      rw [if_pos rfl, Function.update_self]
      rfl
    · rw [if_neg hn, Function.update_of_ne (Ne.symm hn), h.current]
  hidden s v hhidden hvalue := by
    simp only [slot?_assign] at hhidden
    have hne : ¬ (s = slot ∧ s < t.size) := by
      rintro ⟨rfl, -⟩
      exact hhidden name hslot
    rw [value?_assign, if_neg hne] at hvalue
    exact h.hidden s v hhidden hvalue

theorem read (h : t.Holds values) (hread : t.read name = .ok ((slot, value), t')) :
    value = values name ∧ t'.Holds values := by
  rcases read_eq_ok.mp hread with ⟨hslot, hvalue, rfl⟩ | ⟨hslot, -, -, -, rfl, rfl⟩
  · exact ⟨h.of_slot? hslot hvalue, h⟩
  · have hzero := h.of_unknown hslot
    have hsame : Function.update values name 0 = values := by rw [← hzero, Function.update_eq_self]
    have hextend := h.extend hslot 0
    rw [hsame] at hextend
    exact ⟨hzero.symm, hextend⟩

theorem write (h : t.Holds values) (hwrite : t.write name value = .ok (slot, t')) :
    t'.Holds (Function.update values name value) := by
  rcases write_eq_ok.mp hwrite with ⟨hslot, rfl⟩ | ⟨hslot, -, -, rfl⟩
  · exact h.assign hslot value
  · exact h.extend hslot value

end Holds

end Table

/-! ## What the emitter computes -/

namespace Emit

variable {e s : Emitter}

theorem table_instruction {i : Instruction} (h : instruction i e = .ok () s) :
    s.table = e.table := by
  obtain ⟨-, o, -, rfl⟩ := (Performs.instruction i e).of_ok (o := output e) h
  rfl

theorem table_push {source : Operand} {value : Int32} (h : push source value e = .ok () s) :
    s.table = e.table := by
  obtain ⟨-, o, -, rfl⟩ := (Performs.push source value e).of_ok (o := output e) h
  rfl

theorem table_onTable {α : Type} {operation : Table → Except Fault (α × Table)} {a : α}
    (h : onTable operation e = .ok a s) : operation e.table = .ok (a, s.table) := by
  obtain ⟨_, _, hget, h⟩ := exists_of_bind_ok h
  cases hget
  cases hoperation : operation e.table with
  | ok pair =>
    simp only [hoperation] at h
    cases h
    rfl
  | error fault =>
    simp only [hoperation] at h
    cases h

/-- From a table that holds some values, the step computes what `f` says: its value, and the values
that the table holds behind it. -/
def Computes (step : Emit Int32) (f : (String → Int32) → Int32 × (String → Int32)) : Prop :=
  ∀ ⦃e s : Emitter⦄ ⦃value : Int32⦄ ⦃values : String → Int32⦄, e.table.Holds values →
    step e = .ok value s → value = (f values).1 ∧ s.table.Holds (f values).2

theorem computes_literal (value : Int32) :
    Computes (literal value) fun values => (value, values) := by
  intro e s v values hholds h
  obtain ⟨_, t, hpush, h⟩ := exists_of_bind_ok h
  cases h
  exact ⟨rfl, table_push hpush ▸ hholds⟩

theorem computes_load (name : String) :
    Computes (load name) fun values => (values name, values) := by
  intro e s v values hholds h
  obtain ⟨_, _, hmodify, h⟩ := exists_of_bind_ok h
  cases hmodify
  obtain ⟨⟨slot, value⟩, t, htable, h⟩ := exists_of_bind_ok h
  obtain ⟨_, _, hcell, h⟩ := exists_of_bind_ok h
  cases hcell
  obtain ⟨_, u, hpush, h⟩ := exists_of_bind_ok h
  cases h
  rw [table_push hpush]
  exact hholds.read (table_onTable htable)

theorem join_of_ok {op : BinOp} {left right value : Int32}
    (h : join op left right e = .ok value s) :
    value = op.fold left right ∧ s.table = e.table := by
  obtain ⟨_, _, hget, h⟩ := exists_of_bind_ok h
  cases hget
  obtain ⟨_, t, hinstruction, h⟩ := exists_of_bind_ok h
  have htable := table_instruction hinstruction
  cases h
  exact ⟨rfl, htable⟩

theorem store_of_ok {name : String} {value value' : Int32} (h : store name value e = .ok value' s)
    {values : String → Int32} (hholds : e.table.Holds values) :
    value' = value ∧ s.table.Holds (Function.update values name value) := by
  obtain ⟨_, _, hget, h⟩ := exists_of_bind_ok h
  cases hget
  obtain ⟨slot, t, htable, h⟩ := exists_of_bind_ok h
  obtain ⟨_, _, hcell, h⟩ := exists_of_bind_ok h
  cases hcell
  obtain ⟨_, u, hinstruction, h⟩ := exists_of_bind_ok h
  cases h
  rw [table_instruction hinstruction]
  exact ⟨rfl, hholds.write (table_onTable htable)⟩

namespace Computes

variable {operand : Emit Int32} {f : (String → Int32) → Int32 × (String → Int32)}

/-- That an operand is a divisor makes a difference to faults only. -/
protected theorem rightOperand (h : Computes operand f) (op : BinOp) :
    Computes (rightOperand op operand) f := by
  unfold Emit.rightOperand
  split
  · intro e s value values hholds hdivisor
    cases hoperand : operand { e with divisor := e.divisor.enter } with
    | error fault t =>
      rw [divisor_of_error hoperand] at hdivisor
      cases hdivisor
    | ok v t =>
      have hcomputes := h (e := { e with divisor := e.divisor.enter }) hholds hoperand
      rw [divisor_of_ok hoperand] at hdivisor
      split at hdivisor
      · cases hdivisor
      · cases hdivisor
        exact hcomputes
  · exact h

end Computes

/-- **The emitter evaluates.** The value that an expression is followed with is the one that it has
in numbers of 32 bits, and so are the values that it leaves in the table. -/
theorem computes_expr (tree : Expr) : Computes (expr tree) (tree.eval .wrapping) := by
  induction tree with
  | num value => exact computes_literal value
  | var name => exact computes_load name
  | binary op left right ihl ihr =>
    intro e s value values hholds h
    obtain ⟨l, t, hleft, h⟩ := exists_of_bind_ok h
    obtain ⟨r, u, hright, h⟩ := exists_of_bind_ok h
    obtain ⟨rfl, hholds⟩ := ihl hholds hleft
    obtain ⟨rfl, hholds⟩ := ihr.rightOperand op hholds hright
    obtain ⟨rfl, htable⟩ := join_of_ok h
    exact ⟨rfl, htable ▸ hholds⟩
  | assign op name right ih =>
    intro e s value values hholds h
    cases hop : op.combine? with
    | none =>
      simp only [expr, hop] at h
      obtain ⟨r, t, hright, h⟩ := exists_of_bind_ok h
      obtain ⟨rfl, hholds⟩ := ih hholds hright
      obtain ⟨rfl, hholds⟩ := store_of_ok h hholds
      refine ⟨by simp only [Expr.eval, Arithmetic.stored, hop], ?_⟩
      simpa only [Expr.eval, Arithmetic.stored, hop] using hholds
    | some joined =>
      simp only [expr, hop] at h
      obtain ⟨l, t, hload, h⟩ := exists_of_bind_ok h
      obtain ⟨r, u, hright, h⟩ := exists_of_bind_ok h
      obtain ⟨v, w, hjoin, h⟩ := exists_of_bind_ok h
      obtain ⟨rfl, hholds⟩ := computes_load name hholds hload
      obtain ⟨rfl, hholds⟩ := ih hholds hright
      obtain ⟨rfl, htable⟩ := join_of_ok hjoin
      obtain ⟨rfl, hholds⟩ := store_of_ok h (htable ▸ hholds)
      simp only [Expr.eval, Arithmetic.stored, hop]
      exact ⟨rfl, hholds⟩

theorem computes_statement (tree : Expr) : Computes (statement tree) (tree.eval .wrapping) := by
  intro e s value values hholds h
  have hexpr : statement tree e = expr tree { e with registers := [], divisor := .outside } :=
    congrFun (unrolled_eq_expr tree) { e with registers := [], divisor := .outside }
  rw [hexpr] at h
  have hstart : ({ e with registers := [], divisor := .outside } : Emitter).table.Holds values :=
    hholds
  exact computes_expr tree hstart h

theorem computes_statements {trees : List Expr} {values : String → Int32} {results : List Int32}
    (hholds : e.table.Holds values) (h : trees.mapM statement e = .ok results s) :
    results = (Expr.evalAll .wrapping trees values).1 ∧
      s.table.Holds (Expr.evalAll .wrapping trees values).2 := by
  induction trees generalizing e values results with
  | nil =>
    cases h
    exact ⟨rfl, hholds⟩
  | cons tree rest ih =>
    rw [List.mapM_cons] at h
    obtain ⟨value, t, hstatement, h⟩ := exists_of_bind_ok h
    obtain ⟨more, u, hrest, h⟩ := exists_of_bind_ok h
    cases h
    obtain ⟨rfl, hholds⟩ := computes_statement tree hholds hstatement
    obtain ⟨rfl, hholds⟩ := ih hholds hrest
    exact ⟨rfl, hholds⟩

end Emit

theorem Emitter.eq_of_run_ok {α : Type} {step : Emit α} {e : Emitter} {a : α}
    (h : (e.run step).1.result = .ok a) : step e.cleared = .ok a (e.run step).2 := by
  cases hstep : step e.cleared with
  | ok b s =>
    simp only [Emitter.run, hstep, Emitter.trace] at h ⊢
    cases h
    rfl
  | error fault s =>
    simp only [Emitter.run, hstep, Emitter.trace] at h
    cases h

/-- **Wrapping once is enough.** Let the table hold zeros, and let some statements be compiled one
after the other without a fault, whose operators are sums, differences and products. Compute the
same statements in the same order over the integers without bounds, with variables that are 0 at
first. Each value of a statement is the number of 32 bits that is congruent to the integer, and so
is each value that the table then holds. (A slot behind another one of the same name keeps its
zero.) -/
theorem wrapping_once (trees : List Expr) (e : Emitter) (results : List Int32)
    (htrees : ∀ tree ∈ trees, ∀ op ∈ tree.operators, op ∈ [BinOp.add, .sub, .mul])
    (hzeros : ∀ var ∈ e.table.vars, var.value = 0)
    (hok : (e.run (trees.mapM Emit.statement)).1.result = .ok results) :
    let unbounded := Expr.evalAll .unbounded trees fun _ => 0
    let table := (e.run (trees.mapM Emit.statement)).2.table
    List.Forall₂ Wraps unbounded.1 results ∧
    ∀ slot value, table.value? slot = some value →
      (∀ name, table.slot? name = some slot → Wraps (unbounded.2 name) value) ∧
      ((∀ name, table.slot? name ≠ some slot) → value = 0) := by
  intro unbounded table
  have hholds : e.cleared.table.Holds (Int32.ofInt ∘ fun _ => 0) := Table.Holds.of_zeros hzeros
  obtain ⟨hresults, htable⟩ := Emit.computes_statements hholds (Emitter.eq_of_run_ok hok)
  rw [Expr.evalAll_ofInt htrees] at hresults htable
  refine ⟨?_, fun slot value hvalue => ⟨fun name hslot => ?_, fun hhidden => ?_⟩⟩
  · rw [hresults]
    exact forall₂_wraps _
  · rw [htable.of_slot? hslot hvalue]
    exact wraps_ofInt _
  · exact htable.hidden slot value hhidden hvalue

/-- The statements `x = 2000000000`, `y = (x += x) - (x = 3) * x` and `z = 0 - y * y`, from a table
with two variables `x`. The second statement leaves 32 bits before it comes to the last one, and `z`
is new. -/
theorem wrapping_once_overflow :
    let e : Emitter := { table := { vars := [⟨"x", 0⟩, ⟨"x", 0⟩, ⟨"y", 0⟩] } }
    let trees : List Expr := [
      .assign .set "x" (.num 2000000000),
      .assign .set "y" (.binary .sub (.assign .add "x" (.var "x"))
        (.binary .mul (.assign .set "x" (.num 3)) (.var "x"))),
      .assign .set "z" (.binary .sub (.num 0) (.binary .mul (.var "y") (.var "y")))]
    (Expr.evalAll .unbounded trees fun _ => 0).1 = [2000000000, 3999999991, -15999999928000000081] ∧
      (e.run (trees.mapM Emit.statement)).1.result = .ok [2000000000, -294967305, 1296617391] ∧
      List.Forall₂ Wraps (Expr.evalAll .unbounded trees fun _ => 0).1
        [2000000000, -294967305, 1296617391] ∧
      Wraps ((Expr.evalAll .unbounded trees fun _ => 0).2 "x") 3 := by
  intro e trees
  have hresult : (e.run (trees.mapM Emit.statement)).1.result =
      .ok [2000000000, -294967305, 1296617391] := by cbv
  have hvalue : (e.run (trees.mapM Emit.statement)).2.table.value? 0 = some 3 := by cbv
  have hslot : (e.run (trees.mapM Emit.statement)).2.table.slot? "x" = some 0 := by cbv
  have hzeros : ∀ var ∈ e.table.vars, var.value = 0 := by simp [e]
  have htrees : ∀ tree ∈ trees, ∀ op ∈ tree.operators, op ∈ [BinOp.add, .sub, .mul] := by
    simp [trees, Expr.operators]
  obtain ⟨hvalues, hslots⟩ := wrapping_once trees e _ htrees hzeros hresult
  exact ⟨by cbv, hresult, hvalues, (hslots 0 3 hvalue).1 "x" hslot⟩

end LineCompiler
