import LineCompiler.Proofs.SourceText
import LineCompiler.Proofs.Walks

/-!
# Divisors that are zero

A divisor of value 0 is a fault unless a variable is known to have been read. What is known of this
is one scan for all divisors of a statement: the first divisor that is entered starts it, every
variable read from then on counts, and the end of any divisor ends it. This module says what that
means for a division at any place of a statement.

* `Expr.Context` is an expression with a gap, and so a place in a statement. `Context.before` and
  `Context.after` are the actions on both sides of the gap.
* `Action.scanned` are the actions that the scan has seen. `Action.foldl_scan` says that they alone
  decide on it, and `Expr.foldl_scan_actions` how an expression as a whole moves the scan.
* `Emit.ReachesDivisorEnd`: the statement has computed a divisor. `Emit.statement_of_reached` is
  what the statement does then.
-/

namespace LineCompiler

/-! ## Places in an expression -/

namespace Expr

/-- An expression with a gap in it. -/
inductive Context where
  | gap
  | inLeft (op : BinOp) (inner : Context) (right : Expr)
  | inRight (op : BinOp) (left : Expr) (inner : Context)
  | inValue (op : AssignOp) (name : String) (inner : Context)
  deriving DecidableEq, Repr

namespace Context

/-- The expression with `e` in the gap. -/
def fill : Context → Expr → Expr
  | gap, e => e
  | inLeft op inner right, e => .binary op (inner.fill e) right
  | inRight op left inner, e => .binary op left (inner.fill e)
  | inValue op name inner, e => .assign op name (inner.fill e)

/-- The actions that come before those of the expression in the gap. -/
def before : Context → List Action
  | gap => []
  | inLeft _ inner _ => inner.before
  | inRight op left inner =>
    left.actions [] ++ (if op = .div then [.enterDivisor] else []) ++ inner.before
  | inValue op name inner =>
    match op.combine? with
    | none => inner.before
    | some _ => .load name :: inner.before

/-- The actions that come behind those of the expression in the gap. -/
def after : Context → List Action
  | gap => []
  | inLeft op inner right => inner.after ++ right.operandActions op [.combine op]
  | inRight op _ inner =>
    inner.after ++ (if op = .div then [.leaveDivisor] else []) ++ [.combine op]
  | inValue op name inner =>
    match op.combine? with
    | none => inner.after ++ [.store name]
    | some op => inner.after ++ [.combine op, .store name]

theorem actions_fill (context : Context) (e : Expr) :
    (context.fill e).actions [] = context.before ++ e.actions [] ++ context.after := by
  induction context with
  | gap => rw [fill, before, after, List.nil_append, List.append_nil]
  | inLeft op inner right ih =>
    rw [fill, actions_binary, actions_eq_append, ih, before, after, List.append_assoc]
  | inRight op left inner ih =>
    rw [fill, actions_binary, left.actions_eq_append, operandActions, before, after]
    split
    · rw [(inner.fill e).actions_eq_append, ih]
      simp
    · rw [(inner.fill e).actions_eq_append, ih]
      simp
  | inValue op name inner ih =>
    cases hop : op.combine? with
    | none =>
      simp only [fill, actions, before, after, hop]
      rw [(inner.fill e).actions_eq_append, ih, List.append_assoc]
    | some joined =>
      simp only [fill, actions, before, after, hop]
      rw [(inner.fill e).actions_eq_append, ih]
      simp

end Context

end Expr

/-! ## The scan -/

namespace Action

def isLoad : Action → Bool
  | load _ => true
  | _ => false

/-- What an action does to the scan. -/
def scan : DivisorScan → Action → DivisorScan
  | state, load _ => state.readVariable
  | state, enterDivisor => state.enter
  | _, leaveDivisor => .outside
  | state, _ => state

/-- The actions from the first divisor on that was entered since the last one was left. -/
def scanned (done : List Action) : List Action :=
  (done.rtakeWhile (· ≠ leaveDivisor)).dropWhile (· ≠ enterDivisor)

example :
    scanned [enterDivisor, load "x", leaveDivisor, load "y", enterDivisor, load "z", enterDivisor] =
      [enterDivisor, load "z", enterDivisor] := by decide

theorem scanned_leaveDivisor (done : List Action) : scanned (done ++ [leaveDivisor]) = [] := by
  simp [scanned]

theorem scanned_enterDivisor {done : List Action} (h : scanned done = []) :
    scanned (done ++ [enterDivisor]) = [enterDivisor] := by
  have hdrop := List.dropWhile_eq_nil_iff.mp h
  rw [scanned, List.rtakeWhile_concat, if_pos (by decide), List.dropWhile_append_of_pos hdrop]
  rfl

theorem scanned_of_nil {done : List Action} {a : Action} (h : scanned done = [])
    (ha : a ≠ enterDivisor) : scanned (done ++ [a]) = [] := by
  have hdrop := List.dropWhile_eq_nil_iff.mp h
  rw [scanned, List.rtakeWhile_concat]
  split
  · rw [List.dropWhile_append_of_pos hdrop]
    simp [ha]
  · rfl

theorem scanned_of_ne_nil {done : List Action} {a : Action} (h : scanned done ≠ [])
    (ha : a ≠ leaveDivisor) : scanned (done ++ [a]) = scanned done ++ [a] := by
  rw [scanned, List.rtakeWhile_concat, if_pos (by simpa using ha), List.dropWhile_append]
  exact if_neg (mt List.isEmpty_iff.mp h)

/-- What a scan that has seen these actions has come to. -/
def scanResult (seen : List Action) : DivisorScan :=
  if seen = [] then .outside else if seen.any isLoad then .varying else .fixed

theorem scan_scanResult {seen : List Action} {a : Action} (h : seen ≠ []) (ha : a ≠ leaveDivisor) :
    scan (scanResult seen) a = scanResult (seen ++ [a]) := by
  have hconcat : seen ++ [a] ≠ [] := List.concat_ne_nil a seen
  rw [scanResult, scanResult, if_neg h, if_neg hconcat, List.any_append]
  cases a with
  | leaveDivisor => exact absurd rfl ha
  | literal | load | enterDivisor | combine | store =>
    cases seen.any isLoad with
    | true => rfl
    | false => rfl

/-- Only the actions that the scan has seen decide what it comes to. -/
theorem foldl_scan (done : List Action) : done.foldl scan .outside = scanResult (scanned done) := by
  induction done using List.reverseRecOn with
  | nil => rfl
  | append_singleton done a ih =>
    rw [List.foldl_concat, ih]
    by_cases hnil : scanned done = []
    · by_cases ha : a = enterDivisor
      · rw [ha, scanned_enterDivisor hnil, hnil]
        rfl
      · rw [scanned_of_nil hnil ha, hnil]
        cases a with
        | enterDivisor => exact absurd rfl ha
        | literal | load | leaveDivisor | combine | store => rfl
    · by_cases ha : a = leaveDivisor
      · rw [ha, scanned_leaveDivisor]
        rfl
      · rw [scanned_of_ne_nil hnil ha, scan_scanResult hnil ha]

theorem scanResult_eq_varying (seen : List Action) :
    scanResult seen = .varying ↔ seen.any isLoad := by
  by_cases hnil : seen = []
  · rw [scanResult, if_pos hnil, hnil]
    decide
  · rw [scanResult, if_neg hnil]
    cases seen.any isLoad with
    | true => decide
    | false => decide

theorem divisor_perform {a : Action} {e s : Emitter} (h : a.perform e = .ok () s) :
    s.divisor = scan e.divisor a := by
  obtain ⟨-, o, -, rfl⟩ := (performs_perform a e).of_ok (o := output e) h
  cases a with
  | literal | enterDivisor | leaveDivisor | combine => rfl
  | load name =>
    show (effect (load name) e).state.divisor = _
    rw [effect]
    split
    · rfl
    · rfl
  | store name =>
    show (effect (store name) e).state.divisor = _
    rw [effect]
    split
    · rfl
    · rfl

/-- The emitter's scan goes along with the actions that are carried out. -/
theorem divisor_forM {actions : List Action} {e s : Emitter}
    (h : forM actions perform e = .ok () s) : s.divisor = actions.foldl scan e.divisor := by
  induction actions generalizing e with
  | nil =>
    cases h
    rfl
  | cons a rest ih =>
    obtain ⟨_, t, ha, hrest⟩ := exists_of_bind_ok h
    rw [List.foldl_cons, ← divisor_perform ha]
    exact ih hrest

end Action

namespace Expr

/-- Whether the expression holds a division. -/
def hasDivision : Expr → Bool
  | num _ | var _ => false
  | binary op left right => op = .div || left.hasDivision || right.hasDivision
  | assign _ _ right => right.hasDivision

/-- What an expression does to the scan: a division in it ends the scan, and otherwise it adds the
variables that it reads. -/
def scan (state : DivisorScan) (tree : Expr) : DivisorScan :=
  if tree.hasDivision then .outside else if tree.loads = [] then state else state.readVariable

theorem readVariable_readVariable (state : DivisorScan) :
    state.readVariable.readVariable = state.readVariable := by
  cases state with
  | outside | fixed | varying => rfl

theorem scan_binary {op : BinOp} (hop : op ≠ .div) (left right : Expr) (state : DivisorScan) :
    (binary op left right).scan state = right.scan (left.scan state) := by
  unfold scan
  rw [hasDivision, loads, decide_eq_false hop, Bool.false_or]
  cases right.hasDivision with
  | true => simp
  | false =>
    cases left.hasDivision with
    | true =>
      by_cases hright : right.loads = []
      · simp [hright]
      · simp [hright]
        rfl
    | false =>
      by_cases hleft : left.loads = []
      · simp [hleft]
      · by_cases hright : right.loads = []
        · simp [hleft, hright]
        · simp [hleft, hright, readVariable_readVariable]

theorem scan_assign {op : AssignOp} (hop : op ≠ .set) (name : String) (right : Expr)
    (state : DivisorScan) : (assign op name right).scan state = right.scan state.readVariable := by
  unfold scan
  rw [hasDivision, loads, if_neg hop]
  by_cases hright : right.loads = []
  · simp [hright]
  · simp [hright, readVariable_readVariable]

theorem foldl_scan_actions (tree : Expr) (state : DivisorScan) :
    (tree.actions []).foldl Action.scan state = tree.scan state := by
  induction tree generalizing state with
  | num value => rfl
  | var name => rfl
  | binary op left right ihl ihr =>
    rw [actions_binary, left.actions_eq_append, List.foldl_append, ihl, operandActions]
    by_cases hop : op = .div
    · rw [if_pos hop, List.foldl_cons, right.actions_eq_append, List.foldl_append]
      simp [scan, hasDivision, hop]
      rfl
    · rw [if_neg hop, right.actions_eq_append, List.foldl_append, ihr, scan_binary hop]
      rfl
  | assign op name right ih =>
    cases op with
    | set =>
      simp only [actions, AssignOp.combine?]
      rw [right.actions_eq_append, List.foldl_append, ih]
      rfl
    | add | sub =>
      simp only [actions, AssignOp.combine?]
      rw [List.foldl_cons, right.actions_eq_append, List.foldl_append, ih, scan_assign (by decide)]
      rfl

end Expr

/-! ## The end of a divisor -/

namespace Emit

/-- The statement with a division at this place has computed the divisor, whose value is `value`,
and is about to end it in the state `ending`. -/
def ReachesDivisorEnd (e : Emitter) (context : Expr.Context) (left right : Expr) (value : Int32)
    (ending : Emitter) : Prop :=
  ∃ opening, forM (context.before ++ left.actions []) Action.perform
      { e with registers := [], divisor := .outside } = .ok () opening ∧
    expr right { opening with divisor := opening.divisor.enter } = .ok value ending

/-- What a statement does behind the divisor at this place. -/
def behindDivisor (context : Expr.Context) : Emit Int32 := do
  forM (.combine .div :: context.after) Action.perform
  return (← get).registers.headD 0

variable {e ending : Emitter} {context : Expr.Context} {left right : Expr} {value : Int32}

theorem ReachesDivisorEnd.registers (h : ReachesDivisorEnd e context left right value ending) :
    ∃ below, ending.registers = value :: below := by
  obtain ⟨opening, -, hright⟩ := h
  exact ⟨_, yields_expr right hright⟩

theorem ReachesDivisorEnd.performed (h : ReachesDivisorEnd e context left right value ending) :
    forM (context.before ++ left.actions [] ++ .enterDivisor :: right.actions []) Action.perform
      { e with registers := [], divisor := .outside } = .ok () ending := by
  obtain ⟨opening, hopening, hright⟩ := h
  have henter : forM (.enterDivisor :: right.actions []) Action.perform opening =
      forM (right.actions []) Action.perform
        { opening with divisor := opening.divisor.enter } := rfl
  have hactions : forM (right.actions []) Action.perform
      { opening with divisor := opening.divisor.enter } = .ok () ending :=
    (forM_actions right [] _).trans (bind_of_ok hright _)
  rw [List.forM_append, bind_of_ok hopening]
  exact henter.trans hactions

/-- The actions of a statement with a division at some place. -/
theorem actions_division (context : Expr.Context) (left right : Expr) :
    (context.fill (.binary .div left right)).actions [] =
      context.before ++ left.actions [] ++ .enterDivisor :: right.actions [] ++
        .leaveDivisor :: .combine .div :: context.after := by
  rw [Expr.Context.actions_fill, Expr.actions_binary, left.actions_eq_append, Expr.operandActions,
    if_pos rfl, right.actions_eq_append]
  simp

theorem statement_of_reached (h : ReachesDivisorEnd e context left right value ending) :
    statement (context.fill (.binary .div left right)) e =
      if value = 0 ∧ ending.divisor ≠ .varying then
        .error .zeroDivisor { ending with divisor := .outside }
      else behindDivisor context { ending with divisor := .outside } := by
  obtain ⟨below, hregisters⟩ := h.registers
  have hleave := perform_leaveDivisor hregisters
  have hactions : forM ((context.fill (.binary .div left right)).actions []) Action.perform
      { e with registers := [], divisor := .outside } =
        forM (.leaveDivisor :: .combine .div :: context.after) Action.perform ending := by
    rw [actions_division, List.forM_append, bind_of_ok h.performed]
  by_cases hzero : value = 0 ∧ ending.divisor ≠ .varying
  · rw [if_pos hzero] at hleave ⊢
    exact bind_of_error (hactions.trans (bind_of_error hleave _)) _
  · rw [if_neg hzero] at hleave ⊢
    exact bind_of_eq (hactions.trans (bind_of_ok hleave _)) _

/-- A statement that succeeds has come to the end of every divisor in it. -/
theorem exists_reached_of_ok {result : Int32} {s : Emitter}
    (h : statement (context.fill (.binary .div left right)) e = .ok result s) :
    ∃ value ending, ReachesDivisorEnd e context left right value ending := by
  have hperform : ((forM ((context.fill (.binary .div left right)).actions []) Action.perform >>=
      fun _ => do return (← get).registers.headD 0) : Emit Int32)
      { e with registers := [], divisor := .outside } = .ok result s := h
  obtain ⟨_, _, hactions, -⟩ := exists_of_bind_ok hperform
  rw [actions_division, List.append_assoc, List.forM_append] at hactions
  obtain ⟨_, opening, hopening, hbehind⟩ := exists_of_bind_ok hactions
  have hright : forM (right.actions [] ++ .leaveDivisor :: .combine .div :: context.after)
      Action.perform { opening with divisor := opening.divisor.enter } = .ok _ _ := hbehind
  rw [← Expr.actions_eq_append, forM_actions] at hright
  obtain ⟨value, ending, hvalue, -⟩ := exists_of_bind_ok hright
  exact ⟨value, ending, opening, hopening, hvalue⟩

/-- What the scan knows at the end of the divisor. -/
theorem ReachesDivisorEnd.divisor_eq (h : ReachesDivisorEnd e context left right value ending) :
    ending.divisor = Action.scanResult (Action.scanned
      (context.before ++ left.actions [] ++ .enterDivisor :: right.actions [])) := by
  rw [Action.divisor_forM h.performed, Action.foldl_scan]

/-- The same from what the scan knew before the divisor. -/
theorem ReachesDivisorEnd.divisor_eq_scan
    (h : ReachesDivisorEnd e context left right value ending) :
    ending.divisor = right.scan
      (Action.scanResult (Action.scanned (context.before ++ left.actions []))).enter := by
  rw [Action.divisor_forM h.performed, List.foldl_append, Action.foldl_scan, List.foldl_cons,
    Expr.foldl_scan_actions]
  rfl

theorem ReachesDivisorEnd.not_varying_iff
    (h : ReachesDivisorEnd e context left right value ending) :
    ending.divisor ≠ .varying ↔ right.hasDivision ∨ ¬ (Action.scanned
      (context.before ++ left.actions [] ++ .enterDivisor :: right.actions [])).any
        Action.isLoad := by
  rw [← Action.scanResult_eq_varying, ← h.divisor_eq]
  constructor
  · exact .inr
  · rintro (hdivision | hvarying)
    · rw [h.divisor_eq_scan, Expr.scan, if_pos hdivision]
      decide
    · exact hvarying

theorem ReachesDivisorEnd.not_varying_iff_of_constant
    (h : ReachesDivisorEnd e context left right value ending) (hconstant : right.loads = []) :
    ending.divisor ≠ .varying ↔ right.hasDivision ∨
      ¬ (Action.scanned (context.before ++ left.actions [])).any Action.isLoad := by
  have henter (state : DivisorScan) : state.enter = .varying ↔ state = .varying := by
    cases state with
    | outside | fixed | varying => decide
  rw [h.divisor_eq_scan, Expr.scan, if_pos hconstant, ← Action.scanResult_eq_varying, ← henter]
  cases right.hasDivision with
  | true => simp
  | false => simp

end Emit

/-- **When a divisor of value 0 is a fault.** Take a division at any place of a statement, and
suppose that the statement comes to the end of the divisor, whatever the table and the sink. If the
value of the divisor is not 0, the statement goes on. If it is 0, the statement stops there exactly
if the divisor holds a division itself, or if no variable has been read since the first divisor was
entered behind the last one that has been left. -/
theorem zero_divisor_fault_iff (context : Expr.Context) (left right : Expr) (e ending : Emitter)
    (value : Int32) (h : Emit.ReachesDivisorEnd e context left right value ending) :
    let tree := context.fill (.binary .div left right)
    let done := context.before ++ left.actions [] ++ .enterDivisor :: right.actions []
    let refused := value = 0 ∧
      (right.hasDivision ∨ ¬ (Action.scanned done).any Action.isLoad)
    (Action.perform .leaveDivisor ending = .error .zeroDivisor { ending with divisor := .outside } ↔
      refused) ∧
    (refused → Emit.statement tree e = .error .zeroDivisor { ending with divisor := .outside }) ∧
    (¬ refused → Emit.statement tree e =
      Emit.behindDivisor context { ending with divisor := .outside }) := by
  intro tree done refused
  have hrefused : (value = 0 ∧ ending.divisor ≠ .varying) ↔ refused :=
    and_congr_right fun _ => h.not_varying_iff
  obtain ⟨below, hregisters⟩ := h.registers
  have hleave := Emit.perform_leaveDivisor hregisters
  have hstatement := Emit.statement_of_reached h
  refine ⟨?_, fun hyes => ?_, fun hno => ?_⟩
  · by_cases hyes : refused
    · rw [hleave, if_pos (hrefused.mpr hyes)]
      exact iff_of_true rfl hyes
    · rw [hleave, if_neg (mt hrefused.mp hyes)]
      exact iff_of_false (by rintro ⟨⟩) hyes
  · rw [hstatement, if_pos (hrefused.mpr hyes)]
  · rw [hstatement, if_neg (mt hrefused.mp hno)]

/-- The statement `1 / (y / 1)` where `y` is 0. The variable is read in the divisor, but behind the
division in it nothing is known of that. -/
theorem zero_divisor_fault_iff_division_inside :
    let e : Emitter := { table := { vars := [⟨"y", 0⟩] } }
    let ending : Emitter :=
      { e with
        registers := [0, 1]
        sink := { written := "MOV r0 1\nMOV r1 [0]\nMOV r2 1\nDIV r1 r2\n" }
        log := #[.emit (.mov (.reg 0) (.imm 1)), .emit (.mov (.reg 1) (.mem 0)),
          .emit (.mov (.reg 2) (.imm 1)), .emit (.combine .div 1 2)] }
    Emit.ReachesDivisorEnd e .gap (.num 1) (.binary .div (.var "y") (.num 1)) 0 ending ∧
      Emit.statement (.binary .div (.num 1) (.binary .div (.var "y") (.num 1))) e =
        .error .zeroDivisor ending := by
  intro e ending
  have hopening : forM ((Expr.num 1).actions []) Action.perform
      { e with registers := [], divisor := .outside } = .ok ()
        { e with
          registers := [1]
          sink := { written := "MOV r0 1\n" }
          log := #[.emit (.mov (.reg 0) (.imm 1))] } := by cbv
  have hreached :
      Emit.ReachesDivisorEnd e .gap (.num 1) (.binary .div (.var "y") (.num 1)) 0 ending :=
    ⟨_, hopening, by cbv⟩
  exact ⟨hreached, (zero_divisor_fault_iff .gap (.num 1) (.binary .div (.var "y") (.num 1)) e ending
    0 hreached).2.1 ⟨by decide, .inl (by decide)⟩⟩

/-- **When a constant divisor of value 0 is a fault.** Take a division at any place of a statement
whose divisor reads no variable. A statement that comes to the end of such a divisor with the value
0 stops there, unless the division stands in the divisor of another one that has read a variable
before, and the divisor holds no division itself. A statement that succeeds has come to the end of
the divisor, so a value of 0 has been passed over for this reason only. -/
theorem constant_zero_divisor_fault (context : Expr.Context) (left right : Expr) (e : Emitter)
    (hconstant : right.loads = []) :
    let tree := context.fill (.binary .div left right)
    let shadowed := ¬ right.hasDivision ∧
      (Action.scanned (context.before ++ left.actions [])).any Action.isLoad
    (∀ ending, Emit.ReachesDivisorEnd e context left right 0 ending →
      (¬ shadowed →
        Emit.statement tree e = .error .zeroDivisor { ending with divisor := .outside }) ∧
      (shadowed → Emit.statement tree e =
        Emit.behindDivisor context { ending with divisor := .outside })) ∧
    (∀ result s, Emit.statement tree e = .ok result s → ∃ value ending,
      Emit.ReachesDivisorEnd e context left right value ending ∧ (value = 0 → shadowed)) := by
  intro tree shadowed
  have hshadowed {value : Int32} {ending : Emitter}
      (h : Emit.ReachesDivisorEnd e context left right value ending) :
      ending.divisor ≠ .varying ↔ ¬ shadowed := by
    rw [h.not_varying_iff_of_constant hconstant, not_and_or, not_not]
  refine ⟨fun ending h => ⟨fun hno => ?_, fun hyes => ?_⟩, fun result s hsuccess => ?_⟩
  · rw [Emit.statement_of_reached h, if_pos ⟨rfl, (hshadowed h).mpr hno⟩]
  · rw [Emit.statement_of_reached h, if_neg fun hrefused => (hshadowed h).mp hrefused.2 hyes]
  · obtain ⟨value, ending, h⟩ := Emit.exists_reached_of_ok hsuccess
    refine ⟨value, ending, h, fun hzero => ?_⟩
    by_contra hno
    have hfault := Emit.statement_of_reached h
    rw [if_pos ⟨hzero, (hshadowed h).mpr hno⟩] at hfault
    cases hsuccess.symm.trans hfault

/-- The statement `1 / (y / (0 / 1))`: the divisor `0 / 1` is constant, and the division in it has
ended the scan that had seen `y`. -/
theorem constant_zero_divisor_fault_division_inside :
    let e : Emitter := { table := { vars := [⟨"y", 5⟩] } }
    let ending : Emitter :=
      { e with
        registers := [0, 5, 1]
        sink := { written := "MOV r0 1\nMOV r1 [0]\nMOV r2 0\nMOV r3 1\nDIV r2 r3\n" }
        log := #[.emit (.mov (.reg 0) (.imm 1)), .emit (.mov (.reg 1) (.mem 0)),
          .emit (.mov (.reg 2) (.imm 0)), .emit (.mov (.reg 3) (.imm 1)),
          .emit (.combine .div 2 3)] }
    (Expr.binary .div (.num 0) (.num 1)).loads = [] ∧
      Emit.ReachesDivisorEnd e (.inRight .div (.num 1) .gap) (.var "y")
        (.binary .div (.num 0) (.num 1)) 0 ending ∧
      Emit.statement
        (.binary .div (.num 1) (.binary .div (.var "y") (.binary .div (.num 0) (.num 1)))) e =
        .error .zeroDivisor ending := by
  intro e ending
  have hopening :
      forM ((Expr.Context.inRight .div (.num 1) .gap).before ++ (Expr.var "y").actions [])
        Action.perform { e with registers := [], divisor := .outside } = .ok ()
          { e with
            registers := [5, 1]
            divisor := .varying
            sink := { written := "MOV r0 1\nMOV r1 [0]\n" }
            log := #[.emit (.mov (.reg 0) (.imm 1)), .emit (.mov (.reg 1) (.mem 0))] } := by cbv
  have hreached : Emit.ReachesDivisorEnd e (.inRight .div (.num 1) .gap) (.var "y")
      (.binary .div (.num 0) (.num 1)) 0 ending := ⟨_, hopening, by cbv⟩
  have hfault := ((constant_zero_divisor_fault (.inRight .div (.num 1) .gap) (.var "y")
    (.binary .div (.num 0) (.num 1)) e (by decide)).1 ending hreached).1 (by decide)
  exact ⟨by decide, hreached, hfault⟩

/-- The statement `x = 1 / (1 + y / 0)` succeeds: the divisor 0 reads no variable, but the enclosing
divisor has read `y`. -/
theorem constant_zero_divisor_passed_over :
    let e : Emitter := { table := { vars := [⟨"x", 0⟩, ⟨"y", 0⟩, ⟨"z", 0⟩] } }
    let context : Expr.Context :=
      .inValue .set "x" (.inRight .div (.num 1) (.inRight .add (.num 1) .gap))
    (Expr.num 0).loads = [] ∧
      (∃ ending, Emit.ReachesDivisorEnd e context (.var "y") (.num 0) 0 ending) ∧
      (Emit.statement (context.fill (.binary .div (.var "y") (.num 0)))).run' e = some 1 := by
  intro e context
  have hopening : forM (context.before ++ (Expr.var "y").actions [])
      Action.perform { e with registers := [], divisor := .outside } = .ok ()
        { e with
          registers := [0, 1, 1]
          divisor := .varying
          sink := { written := "MOV r0 1\nMOV r1 1\nMOV r2 [4]\n" }
          log := #[.emit (.mov (.reg 0) (.imm 1)), .emit (.mov (.reg 1) (.imm 1)),
            .emit (.mov (.reg 2) (.mem 4))] } := by cbv
  exact ⟨by decide, ⟨_, _, hopening, rfl⟩, by cbv⟩

end LineCompiler
