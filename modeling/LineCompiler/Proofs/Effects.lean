import LineCompiler.Proofs.Output
import LineCompiler.Proofs.Variables

/-!
# The effects of the emitter

`Action.effect` says in one place what each action does to the table, the registers and the divisor
scan, and which events it hands on; `performs_perform` shows that carrying out the action does just
that. The rest of the module builds the effects of the larger steps from it: `Emit.statementEffect`
for a statement, `Emit.openingEffect` and `Emit.closingProgram` for the two ends of a program.
-/

namespace LineCompiler

/-! ## Single steps -/

theorem Emit.instruction_apply (i : Instruction) (e : Emitter) (o : Output) :
    instruction i (withOutput e o) =
      if (o.post (.emit i)).1 then .ok () (withOutput e (o.post (.emit i)).2)
      else .error .sinkFailed (withOutput e (o.post (.emit i)).2) := by
  have hrecord : record [.emit i] (withOutput e o) =
      .ok () (withOutput e ⟨o.sink, o.log.push (.emit i)⟩) := rfl
  refine (bind_of_ok hrecord _).trans ?_
  change (if (o.post (.emit i)).1 then pure () else throw .sinkFailed : Emit Unit)
    (withOutput e (o.post (.emit i)).2) = _
  split <;> rfl

namespace Performs

protected theorem record {events : List Event} (h : Event.program events = []) (e : Emitter) :
    Performs (Emit.record events) e ⟨.ok (), e, events⟩ where
  reported := by simp
  kept := rfl
  taken := by
    intro o o' hdeliver
    rw [Output.deliver_of_program_nil h] at hdeliver
    cases hdeliver
    rfl
  refused := by
    intro o o' hdeliver
    rw [Output.deliver_of_program_nil h] at hdeliver
    cases hdeliver

protected theorem instruction (i : Instruction) (e : Emitter) :
    Performs (Emit.instruction i) e ⟨.ok (), e, [.emit i]⟩ where
  reported := by simp
  kept := rfl
  taken := by
    intro o o' hdeliver
    rw [Output.deliver_singleton] at hdeliver
    obtain ⟨htaken, rfl⟩ := Prod.ext_iff.mp hdeliver
    exact (Emit.instruction_apply i e o).trans (if_pos htaken)
  refused := by
    intro o o' hdeliver
    rw [Output.deliver_singleton] at hdeliver
    obtain ⟨hrefused, rfl⟩ := Prod.ext_iff.mp hdeliver
    refine ⟨e, (Emit.instruction_apply i e o).trans (if_neg ?_)⟩
    exact Bool.eq_false_iff.mp hrefused

protected theorem cell (slot : Nat) (e : Emitter) :
    Performs (Emit.cell slot) e ⟨.ok (.mem (e.table.address slot)), e, []⟩ :=
  silent (by simp) rfl (fun _ => rfl)

protected theorem push (source : Operand) (value : Int32) (e : Emitter) :
    Performs (Emit.push source value) e
      ⟨.ok (), { e with registers := value :: e.registers },
        [.emit (.mov (.reg e.registers.length) source)]⟩ := by
  have hpush : Performs (do
      modify fun e => { e with registers := value :: e.registers }
      Emit.instruction (.mov (.reg e.registers.length) source)) e _ :=
    (Performs.modify (fun _ _ => rfl) e).bind_ok (Performs.instruction _ _)
  exact hpush.of_eq (fun _ => rfl)

variable {α : Type} {operation : Table → Except Fault (α × Table)}

theorem onTable_ok {e : Emitter} {a : α} {after : Table}
    (h : operation e.table = .ok (a, after)) :
    Performs (Emit.onTable operation) e
      ⟨.ok a, { e with table := after }, Event.declarations e.table after⟩ := by
  have hrecord : Performs (do
      modify fun e => { e with table := after }
      Emit.record (Event.declarations e.table after)
      return a) e _ :=
    (Performs.modify (fun _ _ => rfl) e).bind_ok
      ((Performs.record (Event.program_declarations _ _) _).bind_ok (Performs.pure a _))
  rw [List.nil_append, List.append_nil] at hrecord
  refine hrecord.of_eq (fun o => ?_)
  have hoperation : operation (withOutput e o).table = .ok (a, after) := h
  simp only [Emit.onTable, bind, EStateM.bind, get, getThe, MonadStateOf.get, EStateM.get,
    hoperation]
  rfl

theorem onTable_error {e : Emitter} {fault : Fault} (h : operation e.table = .error fault)
    (hfault : fault ≠ .sinkFailed) :
    Performs (Emit.onTable operation) e ⟨.error fault, e, []⟩ := by
  refine silent (by simpa using hfault) rfl (fun o => ?_)
  have hoperation : operation (withOutput e o).table = .error fault := h
  simp only [Emit.onTable, bind, EStateM.bind, get, getThe, MonadStateOf.get, EStateM.get,
    hoperation]
  rfl

end Performs

/-! ## Traces -/

namespace Emitter

variable {α : Type} {step : Emit α} {e : Emitter} {effect : Effect Emitter α}

/-- What the emitter hands out while a step is traced. -/
def tracedOutput (e : Emitter) : Output := ⟨⟨e.sink.room, e.sink.flushFails, ""⟩, #[]⟩

theorem cleared_eq (e : Emitter) : e.cleared = withOutput e e.tracedOutput := rfl

theorem run_of_taken (h : Performs step e effect) {o : Output}
    (hdeliver : e.tracedOutput.deliver effect.events = (true, o)) :
    (e.run step).1 = ⟨effect.result, o.sink.written, o.log⟩ := by
  rw [run, cleared_eq, h.taken hdeliver, Effect.into]
  cases effect.result with
  | ok a => rfl
  | error fault => rfl

theorem run_of_refused (h : Performs step e effect) {o : Output}
    (hdeliver : e.tracedOutput.deliver effect.events = (false, o)) :
    (e.run step).1 = ⟨.error .sinkFailed, o.sink.written, o.log⟩ := by
  obtain ⟨t, hrefused⟩ := h.refused hdeliver
  rw [run, cleared_eq, hrefused]
  rfl

/-- The log of a step holds the events of its effect, up to one that the sink does not take. If the
step succeeds, it holds all of them. -/
theorem log_run (h : Performs step e effect) :
    (e.run step).1.log.toList <+: effect.events ∧
      ∀ a, (e.run step).1.result = .ok a →
        effect.result = .ok a ∧ (e.run step).1.log.toList = effect.events := by
  obtain ⟨posted, hprefix, hlog, hall⟩ := e.tracedOutput.log_deliver effect.events
  obtain ⟨taken, o, hdeliver⟩ : ∃ taken o, e.tracedOutput.deliver effect.events = (taken, o) :=
    ⟨_, _, rfl⟩
  rw [hdeliver] at hlog hall
  have hposted : o.log.toList = posted := by
    rw [hlog]
    simp [tracedOutput]
  cases taken with
  | true =>
    rw [run_of_taken h hdeliver]
    refine ⟨hposted ▸ hprefix, fun a hok => ⟨hok, ?_⟩⟩
    rw [← hall rfl]
    exact hposted
  | false =>
    rw [run_of_refused h hdeliver]
    exact ⟨hposted ▸ hprefix, nofun⟩

/-- A sink without a limit takes the text of all instructions. -/
theorem text_run_of_unlimited (h : Performs step e effect) (hroom : e.sink.room = none) :
    (e.run step).1.text = Instruction.lines (e.run step).1.program := by
  have hdeliver := Output.deliver_unlimited e.sink.flushFails "" #[] effect.events
  rw [← hroom] at hdeliver
  rw [run_of_taken h hdeliver, Trace.program]
  simp

/-- A step does what its effect says, unless the sink has too little room for the program. Then the
sink keeps the beginning of the program. -/
theorem run_taken_or_refused (h : Performs step e effect) :
    ((e.run step).1.result = effect.result ∧
      (e.run step).1.text = Instruction.lines (Event.program effect.events) ∧
      (e.run step).2.table = effect.state.table) ∨
    ((e.run step).1.result = .error .sinkFailed ∧ e.sink.room ≠ none ∧
      ∃ lost, Instruction.lines (Event.program effect.events) = (e.run step).1.text ++ lost) := by
  obtain ⟨kept, lost, hlines, hwritten, hall⟩ := e.tracedOutput.written_deliver effect.events
  obtain ⟨taken, o, hdeliver⟩ : ∃ taken o, e.tracedOutput.deliver effect.events = (taken, o) :=
    ⟨_, _, rfl⟩
  rw [hdeliver] at hwritten hall
  have htext : o.sink.written = kept := hwritten.trans String.empty_append
  cases taken with
  | true =>
    have htext : o.sink.written = Instruction.lines (Event.program effect.events) := by
      rw [htext, hlines, hall rfl, String.append_empty]
    rw [run, cleared_eq, h.taken hdeliver, Effect.into]
    cases effect.result with
    | ok a => exact .inl ⟨rfl, htext, rfl⟩
    | error fault => exact .inl ⟨rfl, htext, rfl⟩
  | false =>
    have hroom : e.sink.room ≠ none := by
      intro hroom
      rw [tracedOutput, hroom, Output.deliver_unlimited] at hdeliver
      cases hdeliver
    rw [run_of_refused h hdeliver]
    exact .inr ⟨rfl, hroom, lost, by rw [htext, hlines]⟩

/-- How a step goes whose output is all taken. -/
theorem run_of_unlimited (h : Performs step e effect) (hroom : e.sink.room = none) :
    (e.run step).1.result = effect.result ∧
      (e.run step).1.text = Instruction.lines (Event.program effect.events) ∧
      (e.run step).2.table = effect.state.table := by
  rcases run_taken_or_refused h with htaken | ⟨-, hlimited, -⟩
  · exact htaken
  · exact absurd hroom hlimited

end Emitter

/-! ## Actions -/

namespace Action

/-- What an action does to the table, the registers and the divisor scan, and the events that it
hands on. -/
def effect : Action → Emitter → Effect Emitter Unit
  | literal value, e =>
    ⟨.ok (), { e with registers := value :: e.registers },
      [.emit (.mov (.reg e.registers.length) (.imm value))]⟩
  | load name, e =>
    match e.table.read name with
    | .ok ((slot, value), table) =>
      ⟨.ok (), { e with
          table, registers := value :: e.registers, divisor := e.divisor.readVariable },
        Event.declarations e.table table ++
          [.emit (.mov (.reg e.registers.length) (.mem (table.address slot)))]⟩
    | .error fault => ⟨.error fault, { e with divisor := e.divisor.readVariable }, []⟩
  | enterDivisor, e => ⟨.ok (), { e with divisor := e.divisor.enter }, []⟩
  | leaveDivisor, e =>
    ⟨if e.registers.head? = some 0 ∧ e.divisor ≠ .varying then .error .zeroDivisor else .ok (),
      { e with divisor := .outside }, []⟩
  | combine op, e =>
    ⟨.ok (), { e with registers := foldTop op e.registers },
      [.emit (.combine op (e.registers.length - 2) (e.registers.length - 1))]⟩
  | store name, e =>
    match e.table.write name (e.registers.headD 0) with
    | .ok (slot, table) =>
      ⟨.ok (), { e with table },
        Event.declarations e.table table ++
          [.emit (.mov (.mem (table.address slot)) (.reg (e.registers.length - 1)))]⟩
    | .error fault => ⟨.error fault, e, []⟩

theorem performs_load (name : String) (e : Emitter) :
    Performs (perform (load name)) e (effect (load name) e) := by
  have hmark : Performs (modify fun e => { e with divisor := e.divisor.readVariable } : Emit Unit)
      e _ := Performs.modify (fun _ _ => rfl) e
  rw [effect]
  split
  · rename_i slot value table hread
    exact hmark.bind_ok ((Performs.onTable_ok hread).bind_ok
      ((Performs.cell _ _).bind_ok (Performs.push _ _ _)))
  · rename_i fault hread
    refine hmark.bind_ok ((Performs.onTable_error hread ?_).bind_error)
    rcases (Table.read_eq_error.mp hread).2 with ⟨-, rfl⟩ | ⟨-, -, rfl⟩
    · exact Fault.noConfusion
    · exact Fault.noConfusion

theorem performs_store (name : String) (e : Emitter) :
    Performs (perform (store name)) e (effect (store name) e) := by
  -- the registers are looked up before anything is handed on
  have hlookup (effect : Effect Emitter Unit) : Performs (do
      let slot ← Emit.onTable (·.write name (e.registers.headD 0))
      Emit.instruction (.mov (← Emit.cell slot) (.reg (e.registers.length - 1)))) e effect →
      Performs (perform (store name)) e effect := fun h => h.of_eq (fun _ => rfl)
  rw [effect]
  split
  · rename_i slot table hwrite
    exact hlookup _ ((Performs.onTable_ok hwrite).bind_ok
      ((Performs.cell _ _).bind_ok (Performs.instruction _ _)))
  · rename_i fault hwrite
    refine hlookup _ ((Performs.onTable_error hwrite ?_).bind_error)
    rw [(Table.write_eq_error.mp hwrite).2.2]
    exact Fault.noConfusion

theorem performs_combine (op : BinOp) (e : Emitter) :
    Performs (perform (combine op)) e (effect (combine op) e) := by
  have hcombine : Performs (do
      Emit.instruction (.combine op (e.registers.length - 2) (e.registers.length - 1))
      modify fun e => { e with registers := foldTop op e.registers }) e _ :=
    (Performs.instruction _ e).bind_ok (Performs.modify (fun _ _ => rfl) _)
  exact hcombine.of_eq (fun _ => rfl)

theorem perform_leaveDivisor (e : Emitter) :
    perform leaveDivisor e =
      if e.registers.head? = some 0 ∧ e.divisor ≠ .varying then
        .error .zeroDivisor { e with divisor := .outside }
      else .ok () { e with divisor := .outside } := by
  have hcheck : perform leaveDivisor e =
      (if e.registers.head? = some 0 ∧ e.divisor ≠ .varying then throw .zeroDivisor else pure () :
        Emit Unit) { e with divisor := .outside } := rfl
  rw [hcheck]
  split
  · rfl
  · rfl

theorem performs_leaveDivisor (e : Emitter) :
    Performs (perform leaveDivisor) e (effect leaveDivisor e) := by
  by_cases h : e.registers.head? = some 0 ∧ e.divisor ≠ .varying
  · rw [effect, if_pos h]
    refine Performs.silent (by simp) rfl (fun o => ?_)
    exact (perform_leaveDivisor (withOutput e o)).trans (if_pos h)
  · rw [effect, if_neg h]
    refine Performs.silent (by simp) rfl (fun o => ?_)
    exact (perform_leaveDivisor (withOutput e o)).trans (if_neg h)

/-- Carrying out an action has the effect of the action. -/
theorem performs_perform (a : Action) (e : Emitter) : Performs a.perform e (a.effect e) := by
  cases a with
  | literal value => exact Performs.push _ _ _
  | load name => exact performs_load name e
  | enterDivisor => exact Performs.modify (fun _ _ => rfl) e
  | leaveDivisor => exact performs_leaveDivisor e
  | combine op => exact performs_combine op e
  | store name => exact performs_store name e

theorem length_foldTop_congr (op : BinOp) {registers registers' : List Int32}
    (h : registers'.length = registers.length) :
    (foldTop op registers').length = (foldTop op registers).length := by
  match registers, registers', h with
  | [], [], _ | [_], [_], _ => rfl
  | _ :: _ :: rest, _ :: _ :: rest', h =>
    simp only [List.length_cons] at h
    simp only [foldTop, List.length_cons]
    omega

/-- The effect of several actions, one after the other. -/
def effects : List Action → Emitter → Effect Emitter Unit
  | [], e => ⟨.ok (), e, []⟩
  | a :: rest, e => (a.effect e).andThen fun _ e => effects rest e

theorem performs_forM (actions : List Action) (e : Emitter) :
    Performs (forM actions perform) e (effects actions e) := by
  induction actions generalizing e with
  | nil => exact Performs.pure () e
  | cons a rest ih => exact (performs_perform a e).bind (fun _ _ => ih _)

end Action

/-! ## Statements -/

namespace Emit

def statementEffect (tree : Expr) (e : Emitter) : Effect Emitter Int32 :=
  (Action.effects (tree.actions []) { e with registers := [], divisor := .outside }).andThen
    fun _ e => ⟨.ok (e.registers.headD 0), e, []⟩

theorem performs_statement (tree : Expr) (e : Emitter) :
    Performs (statement tree) e (statementEffect tree e) := by
  have hstart : Performs (modify fun e => { e with registers := [], divisor := .outside } :
      Emit Unit) e _ := Performs.modify (fun _ _ => rfl) e
  have hvalue (e : Emitter) : Performs (do return (← get).registers.headD 0 : Emit Int32) e
      ⟨.ok (e.registers.headD 0), e, []⟩ := Performs.silent (by simp) rfl (fun _ => rfl)
  refine hstart.bind_silent ?_
  exact (Action.performs_forM _ _).bind (fun _ _ => hvalue _)

/-- The effect of a statement together with the events that tell of its tree and its value. -/
def loggedEffect (logTree : Bool) (line : Nat) (tree : Expr) (e : Emitter) :
    Effect Emitter Unit :=
  (⟨.ok (), e, if logTree then [.parsed line tree] else []⟩ : Effect Emitter Unit).andThen
    fun _ e => (statementEffect tree e).andThen fun value e => ⟨.ok (), e, [.compiled line value]⟩

theorem performs_loggedStatement (logTree : Bool) (line : Nat) (tree : Expr) (e : Emitter) :
    Performs (loggedStatement logTree line tree) e (loggedEffect logTree line tree e) := by
  have hvalue (value : Int32) (e : Emitter) : Performs (record [.compiled line value]) e
      ⟨.ok (), e, [.compiled line value]⟩ := Performs.record rfl e
  have hstatement : Performs (do
      let value ← statement tree
      record [.compiled line value]) e
      ((statementEffect tree e).andThen fun value e => ⟨.ok (), e, [.compiled line value]⟩) :=
    (performs_statement tree e).bind (fun value _ => hvalue value _)
  cases logTree with
  | false => exact hstatement.of_eq (fun _ => rfl)
  | true =>
    have hparsed : Performs (record [.parsed line tree]) e ⟨.ok (), e, [.parsed line tree]⟩ :=
      Performs.record rfl e
    exact hparsed.bind_ok hstatement

/-! ## The two ends of a program -/

/-- The effect of declaring one variable and loading it into a register. -/
def predeclareEffect (name : String) (reg : Nat) (e : Emitter) : Effect Emitter Unit :=
  match e.table.declare name 0 with
  | .ok (slot, table) =>
    ⟨.ok (), { e with table },
      Event.declarations e.table table ++ [.emit (.preload reg (table.address slot))]⟩
  | .error fault => ⟨.error fault, e, []⟩

/-- The effect of declaring variables and loading each into a register of its own. -/
def openingEffect : List (String × Nat) → Emitter → Effect Emitter Unit
  | [], e => ⟨.ok (), e, []⟩
  | (name, reg) :: rest, e =>
    (predeclareEffect name reg e).andThen fun _ e => openingEffect rest e

section Opening

variable {e : Emitter} {pair : String × Nat} {rest : List (String × Nat)}

/-- While there is room, the first of the variables takes the next slot. -/
theorem openingEffect_of_room (h : e.table.size < e.table.config.capacity) :
    openingEffect (pair :: rest) e =
      (⟨.ok (), { e with table := e.table.extend pair.1 0 },
        Event.declarations e.table (e.table.extend pair.1 0) ++
          [.emit (.preload pair.2 (e.table.address e.table.size))]⟩ :
        Effect Emitter Unit).andThen fun _ e => openingEffect rest e := by
  have hdeclare : e.table.declare pair.1 0 = .ok (e.table.size, e.table.extend pair.1 0) :=
    Table.declare_eq_ok.mpr ⟨h, rfl, rfl⟩
  rw [openingEffect, predeclareEffect, hdeclare]
  rfl

theorem openingEffect_of_full (h : e.table.config.capacity ≤ e.table.size) :
    openingEffect (pair :: rest) e = ⟨.error (.tableFull e.table.config.capacity), e, []⟩ := by
  have hdeclare : e.table.declare pair.1 0 = .error (.tableFull e.table.config.capacity) :=
    Table.declare_eq_error.mpr ⟨h, rfl⟩
  rw [openingEffect, predeclareEffect, hdeclare]
  rfl

/-- The predeclared variables need a slot each. -/
theorem openingEffect_ok_iff (h : e.table.size ≤ e.table.config.capacity)
    (pairs : List (String × Nat)) :
    (openingEffect pairs e).result = .ok () ↔
      e.table.size + pairs.length ≤ e.table.config.capacity := by
  induction pairs generalizing e with
  | nil => simpa [openingEffect] using h
  | cons pair rest ih =>
    rw [List.length_cons]
    rcases Nat.lt_or_ge e.table.size e.table.config.capacity with hroom | hfull
    · have hrest := ih (e := { e with table := e.table.extend pair.1 0 })
      rw [Table.size_extend, Table.config_extend] at hrest
      rw [openingEffect_of_room hroom, Effect.andThen_of_ok rfl, hrest hroom]
      omega
    · rw [openingEffect_of_full hfull]
      constructor
      · intro hok
        cases hok
      · omega

end Opening

theorem performs_predeclare (name : String) (reg : Nat) (e : Emitter) :
    Performs (do
      let slot ← onTable (·.declare name 0)
      instruction (.preload reg ((← get).table.address slot))) e (predeclareEffect name reg e) := by
  rw [predeclareEffect]
  split
  · rename_i slot table hdeclare
    exact (Performs.onTable_ok hdeclare).bind_ok
      ((Performs.instruction (.preload reg (table.address slot)) _).of_eq (fun _ => rfl))
  · rename_i fault hdeclare
    refine (Performs.onTable_error hdeclare ?_).bind_error
    rw [(Table.declare_eq_error.mp hdeclare).2]
    exact Fault.noConfusion

theorem performs_opening (e : Emitter) :
    Performs opening e (openingEffect predeclared.zipIdx e) := by
  unfold opening
  induction predeclared.zipIdx generalizing e with
  | nil => exact Performs.pure () e
  | cons pair rest ih =>
    exact (performs_predeclare pair.1 pair.2 e).bind (fun _ _ => ih _)

/-- The instructions that end a program: the predeclared variables go into registers. -/
def closingProgram (t : Table) : List Instruction :=
  (List.range predeclared.length).map (fun slot => .mov (.reg slot) (.mem (t.address slot))) ++
    [.exit 0]

/-- The end of a program without the flush behind it. -/
def closingLines : Emit Unit := do
  forM (List.range predeclared.length) fun slot => do
    instruction (.mov (.reg slot) (← cell slot))
  instruction (.exit 0)

theorem closing_eq : closing = closingLines >>= fun _ => flush := by
  rw [closing, closingLines, bind_assoc]

theorem performs_closingLines (e : Emitter) :
    Performs closingLines e ⟨.ok (), e, (closingProgram e.table).map .emit⟩ := by
  have hloads (slots : List Nat) : Performs (forM slots fun slot => do
      instruction (.mov (.reg slot) (← cell slot))) e
      ⟨.ok (), e, slots.map fun slot =>
        .emit (.mov (.reg slot) (.mem (e.table.address slot)))⟩ := by
    induction slots with
    | nil => exact Performs.pure () e
    | cons slot slots ih =>
      have hload : Performs (do instruction (.mov (.reg slot) (← cell slot))) e _ :=
        (Performs.cell slot e).bind_ok (Performs.instruction _ e)
      exact hload.bind_ok ih
  rw [closingProgram, List.map_append, List.map_map]
  exact (hloads _).bind_ok (Performs.instruction _ e)

theorem flush_of_ok {e : Emitter} (h : e.sink.flushFails = false) : flush e = .ok () e := by
  have hcheck :
      flush e = (if e.sink.flushFails then throw .sinkFailed else pure () : Emit Unit) e :=
    rfl
  rw [hcheck, h]
  rfl

theorem flush_of_failing {e : Emitter} (h : e.sink.flushFails = true) :
    flush e = .error .sinkFailed e := by
  have hcheck :
      flush e = (if e.sink.flushFails then throw .sinkFailed else pure () : Emit Unit) e :=
    rfl
  rw [hcheck, h]
  rfl

end Emit

end LineCompiler
