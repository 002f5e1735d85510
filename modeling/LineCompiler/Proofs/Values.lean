import LineCompiler.Proofs.Effects

/-!
# What depends on values

While it writes a program, the emitter follows the values of variables and registers. One thing only
depends on them: whether the end of a divisor is a fault. Two runs of a statement from tables that
differ in values therefore write the same text for as long as neither of them stops there.

* `Table.SameNames t t'`: the tables hold the same names in the same slots. `Table.SameNames.read`
  and `Table.SameNames.write` say that the operations on them find the same slots or the same fault.
* `Emitter.UpToValues e f`: the emitters differ in values at most.
* `Emit.Parallel R step step'`: from such emitters, both steps end in the same way. It has one rule
  for each way of building steps, and `Action.parallel_perform` covers all actions but one.
* `Emit.Compared`: how two runs can end with that action among them. `Action.compared_forM` is the
  result for a sequence of actions.
-/

namespace LineCompiler

/-! ## Tables -/

namespace Table

/-- The tables hold the same names in the same slots, under the same configuration. -/
structure SameNames (t t' : Table) : Prop where
  config_eq : t'.config = t.config
  names_eq : t'.names = t.names

/-- An operation on two tables finds the same fault, or related answers and again the same names. -/
inductive Agree {α : Type} (R : α → α → Prop) (answer answer' : Except Fault (α × Table)) : Prop
  | ok {a a' : α} {t t' : Table} (h : answer = .ok (a, t)) (h' : answer' = .ok (a', t'))
      (hR : R a a') (hnames : SameNames t t')
  | error {fault : Fault} (h : answer = .error fault) (h' : answer' = .error fault)

namespace SameNames

variable {t t' : Table} {name : String}

theorem size_eq (h : SameNames t t') : t'.size = t.size := by
  rw [← length_names, h.names_eq, length_names]

theorem slot?_eq (h : SameNames t t') (name : String) : t'.slot? name = t.slot? name := by
  rw [slot?_eq_idxOf?, slot?_eq_idxOf?, h.names_eq]

theorem address_eq (h : SameNames t t') (slot : Nat) : t'.address slot = t.address slot := by
  rw [address, address, h.config_eq]

theorem extend (h : SameNames t t') (name : String) (value value' : Int32) :
    SameNames (t.extend name value) (t'.extend name value') where
  config_eq := h.config_eq
  names_eq := by rw [names_extend, names_extend, h.names_eq]

theorem assign (h : SameNames t t') (slot : Nat) (value value' : Int32) :
    SameNames (t.assign slot value) (t'.assign slot value') where
  config_eq := h.config_eq
  names_eq := by rw [names_assign, names_assign, h.names_eq]

theorem read (h : SameNames t t') (name : String) :
    Agree (fun a a' => a'.1 = a.1) (t.read name) (t'.read name) := by
  have hslots := h.slot?_eq name
  have hsizes := h.size_eq
  cases hread : t.read name with
  | ok answer =>
    obtain ⟨⟨slot, value⟩, table⟩ := answer
    rcases read_eq_ok.mp hread with ⟨hslot, -, rfl⟩ | ⟨hslot, hroom, hmode, rfl, rfl, rfl⟩
    · obtain ⟨value', hvalue⟩ := exists_value?_of_slot? (hslots.trans hslot)
      exact .ok rfl (read_eq_ok.mpr (.inl ⟨hslots.trans hslot, hvalue, rfl⟩)) rfl h
    · have hread' : t'.read name = .ok ((t'.size, 0), t'.extend name 0) := by
        refine read_eq_ok.mpr (.inr ⟨hslots.trans hslot, ?_, ?_, rfl, rfl, rfl⟩)
        · rwa [hsizes, h.config_eq]
        · rwa [h.config_eq]
      exact .ok rfl hread' hsizes (h.extend name 0 0)
  | error fault =>
    have hread' : t'.read name = .error fault := by
      rw [read_eq_error, hslots, hsizes, h.config_eq]
      exact read_eq_error.mp hread
    exact .error rfl hread'

theorem write (h : SameNames t t') (name : String) (value value' : Int32) :
    Agree Eq (t.write name value) (t'.write name value') := by
  have hslots := h.slot?_eq name
  have hsizes := h.size_eq
  cases hwrite : t.write name value with
  | ok answer =>
    obtain ⟨slot, table⟩ := answer
    rcases write_eq_ok.mp hwrite with ⟨hslot, rfl⟩ | ⟨hslot, hroom, rfl, rfl⟩
    · have hwrite' : t'.write name value' = .ok (slot, t'.assign slot value') :=
        write_eq_ok.mpr (.inl ⟨hslots.trans hslot, rfl⟩)
      exact .ok rfl hwrite' rfl (h.assign slot value value')
    · have hwrite' : t'.write name value' = .ok (t'.size, t'.extend name value') := by
        refine write_eq_ok.mpr (.inr ⟨hslots.trans hslot, ?_, rfl, rfl⟩)
        rwa [hsizes, h.config_eq]
      exact .ok rfl hwrite' hsizes.symm (h.extend name value value')
  | error fault =>
    have hwrite' : t'.write name value' = .error fault := by
      rw [write_eq_error, hslots, hsizes, h.config_eq]
      exact write_eq_error.mp hwrite
    exact .error rfl hwrite'

end SameNames

end Table

/-! ## Steps side by side -/

/-- The emitters differ in the values of variables and registers, and in their logs. -/
structure Emitter.UpToValues (e f : Emitter) : Prop where
  table : e.table.SameNames f.table
  sink_eq : f.sink = e.sink
  depth_eq : f.registers.length = e.registers.length
  divisor_eq : f.divisor = e.divisor

namespace Emit

open Emitter (UpToValues)

/-- Two steps end with related results or with the same fault, and their emitters differ in values
at most. -/
inductive EndAlike {α : Type} (R : α → α → Prop) (r r' : EStateM.Result Fault Emitter α) : Prop
  | ok {a a' : α} {e f : Emitter} (h : r = .ok a e) (h' : r' = .ok a' f) (hR : R a a')
      (hvalues : UpToValues e f)
  | error {fault : Fault} {e f : Emitter} (h : r = .error fault e) (h' : r' = .error fault f)
      (hvalues : UpToValues e f)

/-- From emitters that differ in values at most, both steps end in the same way. -/
def Parallel {α : Type} (R : α → α → Prop) (step step' : Emit α) : Prop :=
  ∀ e f : Emitter, UpToValues e f → EndAlike R (step e) (step' f)

namespace Parallel

variable {α β : Type} {R : α → α → Prop} {S : β → β → Prop}

protected theorem pure {a a' : α} (h : R a a') : Parallel R (pure a) (pure a') :=
  fun _ _ hvalues => .ok rfl rfl h hvalues

protected theorem throw (fault : Fault) : Parallel R (throw fault) (throw fault) :=
  fun _ _ hvalues => .error rfl rfl hvalues

protected theorem bind {step step' : Emit α} {next next' : α → Emit β} (h : Parallel R step step')
    (hnext : ∀ a a', R a a' → Parallel S (next a) (next' a')) :
    Parallel S (step >>= next) (step' >>= next') := by
  intro e f hvalues
  cases h e f hvalues with
  | ok hstep hstep' hR hvalues =>
    rw [bind_of_ok hstep, bind_of_ok hstep']
    exact hnext _ _ hR _ _ hvalues
  | error hstep hstep' hvalues =>
    exact .error (bind_of_error hstep next) (bind_of_error hstep' next') hvalues

theorem get_bind {next next' : Emitter → Emit β}
    (hnext : ∀ e f, UpToValues e f → Parallel S (next e) (next' f)) :
    Parallel S (get >>= next) (get >>= next') :=
  fun e f hvalues => hnext e f hvalues e f hvalues

protected theorem modify {g g' : Emitter → Emitter}
    (h : ∀ e f, UpToValues e f → UpToValues (g e) (g' f)) :
    Parallel Eq (modify g) (modify g') :=
  fun e f hvalues => .ok rfl rfl rfl (h e f hvalues)

protected theorem record (events events' : List Event) :
    Parallel Eq (record events) (record events') :=
  Parallel.modify fun _ _ hvalues =>
    ⟨hvalues.table, hvalues.sink_eq, hvalues.depth_eq, hvalues.divisor_eq⟩

/-- Both sinks are given the same text, and have the same room for it. -/
protected theorem instruction (i : Instruction) :
    Parallel Eq (instruction i) (instruction i) := by
  refine (Parallel.record [.emit i] [.emit i]).bind fun _ _ _ => ?_
  have hput : Parallel Eq
      (modifyGet fun e => ((e.sink.put i.line).1, { e with sink := (e.sink.put i.line).2 }))
      (modifyGet fun e => ((e.sink.put i.line).1, { e with sink := (e.sink.put i.line).2 })) := by
    intro e f hvalues
    have hsinks := congrArg (Sink.put · i.line) hvalues.sink_eq
    refine .ok rfl rfl (congrArg Prod.fst hsinks).symm ?_
    exact ⟨hvalues.table, congrArg Prod.snd hsinks, hvalues.depth_eq, hvalues.divisor_eq⟩
  refine hput.bind ?_
  rintro taken _ rfl
  cases taken with
  | true => exact Parallel.pure rfl
  | false => exact Parallel.throw .sinkFailed

protected theorem onTable {operation operation' : Table → Except Fault (α × Table)}
    (h : ∀ t t', t.SameNames t' → Table.Agree R (operation t) (operation' t')) :
    Parallel R (onTable operation) (onTable operation') := by
  refine get_bind fun e f hvalues => ?_
  cases h _ _ hvalues.table with
  | ok hanswer hanswer' hR hnames =>
    simp only [hanswer, hanswer']
    refine (Parallel.modify fun _ _ hvalues => ?_).bind fun _ _ _ =>
      (Parallel.record _ _).bind fun _ _ _ => Parallel.pure hR
    exact ⟨hnames, hvalues.sink_eq, hvalues.depth_eq, hvalues.divisor_eq⟩
  | error hanswer hanswer' =>
    simp only [hanswer, hanswer']
    exact Parallel.throw _

protected theorem cell (slot : Nat) : Parallel Eq (cell slot) (cell slot) :=
  get_bind fun _ _ hvalues =>
    Parallel.pure (congrArg Operand.mem (hvalues.table.address_eq slot).symm)

protected theorem push (source : Operand) (value value' : Int32) :
    Parallel Eq (push source value) (push source value') := by
  refine get_bind fun e f hvalues => ?_
  rw [hvalues.depth_eq]
  refine (Parallel.modify fun _ _ hvalues => ?_).bind fun _ _ _ => Parallel.instruction _
  exact ⟨hvalues.table, hvalues.sink_eq, congrArg Nat.succ hvalues.depth_eq, hvalues.divisor_eq⟩

end Parallel

end Emit

namespace Action

open Emit

/-- Values decide nothing but how the end of a divisor goes. -/
theorem parallel_perform {a : Action} (h : a ≠ leaveDivisor) :
    Parallel Eq a.perform a.perform := by
  cases a with
  | literal value => exact Parallel.push _ _ _
  | load name =>
    refine (Parallel.modify ?_).bind fun _ _ _ =>
      (Parallel.onTable fun _ _ hnames => hnames.read name).bind ?_
    · intro e f hvalues
      have hdivisor := congrArg DivisorScan.readVariable hvalues.divisor_eq
      exact ⟨hvalues.table, hvalues.sink_eq, hvalues.depth_eq, hdivisor⟩
    · -- the values that are found may differ, but their slot does not
      rintro ⟨_, value⟩ ⟨slot, value'⟩ rfl
      refine (Parallel.cell slot).bind ?_
      rintro source _ rfl
      exact Parallel.push source value value'
  | enterDivisor =>
    refine Parallel.modify fun e f hvalues => ?_
    have hdivisor := congrArg DivisorScan.enter hvalues.divisor_eq
    exact ⟨hvalues.table, hvalues.sink_eq, hvalues.depth_eq, hdivisor⟩
  | leaveDivisor => exact absurd rfl h
  | combine op =>
    refine Parallel.get_bind fun e f hvalues => ?_
    rw [hvalues.depth_eq]
    refine (Parallel.instruction _).bind fun _ _ _ => Parallel.modify fun e f hvalues => ?_
    have hdepth := length_foldTop_congr op hvalues.depth_eq
    exact ⟨hvalues.table, hvalues.sink_eq, hdepth, hvalues.divisor_eq⟩
  | store name =>
    refine Parallel.get_bind fun e f hvalues => ?_
    -- the registers are looked up before the table changes, so their number is known here
    dsimp only
    rw [hvalues.depth_eq]
    refine (Parallel.onTable fun _ _ hnames => hnames.write name _ _).bind ?_
    rintro slot _ rfl
    refine (Parallel.cell slot).bind ?_
    rintro target _ rfl
    exact Parallel.instruction _

end Action

/-! ## Runs side by side -/

/-- The second sink holds what the first one holds, and perhaps more behind it. -/
def Sink.Begins (s s' : Sink) : Prop := ∃ more, s'.written = s.written ++ more

namespace Sink.Begins

protected theorem refl (s : Sink) : Begins s s := ⟨"", String.append_empty.symm⟩

protected theorem trans {s s' s'' : Sink} (h : Begins s s') (h' : Begins s' s'') :
    Begins s s'' := by
  obtain ⟨more, hmore⟩ := h
  obtain ⟨rest, hrest⟩ := h'
  exact ⟨more ++ rest, by rw [hrest, hmore, String.append_assoc]⟩

end Sink.Begins

/-- The emitter that a step leaves. -/
def Emit.left {α : Type} : EStateM.Result Fault Emitter α → Emitter
  | .ok _ e | .error _ e => e

theorem Emitter.text_run {α : Type} (e : Emitter) (step : Emit α) :
    (e.run step).1.text = (Emit.left (step e.cleared)).sink.written := by
  rw [Emitter.run]
  split
  · rename_i hstep
    rw [hstep]
    rfl
  · rename_i hstep
    rw [hstep]
    rfl

namespace Emit

open Emitter (UpToValues)

/-- A step adds to the text in the sink. -/
theorem begins_of_performs {α : Type} {step : Emit α} {e : Emitter} {effect : Effect Emitter α}
    (h : Performs step e effect) : e.sink.Begins (left (step e)).sink := by
  obtain ⟨taken, o, hdeliver⟩ : ∃ taken o, (output e).deliver effect.events = (taken, o) :=
    ⟨_, _, rfl⟩
  have hbegins : e.sink.Begins o.sink := by
    obtain ⟨kept, lost, -, hwritten, -⟩ := (output e).written_deliver effect.events
    rw [hdeliver] at hwritten
    exact ⟨kept, hwritten⟩
  cases taken with
  | true =>
    have hstep := h.taken hdeliver
    rw [HasOutput.withOutput_output] at hstep
    rw [hstep, Effect.into]
    split
    · exact hbegins
    · exact hbegins
  | false =>
    obtain ⟨t, hstep⟩ := h.refused hdeliver
    rw [HasOutput.withOutput_output] at hstep
    rw [hstep]
    exact hbegins

/-- The first step stops at the end of a divisor, with a text that the other one begins with. -/
def StopsBefore {α : Type} (r r' : EStateM.Result Fault Emitter α) : Prop :=
  ∃ e, r = .error .zeroDivisor e ∧ e.sink.Begins (left r').sink

/-- Two steps end in the same way, or one of them stops at the end of a divisor before the other
one does. -/
inductive Compared {α : Type} (R : α → α → Prop) (r r' : EStateM.Result Fault Emitter α) : Prop
  | alike (h : EndAlike R r r')
  | first (h : StopsBefore r r')
  | second (h : StopsBefore r' r)

variable {α β : Type} {R : α → α → Prop} {S : β → β → Prop} {step step' : Emit α}
  {next next' : α → Emit β} {e f : Emitter}

theorem StopsBefore.bind (h : StopsBefore (step e) (step' f))
    (hadds : ∀ (a : α) (f : Emitter), f.sink.Begins (left (next' a f)).sink) :
    StopsBefore ((step >>= next) e) ((step' >>= next') f) := by
  obtain ⟨t, hstep, hbegins⟩ := h
  refine ⟨t, bind_of_error hstep next, ?_⟩
  cases hstep' : step' f with
  | ok a u =>
    rw [hstep'] at hbegins
    rw [bind_of_ok hstep']
    exact hbegins.trans (hadds a u)
  | error fault u =>
    rw [hstep'] at hbegins
    rw [bind_of_error hstep']
    exact hbegins

theorem Compared.bind (h : Compared R (step e) (step' f))
    (hadds : ∀ (a : α) (e : Emitter), e.sink.Begins (left (next a e)).sink)
    (hadds' : ∀ (a : α) (f : Emitter), f.sink.Begins (left (next' a f)).sink)
    (hnext : ∀ a a' e f, R a a' → UpToValues e f → Compared S (next a e) (next' a' f)) :
    Compared S ((step >>= next) e) ((step' >>= next') f) := by
  cases h with
  | first hstops => exact .first (hstops.bind hadds')
  | second hstops => exact .second (hstops.bind hadds)
  | alike h =>
    cases h with
    | ok hstep hstep' hR hvalues =>
      rw [bind_of_ok hstep, bind_of_ok hstep']
      exact hnext _ _ _ _ hR hvalues
    | error hstep hstep' hvalues =>
      exact .alike (.error (bind_of_error hstep next) (bind_of_error hstep' next') hvalues)

theorem StopsBefore.run (h : StopsBefore (step e.cleared) (step' f.cleared)) :
    (e.run step).1.result = .error .zeroDivisor ∧
      ∃ rest, (f.run step').1.text = (e.run step).1.text ++ rest := by
  obtain ⟨t, hstep, hbegins⟩ := h
  rw [Emitter.run, hstep, Emitter.text_run]
  exact ⟨rfl, hbegins⟩

theorem EndAlike.run (h : EndAlike R (step e.cleared) (step' f.cleared)) :
    (f.run step').1.text = (e.run step).1.text ∧
      ((∃ a a', (e.run step).1.result = .ok a ∧ (f.run step').1.result = .ok a') ∨
        ∃ fault, (e.run step).1.result = .error fault ∧ (f.run step').1.result = .error fault) ∧
      (e.run step).2.table.SameNames (f.run step').2.table := by
  cases h with
  | ok hstep hstep' _ hvalues =>
    rw [Emitter.run, Emitter.run, hstep, hstep']
    exact ⟨congrArg Sink.written hvalues.sink_eq, .inl ⟨_, _, rfl, rfl⟩, hvalues.table⟩
  | error hstep hstep' hvalues =>
    rw [Emitter.run, Emitter.run, hstep, hstep']
    exact ⟨congrArg Sink.written hvalues.sink_eq, .inr ⟨_, rfl, rfl⟩, hvalues.table⟩

end Emit

namespace Action

open Emit
open Emitter (UpToValues)

variable {e f : Emitter}

theorem compared_perform (a : Action) (h : UpToValues e f) :
    Compared Eq (a.perform e) (a.perform f) := by
  by_cases ha : a = leaveDivisor
  · subst ha
    have hleft : UpToValues { e with divisor := .outside } { f with divisor := .outside } :=
      ⟨h.table, h.sink_eq, h.depth_eq, rfl⟩
    have hsinks : e.sink.Begins f.sink := h.sink_eq ▸ .refl _
    have hsinks' : f.sink.Begins e.sink := h.sink_eq ▸ .refl _
    have hends (e : Emitter) : perform leaveDivisor e = .ok () { e with divisor := .outside } ∨
        perform leaveDivisor e = .error .zeroDivisor { e with divisor := .outside } := by
      rw [perform_leaveDivisor]
      split
      · exact .inr rfl
      · exact .inl rfl
    rcases hends e with he | he
    · rcases hends f with hf | hf
      · exact .alike (.ok he hf rfl hleft)
      · exact .second ⟨_, hf, by rwa [he]⟩
    · rcases hends f with hf | hf
      · exact .first ⟨_, he, by rwa [hf]⟩
      · exact .alike (.error he hf hleft)
  · exact .alike (parallel_perform ha e f h)

theorem compared_forM (actions : List Action) (h : UpToValues e f) :
    Compared Eq (forM actions perform e) (forM actions perform f) := by
  induction actions generalizing e f with
  | nil => exact .alike (Parallel.pure rfl e f h)
  | cons a rest ih =>
    have hadds (_ : Unit) (e : Emitter) : e.sink.Begins (left (forM rest perform e)).sink :=
      begins_of_performs (performs_forM rest e)
    exact (compared_perform a h).bind hadds hadds fun _ _ _ _ _ hvalues => ih hvalues

end Action

/-- Two runs of a statement from emitters that differ in values at most. -/
theorem Emit.compared_statement (tree : Expr) {e f : Emitter} (h : e.UpToValues f) :
    Compared (fun _ _ => True) (statement tree e) (statement tree f) := by
  have hstart : Emitter.UpToValues { e with registers := [], divisor := .outside }
      { f with registers := [], divisor := .outside } := ⟨h.table, h.sink_eq, rfl, rfl⟩
  have hadds (_ : Unit) (e : Emitter) : e.sink.Begins
      (left ((do return (← get).registers.headD 0 : Emit Int32) e)).sink := .refl e.sink
  refine (Action.compared_forM (tree.actions []) hstart).bind hadds hadds ?_
  intro _ _ e f _ hvalues
  exact .alike (Parallel.get_bind (fun _ _ _ => Parallel.pure trivial) e f hvalues)

/-- **Values do not reach the program.** Let two tables hold the same names in the same slots. Of
the texts that a statement writes from them, one begins with the other. Unless one of the runs stops
at a divisor that is zero, the texts are the same, both runs succeed or both stop at the same fault,
and they leave the same names in the same slots. -/
theorem values_do_not_reach_program (e : Emitter) (t t' : Table) (tree : Expr)
    (hconfig : t'.config = t.config) (hnames : t'.names = t.names) :
    let run := Emitter.run { e with table := t } (Emit.statement tree)
    let run' := Emitter.run { e with table := t' } (Emit.statement tree)
    ((∃ rest, run'.1.text = run.1.text ++ rest) ∨ ∃ rest, run.1.text = run'.1.text ++ rest) ∧
    (run.1.result ≠ .error .zeroDivisor → run'.1.result ≠ .error .zeroDivisor →
      run'.1.text = run.1.text ∧
      ((∃ value value', run.1.result = .ok value ∧ run'.1.result = .ok value') ∨
        ∃ fault, run.1.result = .error fault ∧ run'.1.result = .error fault) ∧
      run'.2.table.config = run.2.table.config ∧ run'.2.table.names = run.2.table.names) := by
  intro run run'
  have hvalues : Emitter.UpToValues (Emitter.cleared { e with table := t })
      (Emitter.cleared { e with table := t' }) := ⟨⟨hconfig, hnames⟩, rfl, rfl, rfl⟩
  cases Emit.compared_statement tree hvalues with
  | first hstops =>
    obtain ⟨hresult, hbegins⟩ := hstops.run
    exact ⟨.inl hbegins, fun hne _ => absurd hresult hne⟩
  | second hstops =>
    obtain ⟨hresult, hbegins⟩ := hstops.run
    exact ⟨.inr hbegins, fun _ hne => absurd hresult hne⟩
  | alike h =>
    obtain ⟨htext, hresults, htables⟩ := h.run
    refine ⟨.inl ⟨"", ?_⟩, fun _ _ => ⟨htext, hresults, htables.config_eq, htables.names_eq⟩⟩
    rw [String.append_empty]
    exact htext

/-- The statement `1 / (y / 1)` reads `y`, but the scan for variables ends with the inner divisor.
It stops if `y` is 0, and two other values make no difference. -/
theorem values_do_not_reach_program_hidden_zero :
    let run (value : Int32) := Emitter.run { table := { vars := [⟨"y", value⟩] } }
      (Emit.statement (.binary .div (.num 1) (.binary .div (.var "y") (.num 1))))
    (run 0).1.result = .error .zeroDivisor ∧ (run 1).1.result = .ok 1 ∧ (run 2).1.result = .ok 0 ∧
    ((∃ rest, (run 1).1.text = (run 0).1.text ++ rest) ∨
      ∃ rest, (run 0).1.text = (run 1).1.text ++ rest) ∧
    (run 2).1.text = (run 1).1.text := by
  have hruns (value value' : Int32) := values_do_not_reach_program { table := {} }
    { vars := [⟨"y", value⟩] } { vars := [⟨"y", value'⟩] }
    (.binary .div (.num 1) (.binary .div (.var "y") (.num 1))) rfl rfl
  have hzero : (Emitter.run { table := { vars := [⟨"y", 0⟩] } } (Emit.statement (.binary .div
      (.num 1) (.binary .div (.var "y") (.num 1))))).1.result = .error .zeroDivisor := by cbv
  have hone : (Emitter.run { table := { vars := [⟨"y", 1⟩] } } (Emit.statement (.binary .div
      (.num 1) (.binary .div (.var "y") (.num 1))))).1.result = .ok 1 := by cbv
  have htwo : (Emitter.run { table := { vars := [⟨"y", 2⟩] } } (Emit.statement (.binary .div
      (.num 1) (.binary .div (.var "y") (.num 1))))).1.result = .ok 0 := by cbv
  dsimp only at hruns ⊢
  refine ⟨hzero, hone, htwo, (hruns 0 1).1, ((hruns 1 2).2 ?_ ?_).1⟩
  · intro hfault
    cases hone.symm.trans hfault
  · intro hfault
    cases htwo.symm.trans hfault

end LineCompiler
