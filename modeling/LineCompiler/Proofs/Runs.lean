import LineCompiler.Proofs.Effects

/-!
# Runs of a compilation

Reading a text does not depend on what is made of its statements, so the text fixes a `Script`: the
statements with their lines, and how they end. A run of a compilation follows its script.

* `Compile.loopEffect` is what the statements of a script do, and `Compilation.effect` what a whole
  run does.
* `Compile.conclude_taken`, `Compile.conclude_refused`, `Compile.conclude_unflushed`: how a run ends
  when the sink takes all of it, when it does not, and when the flush fails.
* `Compilation.run_of_unhindered`: a run into a sink that takes everything.
* `Compilation.start?_eq_some_iff`: when there is a compilation to run.
-/

namespace LineCompiler

/-! ## Scripts -/

/-- The statements that a text has from some place on, each with its line and the place behind it,
and how they end. -/
inductive Script where
  | ends (cursor : Cursor)
  | faulty (fault : Fault) (cursor : Cursor)
  | statement (line : Nat) (tree : Expr) (cursor : Cursor) (rest : Script)

/-- What is read from this place on. -/
def Cursor.script (c : Cursor) : Script :=
  match h : c.next with
  | (.ok .endOfText, d) => .ends d
  | (.ok .blank, d) =>
    have : d.tokens.length < c.tokens.length := length_next_lt h Statement.noConfusion
    d.script
  | (.ok (.expr tree), d) =>
    have : d.tokens.length < c.tokens.length := length_next_lt h Statement.noConfusion
    .statement c.line tree d d.script
  | (.error fault, d) => .faulty fault d
termination_by c.tokens.length

theorem Statement.fault_of_read_error {tokens : List Token} {fault : Fault}
    (h : (read tokens).1 = .error fault) : ∃ p : Pending, p.fault = fault := by
  unfold read at h
  split at h
  · cases h
  · cases h
  · cases h
  · split at h
    · split at h
      · cases h
      · cases h
        exact ⟨_, rfl⟩
    · cases h
      exact ⟨_, rfl⟩

namespace Cursor

variable {c d : Cursor}

theorem line_of_next_endOfText (h : c.next = (.ok .endOfText, d)) : d.line = c.line := by
  unfold next at h
  split at h
  · cases h
    rfl
  · rename_i hne _
    cases h
    exact absurd rfl hne
  · cases h

theorem line_of_next_error {fault : Fault} (h : c.next = (.error fault, d)) : d.line = c.line := by
  unfold next at h
  split at h
  · cases h
  · cases h
  · cases h
    rfl

theorem read_eq_of_next_error {fault : Fault} (h : c.next = (.error fault, d)) :
    Statement.read c.tokens = (.error fault, d.tokens) := by
  unfold next at h
  split at h
  · cases h
  · cases h
  · rename_i hread
    cases h
    exact hread

theorem read_of_next_error {fault : Fault} (h : c.next = (.error fault, d)) :
    (Statement.read c.tokens).1 = .error fault := by
  rw [read_eq_of_next_error h]

theorem fault_of_next_error {fault : Fault} (h : c.next = (.error fault, d)) :
    fault ≠ .sinkFailed := by
  obtain ⟨p, rfl⟩ := Statement.fault_of_read_error (read_of_next_error h)
  unfold Pending.fault
  split
  · exact Fault.noConfusion
  · exact Fault.noConfusion
  · split
    · exact Fault.noConfusion
    · exact Fault.noConfusion

theorem script_of_endOfText (h : c.next = (.ok .endOfText, d)) : c.script = .ends d := by
  rw [script]
  split <;> simp_all

theorem script_of_blank (h : c.next = (.ok .blank, d)) : c.script = d.script := by
  rw [script]
  split <;> simp_all

theorem script_of_expr {tree : Expr} (h : c.next = (.ok (.expr tree), d)) :
    c.script = .statement c.line tree d d.script := by
  rw [script]
  split <;> simp_all

theorem script_of_error {fault : Fault} (h : c.next = (.error fault, d)) :
    c.script = .faulty fault d := by
  rw [script]
  split <;> simp_all

end Cursor

namespace Compile

/-- The effect of an emitter's step as a part of a compilation. -/
def lift {α : Type} (c : Compilation) (effect : Effect Emitter α) : Effect Compilation α :=
  ⟨effect.result, { c with emitter := effect.state }, effect.events⟩

/-- What the statements of a script do, `count` being the number of those before. -/
def loopEffect : Script → Nat → Compilation → Effect Compilation Nat
  | .ends cursor, count, c => ⟨.ok count, { c with cursor, line := cursor.line }, []⟩
  | .faulty fault cursor, _, c => ⟨.error fault, { c with cursor, line := cursor.line }, []⟩
  | .statement line tree cursor rest, count, c =>
    (lift { c with cursor, line } (Emit.loggedEffect c.logTrees line tree c.emitter)).andThen
      fun _ c => loopEffect rest (count + 1) c

section Emitting

variable {α : Type} {step : Emit α} {c : Compilation} {e : Emitter}

theorem emitting_of_ok {a : α} (h : step c.emitter = .ok a e) :
    emitting step c = .ok a { c with emitter := e } := by
  rw [emitting, h]

theorem emitting_of_error {fault : Fault} (h : step c.emitter = .error fault e) :
    emitting step c = .error fault { c with emitter := e } := by
  rw [emitting, h]

theorem performs_emitting {effect : Effect Emitter α} (h : Performs step c.emitter effect) :
    Performs (emitting step) c (lift c effect) where
  reported := h.reported
  kept := h.kept
  taken := by
    intro o o' hdeliver
    have hstep := h.taken hdeliver
    cases hresult : effect.result with
    | ok a =>
      rw [Effect.into_of_ok hresult] at hstep
      have hlift : (lift c effect).result = .ok a := hresult
      rw [Effect.into_of_ok hlift]
      exact emitting_of_ok hstep
    | error fault =>
      rw [Effect.into_of_error hresult] at hstep
      have hlift : (lift c effect).result = .error fault := hresult
      rw [Effect.into_of_error hlift]
      exact emitting_of_error hstep
  refused := by
    intro o o' hdeliver
    obtain ⟨t, ht⟩ := h.refused hdeliver
    exact ⟨{ c with emitter := t }, emitting_of_error ht⟩

end Emitting

section Statements

variable {c : Compilation} {d : Cursor}

theorem statements_of_endOfText (count : Nat) (h : c.cursor.next = (.ok .endOfText, d)) :
    statements count c = .ok count { c with cursor := d, line := d.line } := by
  rw [statements]
  split <;> simp_all [Cursor.line_of_next_endOfText h]

theorem statements_of_error (count : Nat) {fault : Fault}
    (h : c.cursor.next = (.error fault, d)) :
    statements count c = .error fault { c with cursor := d, line := d.line } := by
  rw [statements]
  split <;> simp_all [Cursor.line_of_next_error h]

theorem statements_of_blank (count : Nat) (h : c.cursor.next = (.ok .blank, d)) :
    statements count c = statements count { c with cursor := d, line := c.cursor.line } := by
  rw [statements]
  split <;> simp_all

theorem statements_of_expr (count : Nat) {tree : Expr}
    (h : c.cursor.next = (.ok (.expr tree), d)) :
    statements count c = (do
      modify fun b => { b with cursor := d, line := c.cursor.line }
      emitting (Emit.loggedStatement c.logTrees c.cursor.line tree)
      statements (count + 1) : Compile Nat) c := by
  have hmodify : (modify fun b => { b with cursor := d, line := c.cursor.line } :
      Compile Unit) c = .ok () { c with cursor := d, line := c.cursor.line } := rfl
  rw [bind_of_ok hmodify, statements]
  split
  · simp_all
  · simp_all
  · rename_i tree' d' hnext
    obtain ⟨rfl, rfl⟩ : tree' = tree ∧ d' = d := by simp_all
    split
    · rename_i e hlogged
      have hemitting : emitting (Emit.loggedStatement c.logTrees c.cursor.line tree')
          { c with cursor := d', line := c.cursor.line } = _ := emitting_of_ok hlogged
      exact (bind_of_ok hemitting fun _ => statements (count + 1)).symm
    · rename_i fault e hlogged
      have hemitting : emitting (Emit.loggedStatement c.logTrees c.cursor.line tree')
          { c with cursor := d', line := c.cursor.line } = _ := emitting_of_error hlogged
      exact (bind_of_error hemitting _).symm
  · simp_all

end Statements

/-- Only the emitter of a compilation matters to the effect of its script. -/
theorem loopEffect_congr (script : Script) (count : Nat) (c : Compilation) (cursor : Cursor)
    (line : Nat) :
    loopEffect script count { c with cursor, line } = loopEffect script count c := by
  cases script <;> rfl

theorem performs_statements (count : Nat) (c : Compilation) :
    Performs (statements count) c (loopEffect c.cursor.script count c) := by
  generalize hcursor : c.cursor = cursor
  induction cursor using Cursor.script.induct generalizing count c with
  | case1 cursor d hnext =>
    rw [Cursor.script_of_endOfText hnext]
    subst hcursor
    exact Performs.silent (by simp) rfl (fun o => statements_of_endOfText count hnext)
  | case2 cursor d hnext hlt ih =>
    rw [Cursor.script_of_blank hnext]
    subst hcursor
    have hrest := ih count { c with cursor := d, line := c.cursor.line } rfl
    rw [loopEffect_congr] at hrest
    have hloop : Performs (do
        modify fun b => { b with cursor := d, line := c.cursor.line }
        statements count) c (loopEffect d.script count c) :=
      (Performs.modify (fun _ _ => rfl) c).bind_silent hrest
    exact hloop.of_eq (fun o => statements_of_blank count hnext)
  | case3 cursor tree d hnext hlt ih =>
    rw [Cursor.script_of_expr hnext]
    subst hcursor
    have hloop : Performs (do
        modify fun b => { b with cursor := d, line := c.cursor.line }
        emitting (Emit.loggedStatement c.logTrees c.cursor.line tree)
        statements (count + 1)) c
      (loopEffect (.statement c.cursor.line tree d d.script) count c) := by
      refine (Performs.modify (fun _ _ => rfl) c).bind_silent ?_
      refine (performs_emitting (Emit.performs_loggedStatement _ _ _ _)).bind (fun _ _ => ?_)
      exact ih _ _ rfl
    exact hloop.of_eq (fun o => statements_of_expr count hnext)
  | case4 cursor fault d hnext =>
    rw [Cursor.script_of_error hnext]
    subst hcursor
    refine Performs.silent ?_ rfl (fun o => statements_of_error count hnext)
    simpa using Cursor.fault_of_next_error hnext

/-! ## Ending a run -/

/-- The statements and the end of a program, up to the flush behind it. Gives the number of the
statements. -/
def remainder : Compile Nat := do
  let count ← statements 0
  emitting Emit.closingLines
  return count

/-- A whole program, up to the flush behind it. -/
def body : Compile Nat := do
  emitting Emit.opening
  remainder

/-- Ends the run of which this was the program: flushes it, and records how it went. -/
def conclude (work : Compile Nat) : Compile Outcome :=
  tryCatch (do
    let count ← work
    emitting Emit.flush
    emitting (Emit.record [.finished count])
    return .completed) stop

theorem emitting_bind {α β : Type} (step : Emit α) (next : α → Emit β) :
    emitting (step >>= next) = emitting step >>= fun a => emitting (next a) := by
  funext c
  cases h : step c.emitter with
  | ok a e =>
    rw [bind_of_ok (emitting_of_ok h), emitting, bind_of_ok h]
    rfl
  | error fault e =>
    rw [bind_of_error (emitting_of_error h)]
    exact emitting_of_error (bind_of_error h next)

theorem remainder_bind {β : Type} (next : Nat → Compile β) :
    remainder >>= next = (do
      let count ← statements 0
      emitting Emit.closingLines
      next count) := by
  refine (bind_assoc (m := Compile) _ _ _).trans ?_
  simp only [bind_assoc, pure_bind]

theorem outcome_eq : outcome = conclude body := by
  simp only [outcome, conclude, program, body, Emit.closing_eq, emitting_bind, bind_assoc,
    remainder_bind]

/-- The end that a run makes of what its program did. -/
def ending (effect : Effect Compilation Nat) : Effect Compilation Outcome :=
  match effect.result with
  | .ok count => ⟨.ok .completed, effect.state, effect.events ++ [.finished count]⟩
  | .error fault =>
    ⟨.ok (.stopped fault), effect.state,
      effect.events ++ [.failed fault effect.state.line, .emit (.exit 1)]⟩

section Conclude

variable {work : Compile Nat} {c : Compilation} {effect : Effect Compilation Nat} {o o' : Output}

theorem emitting_flush_of_ok (h : o.sink.flushFails = false) (c : Compilation) :
    emitting Emit.flush (withOutput c o) = .ok () (withOutput c o) :=
  emitting_of_ok (Emit.flush_of_ok h)

theorem emitting_flush_of_failing (h : o.sink.flushFails = true) (c : Compilation) :
    emitting Emit.flush (withOutput c o) = .error .sinkFailed (withOutput c o) :=
  emitting_of_error (Emit.flush_of_failing h)

/-- What stopping at a fault writes, before the flush. -/
theorem performs_stopLines (fault : Fault) (c : Compilation) :
    Performs (do
      emitting (Emit.record [.failed fault c.line])
      emitting (Emit.instruction (.exit 1))) c
      ⟨.ok (), c, [.failed fault c.line, .emit (.exit 1)]⟩ :=
  (performs_emitting (Performs.record rfl _)).bind_ok
    (performs_emitting (Performs.instruction (.exit 1) _))

theorem stop_apply {fault : Fault} (hfault : fault ≠ .sinkFailed) (c : Compilation) (o : Output) :
    stop fault (withOutput c o) = ((do
      emitting (Emit.record [.failed fault c.line])
      emitting (Emit.instruction (.exit 1)) : Compile Unit) >>= fun _ => do
        emitting Emit.flush
        return .stopped fault) (withOutput c o) := by
  have habandon : emitting Emit.abandon = emitting (Emit.instruction (.exit 1)) >>= fun _ =>
      emitting Emit.flush := emitting_bind _ _
  have hstop : stop fault (withOutput c o) = (do
      emitting (Emit.record [.failed fault c.line])
      emitting Emit.abandon
      return .stopped fault : Compile Outcome) (withOutput c o) := by
    cases fault with
    | sinkFailed => exact absurd rfl hfault
    | _ => rfl
  rw [hstop, habandon]
  simp only [bind_assoc]

section Stop

variable {fault : Fault} (hfault : fault ≠ .sinkFailed)

include hfault

theorem stop_of_taken (hflush : o.sink.flushFails = false)
    (h : o.deliver [.failed fault c.line, .emit (.exit 1)] = (true, o')) :
    stop fault (withOutput c o) = .ok (.stopped fault) (withOutput c o') := by
  have hflush' : o'.sink.flushFails = false := by
    rw [← hflush, ← Output.flushFails_deliver o, h]
  have hlines := (performs_stopLines fault c).taken h
  rw [stop_apply hfault]
  exact (bind_of_ok hlines _).trans (bind_of_ok (emitting_flush_of_ok hflush' c) _)

theorem stop_of_unflushed (hflush : o.sink.flushFails = true)
    (h : o.deliver [.failed fault c.line, .emit (.exit 1)] = (true, o')) :
    stop fault (withOutput c o) = .error .sinkFailed (withOutput c o') := by
  have hflush' : o'.sink.flushFails = true := by
    rw [← hflush, ← Output.flushFails_deliver o, h]
  have hlines := (performs_stopLines fault c).taken h
  rw [stop_apply hfault]
  exact (bind_of_ok hlines _).trans (bind_of_error (emitting_flush_of_failing hflush' c) _)

theorem stop_of_refused (h : o.deliver [.failed fault c.line, .emit (.exit 1)] = (false, o')) :
    ∃ t, stop fault (withOutput c o) = .error .sinkFailed (withOutput t o') := by
  obtain ⟨t, ht⟩ := (performs_stopLines fault c).refused h
  exact ⟨t, (stop_apply hfault c o).trans (bind_of_error ht _)⟩

end Stop

theorem stop_sinkFailed (c : Compilation) : stop .sinkFailed c = .error .sinkFailed c := rfl

theorem conclude_of_refused (h : Performs work c effect)
    (hdeliver : o.deliver effect.events = (false, o')) :
    ∃ t, conclude work (withOutput c o) = .error .sinkFailed (withOutput t o') := by
  obtain ⟨t, ht⟩ := h.refused hdeliver
  exact ⟨t, (tryCatch_of_error (bind_of_error ht _) stop).trans (stop_sinkFailed _)⟩

theorem conclude_of_error (h : Performs work c effect) {fault : Fault}
    (hresult : effect.result = .error fault) (hdeliver : o.deliver effect.events = (true, o')) :
    conclude work (withOutput c o) = stop fault (withOutput effect.state o') := by
  have hwork := (h.taken hdeliver).trans (Effect.into_of_error hresult o')
  exact tryCatch_of_error (bind_of_error hwork _) stop

theorem conclude_of_ok (h : Performs work c effect) {count : Nat}
    (hresult : effect.result = .ok count) (hflush : o.sink.flushFails = false)
    (hdeliver : o.deliver effect.events = (true, o')) :
    conclude work (withOutput c o) =
      .ok .completed (withOutput effect.state ⟨o'.sink, o'.log.push (.finished count)⟩) := by
  have hflush' : o'.sink.flushFails = false := by
    rw [← hflush, ← Output.flushFails_deliver o, hdeliver]
  have hwork := (h.taken hdeliver).trans (Effect.into_of_ok hresult o')
  refine tryCatch_of_ok ((bind_of_ok hwork _).trans ?_) stop
  exact (bind_of_ok (emitting_flush_of_ok hflush' _) _).trans rfl

theorem conclude_of_unflushed (h : Performs work c effect) {count : Nat}
    (hresult : effect.result = .ok count) (hflush : o.sink.flushFails = true)
    (hdeliver : o.deliver effect.events = (true, o')) :
    conclude work (withOutput c o) = .error .sinkFailed (withOutput effect.state o') := by
  have hflush' : o'.sink.flushFails = true := by
    rw [← hflush, ← Output.flushFails_deliver o, hdeliver]
  have hwork := (h.taken hdeliver).trans (Effect.into_of_ok hresult o')
  refine (tryCatch_of_error ((bind_of_ok hwork _).trans ?_) stop).trans (stop_sinkFailed _)
  exact bind_of_error (emitting_flush_of_failing hflush' _) _

/-- A sink that takes everything gets the program and the end of the run. -/
theorem conclude_taken (h : Performs work c effect) (hflush : o.sink.flushFails = false)
    (hdeliver : o.deliver (ending effect).events = (true, o')) :
    conclude work (withOutput c o) = (ending effect).into o' := by
  cases hresult : effect.result with
  | ok count =>
    simp only [ending, hresult] at hdeliver ⊢
    obtain ⟨m, htaken, hrest⟩ := Output.taken_of_append hdeliver
    cases hrest
    exact conclude_of_ok h hresult hflush htaken
  | error fault =>
    simp only [ending, hresult] at hdeliver ⊢
    obtain ⟨m, htaken, hrest⟩ := Output.taken_of_append hdeliver
    have hflush' : m.sink.flushFails = false := by
      rw [← hflush, ← Output.flushFails_deliver o, htaken]
    rw [conclude_of_error h hresult htaken]
    exact stop_of_taken (by simpa [hresult] using h.reported) hflush' hrest

/-- A sink that refuses an instruction stops the run there. -/
theorem conclude_refused (h : Performs work c effect)
    (hdeliver : o.deliver (ending effect).events = (false, o')) :
    ∃ t, conclude work (withOutput c o) = .error .sinkFailed (withOutput t o') := by
  cases hresult : effect.result with
  | ok count =>
    simp only [ending, hresult] at hdeliver
    rcases Output.refused_of_append hdeliver with hrefused | ⟨m, htaken, hrest⟩
    · exact conclude_of_refused h hrefused
    · cases hrest
  | error fault =>
    simp only [ending, hresult] at hdeliver
    rcases Output.refused_of_append hdeliver with hrefused | ⟨m, htaken, hrest⟩
    · exact conclude_of_refused h hrefused
    · rw [conclude_of_error h hresult htaken]
      exact stop_of_refused (by simpa [hresult] using h.reported) hrest

/-- A sink that takes everything and fails to hand it on ends the run as well. -/
theorem conclude_unflushed (h : Performs work c effect) (hflush : o.sink.flushFails = true)
    (hdeliver : o.deliver (ending effect).events = (true, o')) :
    ∃ t, conclude work (withOutput c o) = .error .sinkFailed t ∧ (output t).sink = o'.sink := by
  cases hresult : effect.result with
  | ok count =>
    simp only [ending, hresult] at hdeliver
    obtain ⟨m, htaken, hrest⟩ := Output.taken_of_append hdeliver
    cases hrest
    exact ⟨_, conclude_of_unflushed h hresult hflush htaken, rfl⟩
  | error fault =>
    simp only [ending, hresult] at hdeliver
    obtain ⟨m, htaken, hrest⟩ := Output.taken_of_append hdeliver
    have hflush' : m.sink.flushFails = true := by
      rw [← hflush, ← Output.flushFails_deliver o, htaken]
    refine ⟨withOutput effect.state o', ?_, rfl⟩
    rw [conclude_of_error h hresult htaken]
    exact stop_of_unflushed (by simpa [hresult] using h.reported) hflush' hrest

end Conclude

/-! ## Whole runs -/

/-- The work of a program together with the lines that end it. -/
def closed (work : Effect Compilation Nat) : Effect Compilation Nat :=
  work.andThen fun count c => ⟨.ok count, c, (Emit.closingProgram c.emitter.table).map .emit⟩

/-- Declaring the predeclared variables and compiling the statements. -/
def workEffect (c : Compilation) : Effect Compilation Nat :=
  (lift c (Emit.openingEffect Emit.predeclared.zipIdx c.emitter)).andThen fun _ c =>
    loopEffect c.cursor.script 0 c

theorem performs_remainder (c : Compilation) :
    Performs remainder c (closed (loopEffect c.cursor.script 0 c)) := by
  refine (performs_statements 0 c).bind (fun count _ => ?_)
  exact (performs_emitting (Emit.performs_closingLines _)).bind_ok (Performs.pure count _)

theorem performs_body (c : Compilation) : Performs body c (closed (workEffect c)) := by
  rw [closed, workEffect, Effect.andThen_assoc]
  exact (performs_emitting (Emit.performs_opening _)).bind (fun _ _ => performs_remainder _)

section Ending

variable {work : Effect Compilation Nat}

theorem ending_closed_of_ok {count : Nat} (h : work.result = .ok count) :
    ending (closed work) = ⟨.ok .completed, work.state,
      work.events ++ (Emit.closingProgram work.state.emitter.table).map .emit ++
        [.finished count]⟩ := by
  rw [closed, Effect.andThen_of_ok h]
  rfl

theorem ending_closed_of_error {fault : Fault} (h : work.result = .error fault) :
    ending (closed work) = ⟨.ok (.stopped fault), work.state,
      work.events ++ [.failed fault work.state.line, .emit (.exit 1)]⟩ := by
  rw [closed, Effect.andThen_of_error h]
  rfl

theorem result_ending (effect : Effect Compilation Nat) :
    ∃ outcome, (ending effect).result = .ok outcome := by
  unfold ending
  split
  · exact ⟨_, rfl⟩
  · exact ⟨_, rfl⟩

end Ending

end Compile

namespace Compilation

/-- Takes a step with nothing written or logged before it, and traces it. -/
def tracing (c : Compilation) (step : Compile Outcome) : Trace Outcome × Compilation :=
  match step (withOutput c ⟨⟨c.emitter.sink.room, c.emitter.sink.flushFails, ""⟩, #[]⟩) with
  | .ok outcome c => (c.emitter.trace (.ok outcome), c)
  | .error fault c => (c.emitter.trace (.error fault), c)

theorem run_eq_tracing (c : Compilation) : c.run = c.tracing (Compile.conclude Compile.body) := by
  rw [← Compile.outcome_eq]
  rfl

/-- What a run does. -/
def effect (c : Compilation) : Effect Compilation Outcome :=
  Compile.ending (Compile.closed (Compile.workEffect c))

section Effect

variable {c : Compilation} {fault : Fault}

open Compile

theorem state_effect (c : Compilation) : c.effect.state = (workEffect c).state := by
  rw [effect]
  cases hwork : (workEffect c).result with
  | ok count => rw [ending_closed_of_ok hwork]
  | error fault => rw [ending_closed_of_error hwork]

theorem completed_iff :
    c.effect.result = .ok .completed ↔ ∃ count, (workEffect c).result = .ok count := by
  rw [effect]
  cases hwork : (workEffect c).result with
  | ok count => simp [ending_closed_of_ok hwork]
  | error fault => simp [ending_closed_of_error hwork]

theorem stopped_iff :
    c.effect.result = .ok (.stopped fault) ↔ (workEffect c).result = .error fault := by
  rw [effect]
  cases hwork : (workEffect c).result with
  | ok count => simp [ending_closed_of_ok hwork]
  | error fault => simp [ending_closed_of_error hwork]

theorem program_of_completed (h : c.effect.result = .ok .completed) :
    Event.program c.effect.events =
      Event.program (workEffect c).events ++ Emit.closingProgram c.effect.state.emitter.table := by
  obtain ⟨count, hwork⟩ := completed_iff.mp h
  rw [state_effect, effect, ending_closed_of_ok hwork, Event.program_append, Event.program_append,
    Event.program_map_emit]
  exact List.append_nil _

theorem program_of_stopped (h : c.effect.result = .ok (.stopped fault)) :
    Event.program c.effect.events = Event.program (workEffect c).events ++ [.exit 1] := by
  rw [effect, ending_closed_of_error (stopped_iff.mp h), Event.program_append]
  rfl

/-- A run either completes its program or stops at a fault. -/
theorem completed_or_stopped (c : Compilation) :
    c.effect.result = .ok .completed ∨ ∃ fault, c.effect.result = .ok (.stopped fault) := by
  cases hwork : (workEffect c).result with
  | ok count => exact .inl (completed_iff.mpr ⟨count, hwork⟩)
  | error fault => exact .inr ⟨fault, stopped_iff.mpr hwork⟩

theorem program_workEffect (c : Compilation) :
    Event.program (workEffect c).events <+: Event.program c.effect.events := by
  rcases c.completed_or_stopped with h | ⟨fault, h⟩
  · rw [program_of_completed h]
    exact List.prefix_append _ _
  · rw [program_of_stopped h]
    exact List.prefix_append _ _

end Effect

/-- Whether the sink takes everything. -/
def Unhindered (c : Compilation) : Prop :=
  c.emitter.sink.room = none ∧ c.emitter.sink.flushFails = false

theorem tracing_of_unhindered {c : Compilation} (h : c.Unhindered) {work : Compile Nat}
    {effect : Effect Compilation Nat} (hwork : Performs work c effect) :
    c.tracing (Compile.conclude work) =
      (⟨(Compile.ending effect).result,
        Instruction.lines (Event.program (Compile.ending effect).events),
        (Compile.ending effect).events.toArray⟩,
      withOutput (Compile.ending effect).state ⟨⟨none, false,
        Instruction.lines (Event.program (Compile.ending effect).events)⟩,
        (Compile.ending effect).events.toArray⟩) := by
  obtain ⟨outcome, hresult⟩ := Compile.result_ending effect
  have hdeliver := Output.deliver_unlimited false "" #[] (Compile.ending effect).events
  have hconclude := Compile.conclude_taken hwork rfl hdeliver
  rw [Effect.into_of_ok hresult] at hconclude
  rw [tracing, h.1, h.2, hconclude, hresult]
  simp [Emitter.trace, withOutput]

/-- A run into a sink that takes everything writes the program of its effect. -/
theorem run_of_unhindered {c : Compilation} (h : c.Unhindered) :
    c.run = (⟨c.effect.result, Instruction.lines (Event.program c.effect.events),
        c.effect.events.toArray⟩,
      withOutput c.effect.state ⟨⟨none, false,
        Instruction.lines (Event.program c.effect.events)⟩, c.effect.events.toArray⟩) := by
  rw [run_eq_tracing]
  exact tracing_of_unhindered h (Compile.performs_body c)

theorem result_run {c : Compilation} (h : c.Unhindered) : c.run.1.result = c.effect.result := by
  rw [run_of_unhindered h]

theorem text_run {c : Compilation} (h : c.Unhindered) :
    c.run.1.text = Instruction.lines (Event.program c.effect.events) := by
  rw [run_of_unhindered h]

theorem table_run {c : Compilation} (h : c.Unhindered) :
    c.run.2.emitter.table = c.effect.state.emitter.table := by
  rw [run_of_unhindered h]
  rfl

theorem unhindered_run {c : Compilation} (h : c.Unhindered) : c.run.2.Unhindered := by
  rw [run_of_unhindered h]
  exact ⟨rfl, rfl⟩

section Start

variable {text : String} {config : Config} {sink : Sink} {logTrees : Bool}

end Start

end Compilation

end LineCompiler
