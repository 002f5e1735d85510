import LineCompiler.Proofs.Lines

/-!
# Compiling texts line by line

Nothing but the variables is carried from one line to the next. So a text whose first lines compile
gives their program, without its end, followed by what the statements of the remaining text give
when they start with the variables left by the first lines. A fault in the first lines makes the
remaining text meaningless.

* `Alike`: two effects that differ at most in what no later statement sees.
* `Compile.loopEffect_extends`: the statements of a text are those of its first lines and then the
  others; `Compile.loopEffect_shift`: line numbers and counts only appear in the log.
* `run_append` puts this together for whole runs.
-/

namespace LineCompiler

/-! ## What later statements see -/

/-- The emitter as the next statement finds it. -/
def Emitter.idle (e : Emitter) : Emitter := { e with registers := [], divisor := .outside }

/-- The compilation as the next statement finds it, apart from its place in the text. -/
def Compilation.idle (c : Compilation) : Compilation :=
  { c with cursor := ⟨[], 1⟩, emitter := c.emitter.idle }

/-- Two effects with the same result and the same events whose states look alike to later
statements. -/
structure Alike {α : Type} (a b : Effect Compilation α) : Prop where
  result_eq : a.result = b.result
  idle_eq : a.state.idle = b.state.idle
  events_eq : a.events = b.events

namespace Alike

variable {α β : Type} {a b c : Effect Compilation α}

protected theorem refl (a : Effect Compilation α) : Alike a a := ⟨rfl, rfl, rfl⟩

protected theorem symm (h : Alike a b) : Alike b a :=
  ⟨h.result_eq.symm, h.idle_eq.symm, h.events_eq.symm⟩

protected theorem trans (h : Alike a b) (h' : Alike b c) : Alike a c :=
  ⟨h.result_eq.trans h'.result_eq, h.idle_eq.trans h'.idle_eq, h.events_eq.trans h'.events_eq⟩

theorem table_eq (h : Alike a b) : a.state.emitter.table = b.state.emitter.table :=
  congrArg (·.emitter.table) h.idle_eq

theorem line_eq (h : Alike a b) : a.state.line = b.state.line :=
  congrArg (·.line) h.idle_eq

theorem andThen {f g : α → Compilation → Effect Compilation β} (h : Alike a b)
    (hnext : ∀ x, a.result = .ok x → Alike (f x a.state) (g x b.state)) :
    Alike (a.andThen f) (b.andThen g) := by
  cases hresult : a.result with
  | ok x =>
    have hx := hnext x hresult
    rw [Effect.andThen_of_ok hresult, Effect.andThen_of_ok (h.result_eq ▸ hresult)]
    exact ⟨hx.result_eq, hx.idle_eq, by rw [h.events_eq, hx.events_eq]⟩
  | error fault =>
    rw [Effect.andThen_of_error hresult, Effect.andThen_of_error (h.result_eq ▸ hresult)]
    exact ⟨rfl, h.idle_eq, h.events_eq⟩

theorem after (h : Alike a b) (events : List Event) :
    Alike (⟨a.result, a.state, events ++ a.events⟩ : Effect Compilation α)
      ⟨b.result, b.state, events ++ b.events⟩ :=
  ⟨h.result_eq, h.idle_eq, congrArg (events ++ ·) h.events_eq⟩

theorem ending_closed {a b : Effect Compilation Nat} (h : Alike a b) :
    Alike (Compile.ending (Compile.closed a)) (Compile.ending (Compile.closed b)) := by
  cases hresult : a.result with
  | ok count =>
    rw [Compile.ending_closed_of_ok hresult,
      Compile.ending_closed_of_ok (h.result_eq ▸ hresult)]
    exact ⟨rfl, h.idle_eq, by rw [h.events_eq, h.table_eq]⟩
  | error fault =>
    rw [Compile.ending_closed_of_error hresult,
      Compile.ending_closed_of_error (h.result_eq ▸ hresult)]
    exact ⟨rfl, h.idle_eq, by rw [h.events_eq, h.line_eq]⟩

end Alike

/-! ## Statements of the first lines and of the others -/

theorem Emit.loggedEffect_congr {e e' : Emitter} (h : e.idle = e'.idle) (logTree : Bool)
    (line : Nat) (tree : Expr) :
    loggedEffect logTree line tree e = loggedEffect logTree line tree e' := by
  have hstatement : statementEffect tree e = statementEffect tree e' :=
    congrArg (fun e => (Action.effects (tree.actions []) e).andThen
      fun _ e => (⟨.ok (e.registers.headD 0), e, []⟩ : Effect Emitter Int32)) h
  simp only [loggedEffect, Effect.andThen, hstatement]

namespace Compile

variable {c d : Compilation}

theorem loopEffect_alike (hemitter : c.emitter.idle = d.emitter.idle)
    (hlog : c.logTrees = d.logTrees) (script : Script) (count : Nat) :
    Alike (loopEffect script count c) (loopEffect script count d) := by
  have hidle (cursor : Cursor) (line : Nat) : Compilation.idle { c with cursor, line } =
      Compilation.idle { d with cursor, line } := by
    simp only [Compilation.idle, hemitter, hlog]
  cases script with
  | ends cursor => exact ⟨rfl, hidle _ _, rfl⟩
  | faulty fault cursor => exact ⟨rfl, hidle _ _, rfl⟩
  | statement line tree cursor rest =>
    have hlift : lift { c with cursor, line } (Emit.loggedEffect c.logTrees line tree c.emitter) =
        lift { d with cursor, line } (Emit.loggedEffect d.logTrees line tree d.emitter) := by
      simp only [lift, Emit.loggedEffect_congr hemitter, hlog]
    rw [loopEffect, loopEffect, hlift]
    exact .refl _

/-- The statements of a text are those of its first lines and then the others. -/
theorem loopEffect_extends {rest s t : Script} (h : Script.Extends rest s t)
    (hemitter : c.emitter.idle = d.emitter.idle) (hlog : c.logTrees = d.logTrees) (count : Nat) :
    Alike (loopEffect t count d)
      ((loopEffect s count c).andThen fun count c => loopEffect rest count c) := by
  induction h generalizing c d count with
  | ends cursor =>
    exact loopEffect_alike (d := { c with cursor, line := cursor.line }) hemitter.symm hlog.symm
      rest count
  | @faulty cursor cursor' fault hline =>
    refine ⟨rfl, ?_, rfl⟩
    simp only [loopEffect, Effect.andThen, Compilation.idle, hemitter, hlog, hline]
  | @statement s t line tree cursor cursor' _ ih =>
    rw [loopEffect, loopEffect, Effect.andThen_assoc, Emit.loggedEffect_congr hemitter, hlog]
    -- both sides have the same emitter now
    refine Alike.andThen ⟨rfl, rfl, rfl⟩ fun _ _ => ih ?_ ?_ _
    · rfl
    · rfl

end Compile

/-! ## Line numbers and counts -/

/-- The event with lines numbered on from `lines` and statements counted on from `statements`. -/
def Event.shift (lines statements : Nat) : Event → Event
  | parsed line tree => parsed (line + lines) tree
  | compiled line value => compiled (line + lines) value
  | finished count => finished (count + statements)
  | failed fault line => failed fault (line + lines)
  | emit i => emit i
  | declared name slot => declared name slot

namespace Event

variable (lines statements : Nat)

theorem map_shift_declarations (before after : Table) :
    (declarations before after).map (shift lines statements) = declarations before after := by
  simp [declarations, shift, Function.comp_def]

theorem map_shift_emit (program : List Instruction) :
    (program.map emit).map (shift lines statements) = program.map emit := by
  simp [shift, Function.comp_def]

theorem program_map_shift (events : List Event) :
    program (events.map (shift lines statements)) = program events := by
  induction events with
  | nil => rfl
  | cons e events ih =>
    cases e with
    | emit i => rw [List.map_cons, shift, program_emit, program_emit, ih]
    | _ => exact ih

end Event

section Numbers

variable (lines statements : Nat)

theorem Action.map_shift_effect (a : Action) (e : Emitter) :
    (a.effect e).events.map (Event.shift lines statements) = (a.effect e).events := by
  cases a with
  | literal | enterDivisor | leaveDivisor | combine => rfl
  | load name =>
    rw [effect]
    split
    · rw [List.map_append, Event.map_shift_declarations]
      rfl
    · rfl
  | store name =>
    rw [effect]
    split
    · rw [List.map_append, Event.map_shift_declarations]
      rfl
    · rfl

theorem Effect.map_shift_andThen {σ α β : Type} {effect : Effect σ α} {next : α → σ → Effect σ β}
    (h : effect.events.map (Event.shift lines statements) = effect.events)
    (hnext : ∀ a s, (next a s).events.map (Event.shift lines statements) = (next a s).events) :
    (effect.andThen next).events.map (Event.shift lines statements) =
      (effect.andThen next).events := by
  cases hresult : effect.result with
  | ok a => rw [andThen_of_ok hresult, List.map_append, h, hnext]
  | error fault => rw [andThen_of_error hresult, h]

theorem Action.map_shift_effects (actions : List Action) (e : Emitter) :
    (effects actions e).events.map (Event.shift lines statements) = (effects actions e).events := by
  induction actions generalizing e with
  | nil => rfl
  | cons a rest ih =>
    exact Effect.map_shift_andThen _ _ (map_shift_effect _ _ a e) fun _ => ih

theorem Emit.map_shift_statement (tree : Expr) (e : Emitter) :
    (statementEffect tree e).events.map (Event.shift lines statements) =
      (statementEffect tree e).events := by
  exact Effect.map_shift_andThen _ _ (Action.map_shift_effects _ _ (tree.actions []) e.idle)
    fun _ _ => rfl

/-- The line of a statement only appears in the log. -/
theorem Emit.loggedEffect_shift (logTree : Bool) (line : Nat) (tree : Expr) (e : Emitter) :
    loggedEffect logTree (line + lines) tree e =
      ⟨(loggedEffect logTree line tree e).result, (loggedEffect logTree line tree e).state,
        (loggedEffect logTree line tree e).events.map (Event.shift lines statements)⟩ := by
  have hparsed : (if logTree then [.parsed (line + lines) tree] else []) =
      (if logTree then [.parsed line tree] else []).map (Event.shift lines statements) := by
    cases logTree <;> rfl
  have hstatement := map_shift_statement lines statements tree e
  cases hresult : (statementEffect tree e).result with
  | ok value =>
    simp only [loggedEffect, Effect.andThen, hresult, List.map_append, hparsed, hstatement]
    rfl
  | error fault =>
    simp only [loggedEffect, Effect.andThen, hresult, List.map_append, hparsed, hstatement]

/-- An effect with lines numbered on and statements counted on, where `recount` does the latter to
its result. -/
def Effect.shift {α : Type} (recount : α → α) (effect : Effect Compilation α) :
    Effect Compilation α :=
  ⟨effect.result.map recount, { effect.state with line := effect.state.line + lines },
    effect.events.map (Event.shift lines statements)⟩

theorem Alike.andThen_shift {α β : Type} {lines statements : Nat} {recount : β → β}
    {a a' : Effect Compilation α} {f f' : α → Compilation → Effect Compilation β}
    (h : Alike a' (a.shift lines statements id))
    (hnext : ∀ x, a.result = .ok x →
      Alike (f' x a'.state) ((f x a.state).shift lines statements recount)) :
    Alike (a'.andThen f') ((a.andThen f).shift lines statements recount) := by
  have hresult' : a'.result = a.result := h.result_eq.trans (congrFun Except.map_id a.result)
  cases hresult : a.result with
  | ok x =>
    have hx := hnext x hresult
    rw [Effect.andThen_of_ok hresult, Effect.andThen_of_ok (hresult'.trans hresult)]
    refine ⟨hx.result_eq, hx.idle_eq, ?_⟩
    rw [h.events_eq, hx.events_eq]
    exact List.map_append.symm
  | error fault =>
    rw [Effect.andThen_of_error hresult, Effect.andThen_of_error (hresult'.trans hresult)]
    exact ⟨rfl, h.idle_eq, h.events_eq⟩

namespace Compile

theorem loopEffect_shift (script : Script) (count : Nat) (c : Compilation) :
    Alike (loopEffect (script.shift lines) (count + statements) c)
      ((loopEffect script count c).shift lines statements (· + statements)) := by
  induction script generalizing count c with
  | ends cursor => exact ⟨rfl, rfl, rfl⟩
  | faulty fault cursor => exact ⟨rfl, rfl, rfl⟩
  | statement line tree cursor rest ih =>
    rw [Script.shift, loopEffect, loopEffect, Emit.loggedEffect_shift lines statements]
    refine Alike.andThen_shift ⟨?_, rfl, rfl⟩ fun _ _ => ?_
    · exact (congrFun Except.map_id _).symm
    · rw [Nat.add_right_comm]
      exact (loopEffect_alike (by rfl) (by rfl) _ _).trans (ih (count + 1) _)

theorem ending_closed_shift (work : Effect Compilation Nat) :
    ending (closed (work.shift lines statements (· + statements))) =
      (ending (closed work)).shift lines statements id := by
  cases hresult : work.result with
  | ok count =>
    have hshift :
        (work.shift lines statements (· + statements)).result = .ok (count + statements) :=
      congrArg (Except.map _) hresult
    rw [ending_closed_of_ok hresult, ending_closed_of_ok hshift]
    simp only [Effect.shift, List.map_append, Event.map_shift_emit]
    rfl
  | error fault =>
    have hshift : (work.shift lines statements (· + statements)).result = .error fault :=
      congrArg (Except.map _) hresult
    rw [ending_closed_of_error hresult, ending_closed_of_error hshift]
    simp only [Effect.shift, List.map_append]
    rfl

end Compile

end Numbers

/-! ## Whole runs -/

namespace Compile

theorem ending_closed_append (work : Effect Compilation Nat) (events : List Event) :
    ending (closed ⟨work.result, work.state, events ++ work.events⟩) =
      ⟨(ending (closed work)).result, (ending (closed work)).state,
        events ++ (ending (closed work)).events⟩ := by
  cases hresult : work.result with
  | ok count =>
    rw [ending_closed_of_ok hresult, ending_closed_of_ok rfl]
    simp only [List.append_assoc]
  | error fault =>
    rw [ending_closed_of_error hresult, ending_closed_of_error rfl]
    simp only [List.append_assoc]

theorem logTrees_loopEffect (script : Script) (count : Nat) (c : Compilation) :
    (loopEffect script count c).state.logTrees = c.logTrees := by
  induction script generalizing count c with
  | ends cursor => rfl
  | faulty fault cursor => rfl
  | statement line tree cursor rest ih =>
    exact Effect.state_andThen (P := (Compilation.logTrees · = c.logTrees)) rfl fun _ => ih _ _

theorem logTrees_workEffect (c : Compilation) : (workEffect c).state.logTrees = c.logTrees :=
  Effect.state_andThen (P := (Compilation.logTrees · = c.logTrees)) rfl fun _ =>
    logTrees_loopEffect _ _ _

theorem workEffect_extends {ts : List Token} {k : Nat} (h : Token.Lines ts k) (us : List Token)
    (n : Nat) (c : Compilation) :
    Alike (workEffect { c with cursor := ⟨ts ++ us, n⟩ })
      ((workEffect { c with cursor := ⟨ts ++ [.eof], n⟩ }).andThen fun count c =>
        loopEffect (Cursor.script ⟨us, n + k⟩) count c) := by
  rw [workEffect, workEffect, Effect.andThen_assoc]
  refine Alike.andThen ⟨rfl, rfl, rfl⟩ fun _ _ => ?_
  refine loopEffect_extends (Cursor.script_extends h n us) ?_ ?_ 0
  · rfl
  · rfl

/-- Compiles the statements of a text and ends the program, without an opening. -/
def continuation : Compile Outcome :=
  tryCatch (do
    let count ← statements 0
    emitting Emit.closing
    emitting (Emit.record [.finished count])
    return .completed) stop

theorem continuation_eq : continuation = conclude remainder := by
  simp only [continuation, conclude, Emit.closing_eq, emitting_bind, bind_assoc, remainder_bind]

end Compile

namespace Compilation

/-- A compilation of a text that starts with the variables of a table. -/
def resumed (text : String) (table : Table) (logTrees : Bool) : Compilation where
  cursor := { tokens := Token.ofString text }
  emitter := { table }
  logTrees := logTrees

/-- What the statements of a text and the end of the program do. -/
def continuationEffect (c : Compilation) : Effect Compilation Outcome :=
  Compile.ending (Compile.closed (Compile.loopEffect c.cursor.script 0 c))

theorem tracing_continuation {c : Compilation} (h : c.Unhindered) :
    c.tracing Compile.continuation =
      (⟨c.continuationEffect.result,
        Instruction.lines (Event.program c.continuationEffect.events),
        c.continuationEffect.events.toArray⟩,
      withOutput c.continuationEffect.state ⟨⟨none, false,
        Instruction.lines (Event.program c.continuationEffect.events)⟩,
        c.continuationEffect.events.toArray⟩) := by
  rw [Compile.continuation_eq]
  exact tracing_of_unhindered h (Compile.performs_remainder c)

end Compilation

/-- A text that is empty or ends with a line end has tokens of its own, whatever text follows. -/
theorem Token.ofString_lines {p : String} (hp : p = "" ∨ ∃ lines, p = lines ++ "\n") :
    ∃ ts, Lines ts (p.toList.count '\n') ∧ ∀ q, ofString (p ++ q) = ts ++ ofString q := by
  rcases hp with rfl | ⟨lines, rfl⟩
  · exact ⟨[], .nil, fun q => by rw [String.empty_append, List.nil_append]⟩
  · obtain ⟨ts, hts, hscan⟩ := scan_lines lines.toList
    refine ⟨ts, by simpa using hts, fun q => ?_⟩
    have htext : (lines ++ "\n" ++ q).toList = lines.toList ++ '\n' :: q.toList := by simp
    rw [ofString, htext, hscan, ofString]

section Append

variable {p : String} (hp : p = "" ∨ ∃ lines, p = lines ++ "\n") (q : String) (config : Config)
  (logTrees : Bool)

include hp

open Compile in
theorem workEffect_append :
    Alike (workEffect (.ofText (p ++ q) config {} logTrees))
      ((workEffect (.ofText p config {} logTrees)).andThen fun count c =>
        loopEffect ((Cursor.script ⟨Token.ofString q, 1⟩).shift (p.toList.count '\n'))
          count c) := by
  obtain ⟨ts, hlines, htokens⟩ := Token.ofString_lines hp
  have hfirst : Token.ofString p = ts ++ [.eof] := by
    have hempty : Token.ofString "" = [.eof] := Token.scan_of_nil rfl
    rw [← hempty, ← htokens, String.append_empty]
  have hextends := workEffect_extends hlines (Token.ofString q) 1 (.ofText p config {} logTrees)
  rw [← hfirst, ← htokens] at hextends
  rw [← Cursor.script_shift]
  exact hextends

open Compile in
/-- Behind a fault in the first lines nothing is read. -/
theorem effect_append_of_error {fault : Fault}
    (h : (workEffect (.ofText p config {} logTrees)).result = .error fault) :
    Alike (Compilation.ofText (p ++ q) config {} logTrees).effect
      (Compilation.ofText p config {} logTrees).effect := by
  have hwork := workEffect_append hp q config logTrees
  rw [Effect.andThen_of_error h, ← h] at hwork
  exact hwork.ending_closed

open Compile in
/-- The statements behind the first lines only take over their variables. -/
theorem effect_append_of_ok {work : Effect Compilation Nat} {count : Nat}
    {rest : Effect Compilation Outcome}
    (hwork : workEffect (.ofText p config {} logTrees) = work) (hresult : work.result = .ok count)
    (hrest : (Compilation.resumed q work.state.emitter.table logTrees).continuationEffect = rest) :
    Alike (Compilation.ofText (p ++ q) config {} logTrees).effect
      ⟨rest.result, { rest.state with line := rest.state.line + p.toList.count '\n' },
        work.events ++ rest.events.map (Event.shift (p.toList.count '\n') count)⟩ := by
  have happend := workEffect_append hp q config logTrees
  rw [hwork, Effect.andThen_of_ok hresult] at happend
  have hlog : work.state.logTrees = logTrees := hwork ▸ logTrees_workEffect _
  have hidle : work.state.emitter.idle =
      (Compilation.resumed q work.state.emitter.table logTrees).emitter.idle := by
    have hkept := (performs_body (.ofText p config {} logTrees)).kept
    rw [hwork, closed, Effect.andThen_of_ok hresult] at hkept
    have hsink : work.state.emitter.sink = {} := congrArg Output.sink hkept
    have hevents : work.state.emitter.log = #[] := congrArg Output.log hkept
    simp only [Compilation.resumed, Emitter.idle, hsink, hevents]
  have hshift := loopEffect_shift (p.toList.count '\n') count
    (Cursor.script ⟨Token.ofString q, 1⟩) 0
    (Compilation.resumed q work.state.emitter.table logTrees)
  rw [Nat.zero_add] at hshift
  have hloop := (loopEffect_alike hidle hlog _ count).trans hshift
  have hending := (happend.trans (hloop.after work.events)).ending_closed
  rw [ending_closed_append, ending_closed_shift] at hending
  rw [← hrest]
  exact ⟨hending.result_eq.trans (congrFun Except.map_id _), hending.idle_eq, hending.events_eq⟩

end Append

/-- **Compilation goes line by line.** If the first lines `p` of a text stop at a fault, the whole
text does so in the same way. If they compile, the whole text gives their program without the lines
that end it, followed by what the statements of the remaining text `q` give when they start with the
variables that the first lines leave; all line numbers go up by the number of the first lines. -/
theorem run_append (p q : String) (config : Config) (logTrees : Bool)
    (hp : p = "" ∨ ∃ lines, p = lines ++ "\n") :
    let first := (Compilation.ofText p config {} logTrees).run
    let whole := (Compilation.ofText (p ++ q) config {} logTrees).run
    let rest := (Compilation.resumed q first.2.emitter.table logTrees).tracing Compile.continuation
    (∃ outcome, first.1.result = .ok outcome) ∧
    (∀ fault, first.1.result = .ok (.stopped fault) →
      whole.1 = first.1 ∧ whole.2.emitter.table = first.2.emitter.table ∧
        whole.2.line = first.2.line) ∧
    (first.1.result = .ok .completed → ∃ events count,
      first.1.log.toList =
        events ++ (Emit.closingProgram first.2.emitter.table).map .emit ++ [.finished count] ∧
      first.1.text = Instruction.lines (Event.program events) ++
        Instruction.lines (Emit.closingProgram first.2.emitter.table) ∧
      whole.1.text = Instruction.lines (Event.program events) ++ rest.1.text ∧
      whole.1.log.toList =
        events ++ rest.1.log.toList.map (Event.shift (p.toList.count '\n') count) ∧
      whole.1.result = rest.1.result ∧ whole.2.emitter.table = rest.2.emitter.table ∧
      whole.2.line = rest.2.line + p.toList.count '\n') := by
  intro first whole rest
  have hfirst : first = _ := Compilation.run_of_unhindered ⟨rfl, rfl⟩
  have hwhole : whole = _ := Compilation.run_of_unhindered ⟨rfl, rfl⟩
  have hrest : rest = _ := Compilation.tracing_continuation ⟨rfl, rfl⟩
  cases hresult : (Compile.workEffect (.ofText p config {} logTrees)).result with
  | ok count =>
    have heffect := Compile.ending_closed_of_ok hresult
    rw [← Compilation.effect] at heffect
    rw [heffect] at hfirst
    have halike := effect_append_of_ok hp q config logTrees rfl hresult rfl
    have htable : first.2.emitter.table =
        (Compile.workEffect (.ofText p config {} logTrees)).state.emitter.table := by
      rw [hfirst]
      rfl
    rw [← htable] at halike
    refine ⟨⟨.completed, by rw [hfirst]⟩, ?_, fun _ => ?_⟩
    · intro fault hfault
      rw [hfirst] at hfault
      cases hfault
    · refine ⟨(Compile.workEffect (.ofText p config {} logTrees)).events, count, ?_, ?_, ?_, ?_, ?_,
        ?_, ?_⟩
      · rw [htable, hfirst]
      · rw [htable, hfirst, Event.program_append, Event.program_append, Event.program_map_emit,
          Instruction.lines_append, Instruction.lines_append]
        exact String.append_empty
      · rw [hwhole, hrest, halike.events_eq, Event.program_append, Event.program_map_shift,
          Instruction.lines_append]
      · rw [hwhole, hrest, halike.events_eq]
      · rw [hwhole, hrest, halike.result_eq]
      · rw [hwhole, hrest]
        exact halike.table_eq
      · rw [hwhole, hrest]
        exact halike.line_eq
  | error fault =>
    have heffect := Compile.ending_closed_of_error hresult
    rw [← Compilation.effect] at heffect
    have halike := effect_append_of_error hp q config logTrees hresult
    refine ⟨⟨.stopped fault, by rw [hfirst, heffect]⟩, fun _ _ => ?_, fun hcompleted => ?_⟩
    · rw [hfirst, hwhole, halike.result_eq, halike.events_eq]
      exact ⟨rfl, halike.table_eq, halike.line_eq⟩
    · rw [hfirst, heffect] at hcompleted
      cases hcompleted

/-- A first line that compiles and one that does not, before a line with a fault of its own. -/
theorem run_append_one_line :
    ((Compilation.ofText "a = 2\n" {} {} false).run.1.result = .ok .completed ∧
      (Compilation.ofText ("a = 2\n" ++ "b = a / (1 - 1)\n") {} {} false).run.2.line =
        ((Compilation.resumed "b = a / (1 - 1)\n"
          (Compilation.ofText "a = 2\n" {} {} false).run.2.emitter.table false).tracing
            Compile.continuation).2.line + "a = 2\n".toList.count '\n') ∧
    (Compilation.ofText "a = 2 +\n" {} {} false).run.1.result = .ok (.stopped .operandExpected) ∧
      (Compilation.ofText ("a = 2 +\n" ++ "b = a / (1 - 1)\n") {} {} false).run.1 =
        (Compilation.ofText "a = 2 +\n" {} {} false).run.1 := by
  have hcompleted : (Compilation.ofText "a = 2\n" {} {} false).run.1.result = .ok .completed := by
    cbv
  have hstopped : (Compilation.ofText "a = 2 +\n" {} {} false).run.1.result =
      .ok (.stopped .operandExpected) := by
    cbv
  obtain ⟨-, -, hfirst⟩ :=
    run_append "a = 2\n" "b = a / (1 - 1)\n" {} false (.inr ⟨"a = 2", rfl⟩)
  obtain ⟨-, hfault, -⟩ :=
    run_append "a = 2 +\n" "b = a / (1 - 1)\n" {} false (.inr ⟨"a = 2 +", rfl⟩)
  obtain ⟨_, _, _, _, _, _, _, _, hline⟩ := hfirst hcompleted
  exact ⟨⟨hcompleted, hline⟩, hstopped, (hfault _ hstopped).1⟩

end LineCompiler
