import LineCompiler.Proofs.Course
import LineCompiler.Proofs.Sessions

/-!
# The log of a run

The log of a run accounts for all that the run does: for each instruction that it writes, for each
variable that it declares, for each statement that it compiles, and for the way in which it ends.

* `Event.Tells`: what a part of a log tells of the way from one table to another. Parts of a log
  that follow each other are put together by `Event.Tells.append`.
* `Action.tells_effect` is the step lemma, one case for each action; `Emit.tells_statement` and
  `Emit.tells_passing` are the results for the larger parts of a run.
* `Compilation.events_of_completed` and `Compilation.events_of_stopped` take a log apart at its end.
* `log_traces_run` puts this together for every run of a compilation.
-/

namespace LineCompiler

/-! ## Reading a log -/

/-- The events of a log that are shown to a reader who asked for `wanted`. -/
def Trace.shown {α : Type} (trace : Trace α) (wanted : Level) : List Event :=
  trace.log.toList.filter fun event => wanted.shows event.level

/-- Nothing is withheld from a reader who asks for everything. -/
theorem Trace.shown_trace {α : Type} (trace : Trace α) :
    trace.shown .trace = trace.log.toList := by
  refine List.filter_eq_self.mpr fun event _ => ?_
  cases event <;> rfl

namespace Event

/-- The field of an event that shows an instruction. -/
def instructionField? (e : Event) : Option String :=
  (e.fields.lookup "instruction").map Field.shown

/-- The name and the slot of the variable whose declaration an event tells of. -/
def declaration? : Event → Option (String × Nat)
  | declared name slot => some (name, slot)
  | _ => none

/-- The line of the statement whose compilation an event tells of. -/
def compiledLine? : Event → Option Nat
  | compiled line _ => some line
  | _ => none

/-- The event tells neither of a fault nor of the end of a compilation. -/
def Ongoing (e : Event) : Prop := e.level ≠ .error ∧ e.message ≠ "compilation finished"

theorem ongoing_emit (i : Instruction) : (emit i).Ongoing := by simp [Ongoing, level, message]

theorem ongoing_declared (name : String) (slot : Nat) : (declared name slot).Ongoing :=
  by simp [Ongoing, level, message]

theorem ongoing_parsed (line : Nat) (tree : Expr) : (parsed line tree).Ongoing :=
  by simp [Ongoing, level, message]

theorem ongoing_compiled (line : Nat) (value : Int32) : (compiled line value).Ongoing :=
  by simp [Ongoing, level, message]

theorem instructionField?_eq (e : Event) :
    e.instructionField? = e.instruction?.map Instruction.text := by
  cases e <;> rfl

/-- The instructions that a log shows are the text of its program. -/
theorem join_instructionFields (events : List Event) :
    String.join ((events.filterMap instructionField?).map (· ++ "\n")) =
      Instruction.lines (program events) := by
  induction events with
  | nil => rfl
  | cons e events ih =>
    cases hi : e.instruction? with
    | none =>
      have hfield : e.instructionField? = none := by rw [instructionField?_eq, hi, Option.map_none]
      rw [List.filterMap_cons_none hfield, program_of_silent hi, ih]
    | some i =>
      have hfield : e.instructionField? = some i.text := by
        rw [instructionField?_eq, hi, Option.map_some]
      obtain rfl := instruction?_eq_some.mp hi
      rw [List.filterMap_cons_some hfield, List.map_cons, String.join_cons, ih, program_emit,
        Instruction.lines]
      rfl

/-- What a part of a log tells of the way from the table `t` to the table `t'`: which variables have
been declared on it, and on which lines statements have been compiled. -/
structure Tells (t t' : Table) (lines : List Nat) (events : List Event) : Prop where
  ongoing : ∀ event ∈ events, event.Ongoing
  declared_eq : t.names.zipIdx ++ events.filterMap declaration? = t'.names.zipIdx
  lines_eq : events.filterMap compiledLine? = lines

namespace Tells

variable {t t' t'' : Table} {lines lines' : List Nat} {events events' : List Event}

protected theorem nil (t : Table) : Tells t t [] [] where
  ongoing := by simp
  declared_eq := List.append_nil _
  lines_eq := rfl

theorem append (h : Tells t t' lines events) (h' : Tells t' t'' lines' events') :
    Tells t t'' (lines ++ lines') (events ++ events') where
  ongoing := by
    intro event hevent
    rcases List.mem_append.mp hevent with hevent | hevent
    · exact h.ongoing event hevent
    · exact h'.ongoing event hevent
  declared_eq := by rw [List.filterMap_append, ← List.append_assoc, h.declared_eq, h'.declared_eq]
  lines_eq := by rw [List.filterMap_append, h.lines_eq, h'.lines_eq]

/-- An event that tells of no declaration. -/
theorem single (t : Table) {event : Event} (h : event.Ongoing) (hnone : event.declaration? = none) :
    Tells t t event.compiledLine?.toList [event] where
  ongoing := by
    intro other hother
    rw [List.mem_singleton.mp hother]
    exact h
  declared_eq := by
    rw [List.filterMap_cons_none hnone, List.filterMap_nil, List.append_nil]
  lines_eq := by
    cases hline : event.compiledLine? with
    | none => exact List.filterMap_cons_none hline
    | some line => exact List.filterMap_cons_some hline

/-- Writing instructions declares nothing. -/
theorem emits (t : Table) (program : List Instruction) : Tells t t [] (program.map emit) where
  ongoing := by
    intro event hevent
    obtain ⟨i, -, rfl⟩ := List.mem_map.mp hevent
    exact ongoing_emit i
  declared_eq := by
    have hnone : (program.map emit).filterMap declaration? = [] :=
      List.filterMap_eq_nil_iff.mpr (by simp [declaration?])
    rw [hnone, List.append_nil]
  lines_eq := List.filterMap_eq_nil_iff.mpr (by simp [compiledLine?])

theorem filterMap_declarations (t t' : Table) :
    (declarations t t').filterMap declaration? = t'.names.zipIdx.drop t.size := by
  rw [declarations, Table.names, List.zipIdx_map, ← List.map_drop, List.filterMap_map,
    ← List.filterMap_eq_map]
  rfl

/-- Variables that are added behind the others are listed. -/
theorem declares (h : t.names <+: t'.names) : Tells t t' [] (declarations t t') where
  ongoing := by
    intro event hevent
    obtain ⟨pair, -, rfl⟩ := List.mem_map.mp hevent
    exact ongoing_declared _ _
  declared_eq := by
    obtain ⟨more, hmore⟩ := h
    have hsize : t.size = t.names.zipIdx.length := by rw [List.length_zipIdx, Table.length_names]
    rw [filterMap_declarations, ← hmore, List.zipIdx_append, hsize, List.drop_left]
  lines_eq := by
    refine List.filterMap_eq_nil_iff.mpr fun event hevent => ?_
    obtain ⟨pair, -, rfl⟩ := List.mem_map.mp hevent
    rfl

/-- What a log tells if it goes on with events that tell of nothing. -/
theorem followed (h : Tells t t' lines events) (last : List Event)
    (hdeclared : last.filterMap declaration? = []) (hcompiled : last.filterMap compiledLine? = []) :
    t.names.zipIdx ++ (events ++ last).filterMap declaration? = t'.names.zipIdx ∧
      (events ++ last).filterMap compiledLine? = lines := by
  constructor
  · rw [List.filterMap_append, hdeclared, List.append_nil, h.declared_eq]
  · rw [List.filterMap_append, hcompiled, List.append_nil, h.lines_eq]

end Tells

end Event

/-! ## What the parts of a run log -/

section Parts

open Event (Tells)

/-- One action logs its declaration before its instruction. -/
theorem Action.tells_effect (a : Action) (e : Emitter) :
    Tells e.table (a.effect e).state.table [] (a.effect e).events := by
  have hnames := (Job.changes_effect (.act a) e).names_mono
  rw [Job.effect] at hnames
  cases a with
  | literal value => exact Tells.emits _ [_]
  | enterDivisor => exact Tells.nil _
  | leaveDivisor => exact Tells.nil _
  | combine op => exact Tells.emits _ [_]
  | load name =>
    rw [effect] at hnames ⊢
    split at hnames
    · exact (Tells.declares hnames).append (Tells.emits _ [_])
    · exact Tells.nil _
  | store name =>
    rw [effect] at hnames ⊢
    split at hnames
    · exact (Tells.declares hnames).append (Tells.emits _ [_])
    · exact Tells.nil _

/-- Actions log nothing but declarations and instructions, also if one of them fails. -/
theorem Action.tells_effects (actions : List Action) (e : Emitter) :
    Tells e.table (effects actions e).state.table [] (effects actions e).events := by
  induction actions generalizing e with
  | nil => exact Tells.nil _
  | cons a rest ih =>
    have hfirst := tells_effect a e
    rw [effects]
    cases hresult : (a.effect e).result with
    | ok _ =>
      rw [Effect.andThen_of_ok hresult]
      exact hfirst.append (ih _)
    | error fault =>
      rw [Effect.andThen_of_error hresult]
      exact hfirst

namespace Emit

theorem tells_statement (tree : Expr) (e : Emitter) :
    Tells e.table (statementEffect tree e).state.table [] (statementEffect tree e).events := by
  have hactions :=
    Action.tells_effects (tree.actions []) { e with registers := [], divisor := .outside }
  rw [statementEffect]
  cases hresult : (Action.effects (tree.actions [])
      { e with registers := [], divisor := .outside }).result with
  | ok _ =>
    rw [Effect.andThen_of_ok hresult, List.append_nil]
    exact hactions
  | error fault =>
    rw [Effect.andThen_of_error hresult]
    exact hactions

theorem tells_parsed (t : Table) (logTree : Bool) (line : Nat) (tree : Expr) :
    Tells t t [] (if logTree then [.parsed line tree] else []) := by
  cases logTree with
  | false => exact Tells.nil t
  | true => exact Tells.single t (Event.ongoing_parsed line tree) rfl

section Logged

variable {tree : Expr} {e : Emitter} (logTree : Bool) (line : Nat)

theorem tells_logged_of_ok {value : Int32} (h : (statementEffect tree e).result = .ok value) :
    Tells e.table (loggedEffect logTree line tree e).state.table [line]
      (loggedEffect logTree line tree e).events := by
  rw [loggedEffect_of_ok logTree line h]
  exact (tells_parsed _ logTree line tree).append
    ((tells_statement tree e).append (Tells.single _ (Event.ongoing_compiled line value) rfl))

/-- A statement that fails is not logged as compiled. -/
theorem tells_logged_of_error {fault : Fault} (h : (statementEffect tree e).result = .error fault) :
    Tells e.table (statementEffect tree e).state.table []
      (loggedEffect logTree line tree e).events := by
  rw [loggedEffect_of_error logTree line h]
  exact (tells_parsed _ logTree line tree).append (tells_statement tree e)

end Logged

theorem tells_loggedEffects {logTrees : Bool} {passed : List (Nat × Expr)} {e : Emitter}
    (h : (loggedEffects logTrees passed e).result = .ok ()) :
    Tells e.table (loggedEffects logTrees passed e).state.table (passed.map Prod.fst)
      (loggedEffects logTrees passed e).events := by
  induction passed generalizing e with
  | nil => exact Tells.nil _
  | cons s rest ih =>
    rw [loggedEffects] at h ⊢
    cases hresult : (statementEffect s.2 e).result with
    | ok value =>
      have hfirst := tells_logged_of_ok logTrees s.1 hresult
      have hok : (loggedEffect logTrees s.1 s.2 e).result = .ok () := by
        rw [loggedEffect_of_ok logTrees s.1 hresult]
      rw [Effect.andThen_of_ok hok] at h ⊢
      exact hfirst.append (ih h)
    | error fault =>
      rw [Effect.andThen_of_error (by rw [loggedEffect_of_error logTrees s.1 hresult])] at h
      cases h

theorem tells_opening (pairs : List (String × Nat)) (e : Emitter) :
    Tells e.table (openingEffect pairs e).state.table [] (openingEffect pairs e).events := by
  induction pairs generalizing e with
  | nil => exact Tells.nil _
  | cons pair rest ih =>
    rcases Nat.lt_or_ge e.table.size e.table.config.capacity with hroom | hfull
    · have hnames : e.table.names <+: (e.table.extend pair.1 0).names := by
        rw [Table.names_extend]
        exact List.prefix_append _ _
      rw [openingEffect_of_room hroom, Effect.andThen_of_ok rfl]
      exact ((Tells.declares hnames).append (Tells.emits _ [_])).append
        (ih { e with table := e.table.extend pair.1 0 })
    · rw [openingEffect_of_full hfull]
      exact Tells.nil _

theorem tells_passing {logTrees : Bool} {passed : List (Nat × Expr)} {e : Emitter}
    (h : (passingEffect logTrees passed e).result = .ok ()) :
    Tells e.table (passingEffect logTrees passed e).state.table (passed.map Prod.fst)
      (passingEffect logTrees passed e).events := by
  have hopening := tells_opening predeclared.zipIdx e
  rw [passingEffect] at h ⊢
  cases hresult : (openingEffect predeclared.zipIdx e).result with
  | ok _ =>
    rw [Effect.andThen_of_ok hresult] at h ⊢
    exact hopening.append (tells_loggedEffects h)
  | error fault =>
    rw [Effect.andThen_of_error hresult] at h
    cases h

end Emit

end Parts

/-! ## What a run logs -/

namespace Compilation

open Event (Tells)

variable {c : Compilation} {fault : Fault}

/-- The log of a run that completes: it tells of all statements up to the end of the text, and then
of their number. -/
theorem events_of_completed (h : c.effect.result = .ok .completed) :
    ∃ passed place before,
      c.cursor.Passes passed place ∧ place.next.1 = .ok .endOfText ∧
      c.effect.state.line = place.line ∧ c.effect.events = before ++ [.finished passed.length] ∧
      Tells c.emitter.table c.effect.state.emitter.table (passed.map Prod.fst) before := by
  obtain ⟨count, hwork⟩ := completed_iff.mp h
  rw [effect, Compile.ending_closed_of_ok hwork]
  have hcourse := Compile.course_workEffect c
  generalize Compile.workEffect c = work at hwork hcourse
  cases hcourse with
  | unopened => cases hwork
  | opened hreaches =>
    cases hreaches with
    | unread => cases hwork
    | uncompiled => cases hwork
    | @finished passed place d hpasses hdone hnext =>
      cases hwork
      have htells := (Emit.tells_passing hdone).append (Tells.emits _
        (Emit.closingProgram (Emit.passingEffect c.logTrees passed c.emitter).state.table))
      rw [List.append_nil] at htells
      refine ⟨passed, place, _, hpasses, congrArg Prod.fst hnext, rfl, ?_, htells⟩
      -- the statements of a run are counted from 0 on
      rw [Nat.zero_add]

/-- The log of a run that stops: it tells of all statements before the one that fails, of what that
one does, and then of the fault. -/
theorem events_of_stopped (h : c.Unhindered) (hstopped : c.effect.result = .ok (.stopped fault)) :
    ∃ before lines,
      c.effect.events = before ++ [.failed fault c.effect.state.line, .emit (.exit 1)] ∧
      Tells c.emitter.table c.effect.state.emitter.table lines before ∧
      (((c.emitter.run Emit.opening).1.result = .error fault ∧
          c.effect.state.line = c.line ∧ lines = []) ∨
        ∃ passed place, c.StopsAt fault passed place ∧
          c.effect.state.line = place.line ∧ lines = passed.map Prod.fst) := by
  have hwork := stopped_iff.mp hstopped
  rw [effect, Compile.ending_closed_of_error hwork]
  have hcourse := Compile.course_workEffect c
  generalize Compile.workEffect c = work at hwork hcourse
  cases hcourse with
  | unopened hopening =>
    cases hwork
    refine ⟨_, [], rfl, Emit.tells_opening _ _, .inl ⟨?_, rfl, rfl⟩⟩
    exact (Emitter.run_of_unlimited (Emit.performs_opening c.emitter) h.1).1.trans hopening
  | opened hreaches =>
    cases hreaches with
    | finished => cases hwork
    | @unread passed place d _ hpasses hdone hnext =>
      cases hwork
      exact ⟨_, _, rfl, Emit.tells_passing hdone,
        .inr ⟨passed, place, stopsAt_of_unread h hpasses hdone hnext, rfl, rfl⟩⟩
    | @uncompiled passed place d tree _ hpasses hdone hnext hfails =>
      cases hwork
      -- the statement that fails may have declared variables and written instructions
      have htells := (Emit.tells_passing hdone).append
        (Emit.tells_logged_of_error c.logTrees place.line hfails)
      rw [List.append_nil] at htells
      exact ⟨_, _, rfl, htells,
        .inr ⟨passed, place, stopsAt_of_uncompiled h hpasses hdone hnext hfails, rfl, rfl⟩⟩

/-- Between two runs, the cursor of a compilation stands in its text. -/
theorem standsIn_after (text : String) (config : Config) (logTrees : Bool) (k : Nat) :
    ((ofText text config {} logTrees).after k).cursor.StandsIn text.toList := by
  induction k with
  | zero => exact Cursor.standsIn_ofString text
  | succ k ih =>
    have hunhindered := ((settled_ofText text config logTrees).after k).unhindered
    have hcursor := (Compile.course_workEffect _).standsIn ih
    rw [← state_effect] at hcursor
    rw [after, run_of_unhindered hunhindered]
    exact hcursor

theorem shown_run (h : c.Unhindered) : c.run.1.shown .trace = c.effect.events := by
  rw [Trace.shown_trace, run_of_unhindered h]

theorem line_run (h : c.Unhindered) : c.run.2.line = c.effect.state.line := by
  rw [run_of_unhindered h]
  rfl

end Compilation

/-- **The log is a faithful trace of a run.** Let a compilation have been run `k` times, and look at
everything that its next run logs. The instructions shown in the log are the text that the run
writes. The variables declared in it are those that the run adds to the table, in slot order. The
lines of the statements logged as compiled increase.

If the run completes, the last event and no other one tells of its end, with the number of
statements compiled. If it stops, one event tells of a fault, and only an exit instruction follows
it. Its line is the one on which the statement begins that could not be read or compiled; if already
the opening fails, it is the line that the compilation had come to before, which is 1 at first. -/
theorem log_traces_run (text : String) (config : Config) (logTrees : Bool) (k : Nat) :
    let session := (Compilation.ofText text config {} logTrees).after
    let log := (session k).run.1.shown .trace
    (session 0).line = 1 ∧
    String.join ((log.filterMap Event.instructionField?).map (· ++ "\n")) =
      (session k).run.1.text ∧
    (session k).emitter.table.names.zipIdx ++ log.filterMap Event.declaration? =
      (session (k + 1)).emitter.table.names.zipIdx ∧
    (log.filterMap Event.compiledLine?).Pairwise (· < ·) ∧
    match (session k).run.1.result with
    | .ok .completed => ∃ before passed place,
      log = before ++ [.finished (log.filterMap Event.compiledLine?).length] ∧
      (∀ event ∈ before, event.Ongoing) ∧
      (session k).cursor.Passes passed place ∧ place.StandsIn text.toList ∧
      place.next.1 = .ok .endOfText ∧ (session (k + 1)).line = place.line ∧
      log.filterMap Event.compiledLine? = passed.map Prod.fst
    | .ok (.stopped fault) => ∃ before,
      log = before ++ [.failed fault (session (k + 1)).line, .emit (.exit 1)] ∧
      (∀ event ∈ before, event.Ongoing) ∧
      (((session k).emitter.run Emit.opening).1.result = .error fault ∧
          (session (k + 1)).line = (session k).line ∧ log.filterMap Event.compiledLine? = [] ∨
        ∃ passed place, (session k).StopsAt fault passed place ∧ place.StandsIn text.toList ∧
          (session (k + 1)).line = place.line ∧
          log.filterMap Event.compiledLine? = passed.map Prod.fst)
    | .error _ => False := by
  intro session log
  have hk := ((Compilation.settled_ofText text config logTrees).after k).unhindered
  have hcursor := Compilation.standsIn_after text config logTrees k
  have hlog : log = (session k).effect.events := Compilation.shown_run hk
  have hline : (session (k + 1)).line = (session k).effect.state.line := Compilation.line_run hk
  have htable : (session (k + 1)).emitter.table = (session k).effect.state.emitter.table :=
    Compilation.table_run hk
  refine ⟨rfl, ?_, ?_⟩
  · rw [Event.join_instructionFields, hlog]
    exact (Compilation.text_run hk).symm
  rw [htable, hline, Compilation.result_run hk]
  rcases (session k).completed_or_stopped with hresult | ⟨fault, hresult⟩
  · obtain ⟨passed, place, before, hpasses, hend, hplace, hevents, htells⟩ :=
      Compilation.events_of_completed hresult
    obtain ⟨hdeclared, hlines⟩ := htells.followed [.finished passed.length] rfl rfl
    rw [← hevents, ← hlog] at hdeclared hlines
    rw [hresult, hlines, List.length_map]
    exact ⟨hdeclared, hpasses.increasing, before, passed, place, hlog.trans hevents, htells.ongoing,
      hpasses, hpasses.standsIn hcursor, hend, hplace, rfl⟩
  · obtain ⟨before, lines, hevents, htells, hplace⟩ := Compilation.events_of_stopped hk hresult
    obtain ⟨hdeclared, hlines⟩ :=
      htells.followed [.failed fault _, .emit (.exit 1)] rfl rfl
    rw [← hevents, ← hlog] at hdeclared hlines
    rw [hresult, hlines]
    refine ⟨hdeclared, ?_, before, hlog.trans hevents, htells.ongoing, ?_⟩
    · rcases hplace with ⟨-, -, rfl⟩ | ⟨passed, place, hstops, -, rfl⟩
      · exact List.Pairwise.nil
      · exact hstops.passes.increasing
    · rcases hplace with hopening | ⟨passed, place, hstops, hat, hpassed⟩
      · exact .inl hopening
      · exact .inr ⟨passed, place, hstops, hstops.passes.standsIn hcursor, hat, hpassed⟩

end LineCompiler
