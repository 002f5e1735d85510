import LineCompiler.Proofs.Simulation

/-!
# Compiled programs are correct

Executing the program of a run brings the memory from the variables that the run found to those that
it leaves, whether the run completes or stops at a fault; a completed program also leaves the
predeclared variables in the first registers. A compilation can be run again and again, and each
program is executed in the memory that those before it have left. All this holds as long as
addresses are long enough for the variables, and `third_variable_stored_over_first` is a case where
they are not.

* `Compilation.run_program` follows the program of one run.
* `Execution.Ready.advance` is the step from run to run, and `executed_program_agrees_with_table`
  the result for any number of them.
-/

namespace LineCompiler

/-! ## What the opening leaves -/

/-- A table as a run may find it: without variables, without room for one more, or with the
predeclared variables in the first slots. -/
def Table.Prepared (t : Table) : Prop :=
  t.names = [] ∨ t.isFull ∨ Emit.predeclared <+: t.names

namespace Emit

/-- The table behind an opening: either all variables have been added, or it is full. -/
def OpenedFrom (before : Table) (pairs : List (String × Nat)) : Except Fault Unit → Emitter → Prop
  | .ok _, e => e.table.names = before.names ++ pairs.map Prod.fst
  | .error _, e => e.table.isFull

theorem openedFrom_opening (pairs : List (String × Nat)) (e : Emitter) :
    OpenedFrom e.table pairs (openingEffect pairs e).result (openingEffect pairs e).state := by
  induction pairs generalizing e with
  | nil => simp [openingEffect, OpenedFrom]
  | cons pair rest ih =>
    rcases Nat.lt_or_ge e.table.size e.table.config.capacity with hroom | hfull
    · have hrest := ih { e with table := e.table.extend pair.1 0 }
      rw [openingEffect_of_room hroom, Effect.andThen_of_ok rfl]
      cases hresult : (openingEffect rest { e with table := e.table.extend pair.1 0 }).result with
      | ok =>
        rw [hresult] at hrest
        simpa [OpenedFrom] using hrest
      | error fault =>
        rw [hresult] at hrest
        exact hrest
    · rw [openingEffect_of_full hfull]
      exact decide_eq_true hfull

/-- What an opening does to a prepared table: the predeclared variables stand in the first slots, or
there was no room for all of them. -/
def Opened : Except Fault Unit → Emitter → Prop
  | .ok _, e => predeclared <+: e.table.names
  | .error _, e => e.table.isFull

theorem opened_opening {e : Emitter} (h : e.table.Prepared) :
    Opened (openingEffect predeclared.zipIdx e).result
      (openingEffect predeclared.zipIdx e).state := by
  have hopened := openedFrom_opening predeclared.zipIdx e
  cases hresult : (openingEffect predeclared.zipIdx e).result with
  | error fault =>
    rw [hresult] at hopened
    exact hopened
  | ok =>
    rw [hresult] at hopened
    rw [Opened, hopened, List.zipIdx_map_fst]
    rcases h with hempty | hfull | hfirst
    · refine ⟨[], ?_⟩
      rw [hempty, List.append_nil, List.nil_append]
    · -- the first declaration fails already
      rw [predeclared, List.zipIdx_cons, openingEffect_of_full (of_decide_eq_true hfull)] at hresult
      cases hresult
    · exact hfirst.trans (List.prefix_append _ _)

end Emit

namespace Machine

/-- Loads of registers from memory, none of which is in the way of another. -/
theorem exec_loads (address : Nat → Nat) (slots : List Nat) (m : Machine) :
    m.exec (slots.map fun slot => .mov (.reg slot) (.mem (address slot))) =
      some { m with registers := fun index =>
        if index ∈ slots then m.memory (address index) else m.registers index } := by
  induction slots generalizing m with
  | nil => simp [exec]
  | cons slot slots ih =>
    rw [List.map_cons, exec, step, write]
    refine (ih _).trans ?_
    congr 2
    funext index
    by_cases hslots : index ∈ slots
    · simp [hslots]
    · by_cases hslot : index = slot
      · simp [hslot, read]
      · simp [hslots, hslot]

end Machine

/-! ## One run -/

namespace Table

theorem slot?_predeclared {t : Table} (h : Emit.predeclared <+: t.names) :
    ∀ pair ∈ Emit.predeclared.zipIdx, t.slot? pair.1 = some pair.2 := by
  obtain ⟨rest, hrest⟩ := h
  intro pair hpair
  rw [slot?_eq_idxOf?, ← hrest]
  simp [Emit.predeclared] at hpair
  rcases hpair with rfl | rfl | rfl
  · rfl
  · rfl
  · rfl

end Table

namespace Compile

/-- What is known behind the statements of a run. -/
structure Worked (result : Except Fault Nat) (c : Compilation) (m : Machine) : Prop where
  tracked : c.emitter.table.Tracked [] m.memory
  prepared : c.emitter.table.Prepared
  first : ∀ count, result = .ok count → Emit.predeclared <+: c.emitter.table.names

theorem drives_work {c : Compilation} {m : Machine} (h : c.emitter.table.Tracked [] m.memory)
    (hprepared : c.emitter.table.Prepared) : Drives (workEffect c) m Worked := by
  have hopening :=
    (Emit.drives_opening Emit.predeclared.zipIdx h).and (Emit.opened_opening hprepared)
  refine (drives_lift hopening).andThen ?_ ?_
  · rintro _ m ⟨htracked, hfirst⟩
    refine (drives_loop _ 0 ⟨htracked.spaced, htracked.stored, hfirst⟩).mono ?_
    intro result c m htracked
    exact ⟨⟨htracked.spaced, htracked.stored, List.nil_prefix⟩, .inr (.inr htracked.first),
      fun _ _ => htracked.first⟩
  · rintro fault m ⟨htracked, hfull⟩
    exact ⟨htracked, .inr (.inl hfull), nofun⟩

end Compile

/-- The values of the predeclared variables are in the first registers. -/
def Table.LoadedInto (t : Table) (registers : Nat → Int32) : Prop :=
  ∀ pair ∈ Emit.predeclared.zipIdx, (t.slot? pair.1).bind t.value? = some (registers pair.2)

/-- The lines that end a completed program load the predeclared variables. -/
theorem Machine.exec_closing {t : Table} {m : Machine} {names : List String}
    (h : t.Tracked names m.memory) (hfirst : Emit.predeclared <+: t.names) :
    ∃ registers, m.exec ((List.range Emit.predeclared.length).map fun slot =>
        .mov (.reg slot) (.mem (t.address slot))) = some { m with registers } ∧
      (t.Addressable → t.LoadedInto registers) := by
  refine ⟨_, exec_loads t.address _ m, ?_⟩
  intro haddressable pair hpair
  have hslot := Table.slot?_predeclared hfirst pair hpair
  obtain ⟨value, hvalue⟩ : ∃ value, t.value? pair.2 = some value := by
    refine Option.ne_none_iff_exists'.mp fun hnone => ?_
    have := Table.lt_size_of_slot? hslot
    rw [Table.value?_eq_none_iff] at hnone
    omega
  have hrange : pair.2 ∈ List.range Emit.predeclared.length := by
    have := List.snd_lt_add_of_mem_zipIdx hpair
    simpa using this
  rw [hslot, Option.bind_some, hvalue, ← (h.stored haddressable).value_eq hvalue,
    ← haddressable.address_eq (Table.lt_size_of_slot? hslot)]
  exact congrArg some (if_pos hrange).symm

namespace Compilation

/-- What is known behind a run and the execution of its program. -/
structure Executed (outcome : Outcome) (c : Compilation) (m : Machine) : Prop where
  tracked : c.emitter.table.Tracked [] m.memory
  prepared : c.emitter.table.Prepared
  loaded : outcome = .completed → c.emitter.table.Addressable →
    c.emitter.table.LoadedInto m.registers

/-- **The program of a run** ends with its one exit instruction, and the machine that has executed
it agrees with the variables that the run leaves. -/
theorem run_program {c : Compilation} {m : Machine} (h : c.emitter.table.Tracked [] m.memory)
    (hprepared : c.emitter.table.Prepared) :
    ∃ outcome machine, c.effect.result = .ok outcome ∧
      m.run (Event.program c.effect.events) =
        some ⟨machine, Int32.ofNat outcome.exitCode, []⟩ ∧
      Executed outcome c.effect.state machine := by
  obtain ⟨m', hexec, hworked⟩ := Compile.drives_work h hprepared
  cases hresult : (Compile.workEffect c).result with
  | ok count =>
    obtain ⟨registers, hclosing, hloaded⟩ :=
      Machine.exec_closing hworked.tracked (hworked.first count hresult)
    refine ⟨.completed, { m' with registers }, ?_⟩
    rw [effect, Compile.ending_closed_of_ok hresult]
    refine ⟨rfl, ?_, hworked.tracked, hworked.prepared, fun _ => hloaded⟩
    have hlines := (Machine.exec_append_of_some hexec _).trans hclosing
    rw [Event.program_append, Event.program_append, Event.program_map_emit, Emit.closingProgram,
      ← List.append_assoc, List.append_assoc _ [_]]
    exact Machine.run_append_exit hlines 0 []
  | error fault =>
    refine ⟨.stopped fault, m', ?_⟩
    rw [effect, Compile.ending_closed_of_error hresult]
    refine ⟨rfl, ?_, hworked.tracked, hworked.prepared, Outcome.noConfusion⟩
    rw [Event.program_append]
    exact Machine.run_append_exit hexec 1 []

end Compilation

/-! ## Run after run -/

/-- A compilation, and the memory in which the programs of its runs are executed. -/
structure Execution where
  compilation : Compilation
  memory : Nat → Int32 := fun _ => 0

namespace Execution

/-- Runs the compilation once more and executes the program of that run, which may find anything in
the registers. -/
def advance (x : Execution) (registers : Nat → Int32) : Option Execution :=
  match Machine.run ⟨registers, x.memory⟩ x.compilation.run.1.program with
  | some halt => some ⟨x.compilation.run.2, halt.machine.memory⟩
  | none => none

theorem compilation_of_advance {x y : Execution} {registers : Nat → Int32}
    (h : x.advance registers = some y) : y.compilation = x.compilation.run.2 := by
  rw [advance] at h
  split at h
  · cases h
    rfl
  · cases h

/-- What holds before every run. -/
structure Ready (x : Execution) : Prop where
  unhindered : x.compilation.Unhindered
  tracked : x.compilation.emitter.table.Tracked [] x.memory
  prepared : x.compilation.emitter.table.Prepared

theorem ready_ofText (text : String) {config : Config} (hword : 1 ≤ config.wordSize)
    (logTrees : Bool) : Ready { compilation := .ofText text config {} logTrees } where
  unhindered := ⟨rfl, rfl⟩
  tracked := ⟨hword, fun _ => Table.storedIn_empty config, List.nil_prefix⟩
  prepared := .inl rfl

theorem Ready.run {x : Execution} (h : x.Ready) (registers : Nat → Int32) :
    ∃ outcome machine, x.compilation.run.1.result = .ok outcome ∧
      Machine.run ⟨registers, x.memory⟩ x.compilation.run.1.program =
        some ⟨machine, Int32.ofNat outcome.exitCode, []⟩ ∧
      Compilation.Executed outcome x.compilation.run.2 machine := by
  obtain ⟨outcome, machine, hresult, hrun, hexecuted⟩ :=
    Compilation.run_program (m := ⟨registers, x.memory⟩) h.tracked h.prepared
  rw [Compilation.run_of_unhindered h.unhindered]
  -- the output that a run leaves in its compilation touches none of the variables
  exact ⟨outcome, machine, hresult, hrun, hexecuted.tracked, hexecuted.prepared, hexecuted.loaded⟩

theorem Ready.advance {x : Execution} (h : x.Ready) (registers : Nat → Int32) :
    ∃ y, x.advance registers = some y ∧ y.Ready := by
  obtain ⟨outcome, machine, -, hrun, hexecuted⟩ := h.run registers
  refine ⟨⟨x.compilation.run.2, machine.memory⟩, by rw [Execution.advance, hrun], ?_⟩
  exact ⟨Compilation.unhindered_run h.unhindered, hexecuted.tracked, hexecuted.prepared⟩

theorem Ready.foldlM_advance {x : Execution} (h : x.Ready) (files : List (Nat → Int32)) :
    ∃ y, files.foldlM Execution.advance x = some y ∧ y.Ready := by
  induction files generalizing x with
  | nil => exact ⟨x, rfl, h⟩
  | cons registers files ih =>
    obtain ⟨y, hadvance, hy⟩ := h.advance registers
    obtain ⟨z, hrest, hz⟩ := ih hy
    refine ⟨z, ?_, hz⟩
    rw [List.foldlM_cons, hadvance]
    exact hrest

end Execution

/-- **Correctness of the compiler.** However often a compilation has been run, and whatever each
program found in the registers, the program of the next run ends with its one exit instruction,
whose code tells the outcome of the run. As long as addresses are long enough for all variables, the
memory then holds the variables of the compilation and nothing else, and if the run completed, the
first registers hold the predeclared variables. -/
theorem executed_program_agrees_with_table (text : String) (config : Config) (logTrees : Bool)
    (hword : 1 ≤ config.wordSize) (files : List (Nat → Int32)) (registers : Nat → Int32) :
    ∃ x : Execution, files.foldlM Execution.advance
        { compilation := .ofText text config {} logTrees } = some x ∧
      ∃ outcome machine,
        x.compilation.run.1.result = .ok outcome ∧
        x.compilation.run.1.text = Instruction.lines x.compilation.run.1.program ∧
        Machine.run ⟨registers, x.memory⟩ x.compilation.run.1.program =
          some ⟨machine, Int32.ofNat outcome.exitCode, []⟩ ∧
        (x.compilation.run.2.emitter.table.Addressable →
          x.compilation.run.2.emitter.table.StoredIn machine.memory ∧
          (outcome = .completed →
            x.compilation.run.2.emitter.table.LoadedInto machine.registers)) := by
  obtain ⟨x, hruns, hready⟩ :=
    (Execution.ready_ofText text hword logTrees).foldlM_advance files
  obtain ⟨outcome, machine, hresult, hrun, hexecuted⟩ := hready.run registers
  refine ⟨x, hruns, outcome, machine, hresult, ?_, hrun, fun haddressable => ?_⟩
  · rw [Trace.program, Compilation.run_of_unhindered hready.unhindered]
  · exact ⟨hexecuted.tracked.stored haddressable,
      fun hcompleted => hexecuted.loaded hcompleted haddressable⟩

/-- Two runs of a text that stops inside its second statement, with room for four variables. -/
theorem executed_program_agrees_with_table_after_fault :
    1 ≤ ({ wordSize := 2, capacity := 4 } : Config).wordSize ∧
    ∃ x : Execution, [fun _ => 7].foldlM Execution.advance
        { compilation := .ofText "a = 9\nx = (a = 5) / (3 - 3)\ny = 1\n"
            { wordSize := 2, capacity := 4 } {} false } = some x ∧
      x.compilation.run.2.emitter.table.Addressable ∧
      ∃ outcome machine,
        x.compilation.run.1.result = .ok outcome ∧
        x.compilation.run.1.text = Instruction.lines x.compilation.run.1.program ∧
        Machine.run ⟨fun _ => 1, x.memory⟩ x.compilation.run.1.program =
          some ⟨machine, Int32.ofNat outcome.exitCode, []⟩ ∧
        x.compilation.run.2.emitter.table.StoredIn machine.memory ∧
        (outcome = .completed →
          x.compilation.run.2.emitter.table.LoadedInto machine.registers) := by
  have htable : (Compilation.ofText "a = 9\nx = (a = 5) / (3 - 3)\ny = 1\n"
      { wordSize := 2, capacity := 4 } {} false).run.2.run.2.emitter.table =
      ⟨{ wordSize := 2, capacity := 4 }, [⟨"x", 0⟩, ⟨"y", 0⟩, ⟨"z", 0⟩, ⟨"a", 5⟩]⟩ := by
    cbv
  obtain ⟨x, hruns, outcome, machine, hresult, htext, hrun, hstored⟩ :=
    executed_program_agrees_with_table "a = 9\nx = (a = 5) / (3 - 3)\ny = 1\n"
      { wordSize := 2, capacity := 4 } false (by decide) [fun _ => 7] fun _ => 1
  have haddressable : x.compilation.run.2.emitter.table.Addressable := by
    obtain ⟨y, hadvance, hy⟩ := Option.bind_eq_some_iff.mp (List.foldlM_cons.symm.trans hruns)
    cases hy
    rw [Execution.compilation_of_advance hadvance, htable]
    intro slot hslot
    change slot < 4 at hslot
    change slot * 2 < 2 ^ 64
    omega
  exact ⟨by decide, x, hruns, haddressable, outcome, machine, hresult, htext, hrun,
    hstored haddressable⟩

/-- With words of size `2 ^ 63` the third variable gets the address of the first one and is stored
over it. -/
theorem third_variable_stored_over_first :
    let c := Compilation.ofText "z = 1\n" { wordSize := 2 ^ 63 } {} false
    1 ≤ c.emitter.table.config.wordSize ∧
    c.run.1.result = .ok .completed ∧
    ∃ machine,
      Machine.run ⟨fun _ => 0, fun _ => 0⟩ c.run.1.program = some ⟨machine, 0, []⟩ ∧
      ¬ c.run.2.emitter.table.StoredIn machine.memory ∧
      ¬ c.run.2.emitter.table.LoadedInto machine.registers := by
  have hresult :
      (Compilation.ofText "z = 1\n" { wordSize := 2 ^ 63 } {} false).run.1.result =
        .ok .completed := by
    cbv
  have htable :
      (Compilation.ofText "z = 1\n" { wordSize := 2 ^ 63 } {} false).run.2.emitter.table =
        ⟨{ wordSize := 2 ^ 63 }, [⟨"x", 0⟩, ⟨"y", 0⟩, ⟨"z", 1⟩]⟩ := by
    cbv
  have hprogram :
      (Compilation.ofText "z = 1\n" { wordSize := 2 ^ 63 } {} false).run.1.program =
        [.preload 0 0, .preload 1 (2 ^ 63), .preload 2 0, .mov (.reg 0) (.imm 1),
          .mov (.mem 0) (.reg 0), .mov (.reg 0) (.mem 0), .mov (.reg 1) (.mem (2 ^ 63)),
          .mov (.reg 2) (.mem 0), .exit 0] := by
    cbv
  dsimp only
  rw [hresult, htable, hprogram]
  refine ⟨by decide, rfl, _, rfl, fun hstored => ?_, fun hloaded => ?_⟩
  · have hx : (⟨{ wordSize := 2 ^ 63 }, [⟨"x", 0⟩, ⟨"y", 0⟩, ⟨"z", 1⟩]⟩ : Table).value? 0 =
        some 0 := rfl
    cases hstored.value_eq hx
  · cases hloaded ("x", 0) (by decide)

end LineCompiler
