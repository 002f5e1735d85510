import LineCompiler.Proofs.Correctness
import LineCompiler.Proofs.Course
import LineCompiler.Proofs.Names

/-!
# The causes of faults

A fault comes to light at the end of a run, when the statement that brought it about may have been
carried out in part and may have declared variables. This module shows that the table which the run
leaves still bears the fault out.

* `Action.Blames t actions fault`: what the table `t` and the actions tell about the fault. One
  action that fails leaves such a table (`Action.blames_effect`), and so do several of them
  (`Action.blames_effects`).
* `Table.Within`: the table keeps its configuration and never exceeds its capacity.
* `Compilation.Cause` lists the causes for which a run stops, and `Compilation.cause_of_stopped`
  says that there are no others.
-/

namespace LineCompiler

/-! ## Loads -/

theorem Expr.mem_loads_of_actions {e : Expr} {name : String} (h : .load name ∈ e.actions []) :
    name ∈ e.loads := by
  induction e with
  | num value => simp [actions] at h
  | var other => simpa [actions, loads] using h
  | binary op left right ihleft ihright =>
    have hparts : .load name ∈ left.actions [] ∨ .load name ∈ right.actions [] := by
      rw [actions] at h
      split at h
      · rw [left.actions_eq_append, right.actions_eq_append] at h
        simpa using h
      · rw [left.actions_eq_append, right.actions_eq_append] at h
        simpa using h
    exact List.mem_append.mpr (hparts.imp ihleft ihright)
  | assign op other right ih =>
    cases op with
    | set =>
      have hright : .load name ∈ right.actions [] := by
        rw [actions] at h
        simp only [AssignOp.combine?] at h
        rw [right.actions_eq_append] at h
        simpa using h
      exact ih hright
    | add | sub =>
      have hparts : name = other ∨ .load name ∈ right.actions [] := by
        rw [actions] at h
        simp only [AssignOp.combine?] at h
        rw [right.actions_eq_append] at h
        simpa using h
      rcases hparts with rfl | hright
      · exact List.mem_cons_self
      · exact List.mem_cons_of_mem _ (ih hright)

/-! ## Faults of actions -/

namespace Action

/-- What a table and some actions tell about a fault. -/
inductive Blames (t : Table) (actions : List Action) : Fault → Prop
  /-- A variable is read that does not exist. There is room to declare it, but reading does not
  declare. -/
  | undefined {name : String} (hload : load name ∈ actions) (habsent : t.slot? name = none)
      (hroom : t.size < t.config.capacity) (hmode : t.config.declareOnRead = false) :
      Blames t actions (.undefined name)
  /-- A variable is used that does not exist, and there is no room to declare it. -/
  | tableFull {a : Action} {name : String} (ha : a ∈ actions) (hname : a.name? = some name)
      (habsent : t.slot? name = none) (hfull : t.config.capacity ≤ t.size) :
      Blames t actions (.tableFull t.config.capacity)
  | zeroDivisor (ha : leaveDivisor ∈ actions) : Blames t actions .zeroDivisor

variable {t : Table} {e : Emitter} {fault : Fault} {actions more : List Action}

theorem Blames.mono (h : Blames t actions fault) (hsub : actions ⊆ more) :
    Blames t more fault := by
  cases h with
  | undefined hload habsent hroom hmode => exact .undefined (hsub hload) habsent hroom hmode
  | tableFull ha hname habsent hfull => exact .tableFull (hsub ha) hname habsent hfull
  | zeroDivisor ha => exact .zeroDivisor (hsub ha)

/-- An action that fails leaves the table as it found it. -/
theorem blames_effect {a : Action} (h : (a.effect e).result = .error fault) :
    Blames (a.effect e).state.table [a] fault := by
  cases a with
  | literal | enterDivisor | combine => cases h
  | leaveDivisor =>
    rw [effect] at h
    split at h
    · cases h
      exact .zeroDivisor (List.mem_singleton_self _)
    · cases h
  | load name =>
    rw [effect] at h ⊢
    split at h
    · cases h
    · rename_i hread
      cases h
      obtain ⟨habsent, ⟨hfull, rfl⟩ | ⟨hroom, hmode, rfl⟩⟩ := Table.read_eq_error.mp hread
      · exact .tableFull (List.mem_singleton_self _) rfl habsent hfull
      · exact .undefined (List.mem_singleton_self _) habsent hroom hmode
  | store name =>
    rw [effect] at h ⊢
    split at h
    · cases h
    · rename_i hwrite
      cases h
      obtain ⟨habsent, hfull, rfl⟩ := Table.write_eq_error.mp hwrite
      exact .tableFull (List.mem_singleton_self _) rfl habsent hfull

/-- Nothing happens behind the action that fails. -/
theorem blames_effects (h : (effects actions e).result = .error fault) :
    Blames (effects actions e).state.table actions fault := by
  induction actions generalizing e with
  | nil => cases h
  | cons a rest ih =>
    rw [effects] at h ⊢
    cases hresult : (a.effect e).result with
    | ok _ =>
      rw [Effect.andThen_of_ok hresult] at h ⊢
      exact (ih h).mono (List.subset_cons_self a rest)
    | error _ =>
      rw [Effect.andThen_of_error hresult] at h ⊢
      cases h
      refine (blames_effect hresult).mono fun b hb => ?_
      rw [List.mem_singleton.mp hb]
      exact List.mem_cons_self

end Action

namespace Emit

variable {e : Emitter} {fault : Fault}

theorem blames_statement {tree : Expr} (h : (statementEffect tree e).result = .error fault) :
    Action.Blames (statementEffect tree e).state.table (tree.actions []) fault := by
  rw [statementEffect] at h ⊢
  cases hresult : (Action.effects (tree.actions [])
      { e with registers := [], divisor := .outside }).result with
  | ok _ =>
    rw [Effect.andThen_of_ok hresult] at h
    cases h
  | error _ =>
    rw [Effect.andThen_of_error hresult] at h ⊢
    cases h
    exact Action.blames_effects hresult

theorem fault_of_opening {pairs : List (String × Nat)}
    (h : (openingEffect pairs e).result = .error fault) :
    fault = .tableFull e.table.config.capacity := by
  induction pairs generalizing e with
  | nil => cases h
  | cons pair rest ih =>
    rcases Nat.lt_or_ge e.table.size e.table.config.capacity with hroom | hfull
    · rw [openingEffect_of_room hroom, Effect.andThen_of_ok rfl] at h
      exact ih (e := { e with table := e.table.extend pair.1 0 }) h
    · rw [openingEffect_of_full hfull] at h
      cases h
      rfl

end Emit

/-! ## Faults of the text -/

/-- The faults of a text that has no statement where one is looked for. -/
def Fault.ofText : List Fault := [.malformed, .unclosedParen, .operandExpected, .stepTargetExpected]

theorem Pending.fault_mem_ofText (p : Pending) : p.fault ∈ Fault.ofText := by
  unfold fault
  split
  · decide
  · decide
  · split
    · decide
    · decide

theorem Cursor.fault_mem_ofText {c d : Cursor} {fault : Fault} (h : c.next = (.error fault, d)) :
    fault ∈ Fault.ofText := by
  obtain ⟨p, rfl⟩ := Statement.fault_of_read_error (read_of_next_error h)
  exact p.fault_mem_ofText

/-! ## Capacity -/

/-- The table has this configuration and keeps to its capacity. -/
structure Table.Within (config : Config) (t : Table) : Prop where
  config_eq : t.config = config
  size_le : t.size ≤ config.capacity

namespace Table.Within

variable {config : Config} {t t' : Table} {name : String} {slot : Nat} {value : Int32}

theorem declare (h : t.Within config) (hdeclare : t.declare name value = .ok (slot, t')) :
    t'.Within config := by
  obtain ⟨hroom, -, rfl⟩ := declare_eq_ok.mp hdeclare
  rw [h.config_eq] at hroom
  exact ⟨h.config_eq, by rwa [size_extend]⟩

theorem read (h : t.Within config) (hread : t.read name = .ok ((slot, value), t')) :
    t'.Within config := by
  rcases read_eq_ok.mp hread with ⟨-, -, rfl⟩ | ⟨-, hroom, -, -, -, rfl⟩
  · exact h
  · exact h.declare (declare_eq_ok.mpr ⟨hroom, rfl, rfl⟩)

theorem write (h : t.Within config) (hwrite : t.write name value = .ok (slot, t')) :
    t'.Within config := by
  rcases write_eq_ok.mp hwrite with ⟨-, rfl⟩ | ⟨-, hroom, -, rfl⟩
  · exact ⟨h.config_eq, by rw [size_assign]; exact h.size_le⟩
  · exact h.declare (declare_eq_ok.mpr ⟨hroom, rfl, rfl⟩)

end Table.Within

namespace Job

variable {config : Config} {e : Emitter}

theorem within_effect (h : e.table.Within config) (job : Job) :
    (job.effect e).state.table.Within config := by
  cases job with
  | start => exact h
  | predeclare name reg =>
    rw [effect, Emit.predeclareEffect]
    split
    · rename_i hdeclare
      exact h.declare hdeclare
    · exact h
  | act action =>
    cases action with
    | literal | enterDivisor | leaveDivisor | combine => exact h
    | load name =>
      rw [effect, Action.effect]
      split
      · rename_i hread
        exact h.read hread
      · exact h
    | store name =>
      rw [effect, Action.effect]
      split
      · rename_i hwrite
        exact h.write hwrite
      · exact h

theorem within_effects (h : e.table.Within config) (jobs : List Job) :
    (effects jobs e).state.table.Within config := by
  induction jobs generalizing e with
  | nil => exact h
  | cons job rest ih =>
    apply Effect.state_andThen (P := fun e : Emitter => e.table.Within config)
    · exact within_effect h job
    · intro _
      exact ih (within_effect h job)

end Job

/-! ## Causes -/

namespace Compilation

/-- Why a run stops. -/
inductive Cause (c : Compilation) (fault : Fault) : Prop
  /-- The predeclared variables do not fit into the table. -/
  | unopened
      (hopening : (Emit.openingEffect Emit.predeclared.zipIdx c.emitter).result = .error fault)
      (hfull : c.effect.state.emitter.table.isFull)
  /-- There is no statement where one is looked for. Nothing is done for it. -/
  | unread {passed : List (Nat × Expr)} {place : Cursor} (hstops : c.StopsAt fault passed place)
      (hnext : place.next.1 = .error fault) (hfault : fault ∈ Fault.ofText)
      (htext : c.run.1.text = (c.emitter.run (Emit.passing c.logTrees passed)).1.text ++
        (Instruction.exit 1).line)
      (htable : c.run.2.emitter.table = (c.emitter.run (Emit.passing c.logTrees passed)).2.table)
  /-- A statement cannot be compiled. -/
  | uncompiled {passed : List (Nat × Expr)} {place : Cursor} {tree : Expr}
      (hstops : c.StopsAt fault passed place) (hnext : place.next.1 = .ok (.expr tree))
      (hblames : Action.Blames c.effect.state.emitter.table (tree.actions []) fault)

variable {c : Compilation} {fault : Fault}

theorem cause_of_stopped (h : c.Unhindered) (hstopped : c.effect.result = .ok (.stopped fault)) :
    c.Cause fault := by
  have hwork := stopped_iff.mp hstopped
  have htext := text_run h
  have htable := table_run h
  rw [program_of_stopped hstopped, Instruction.lines_concat] at htext
  rw [state_effect] at htable
  have hcourse := Compile.course_workEffect c
  -- the course fixes the work, which therefore has to be a variable
  generalize hw : Compile.workEffect c = work at hwork hcourse
  rw [hw] at htext htable
  have hstate : c.effect.state = work.state := by rw [state_effect, hw]
  cases hcourse with
  | unopened hopening =>
    cases hwork
    refine .unopened hopening ?_
    have hopened := Emit.openedFrom_opening Emit.predeclared.zipIdx c.emitter
    rw [hopening] at hopened
    rw [hstate]
    exact hopened
  | opened hreaches =>
    cases hreaches with
    | finished => cases hwork
    | @unread passed place d _ hpasses hdone hnext =>
      cases hwork
      obtain ⟨-, hpassingText, hpassingTable⟩ := run_passing h passed
      refine .unread (stopsAt_of_unread h hpasses hdone hnext) (congrArg Prod.fst hnext)
        (Cursor.fault_mem_ofText hnext) ?_ ?_
      · rw [htext, hpassingText]
      · rw [htable, hpassingTable]
    | @uncompiled passed place d tree _ hpasses hdone hnext hfails =>
      cases hwork
      refine .uncompiled (stopsAt_of_uncompiled h hpasses hdone hnext hfails)
        (congrArg Prod.fst hnext) ?_
      rw [hstate]
      exact Emit.blames_statement hfails

/-! ### What each fault says -/

theorem Cause.of_undefined {name : String} (h : c.Cause (.undefined name)) :
    c.effect.state.emitter.table.config.declareOnRead = false ∧
    c.effect.state.emitter.table.size < c.effect.state.emitter.table.config.capacity ∧
    c.effect.state.emitter.table.slot? name = none ∧
    ∃ passed place tree, c.StopsAt (.undefined name) passed place ∧
      place.next.1 = .ok (.expr tree) ∧ name ∈ tree.loads := by
  cases h with
  | unopened hopening => cases Emit.fault_of_opening hopening
  | unread _ _ hfault => simp [Fault.ofText] at hfault
  | uncompiled hstops hnext hblames =>
    cases hblames with
    | undefined hload habsent hroom hmode =>
      exact ⟨hmode, hroom, habsent, _, _, _, hstops, hnext, Expr.mem_loads_of_actions hload⟩

theorem Cause.of_tableFull {n : Nat} (h : c.Cause (.tableFull n))
    (hempty : c.emitter.table.vars = [])
    (hconfig : c.effect.state.emitter.table.config = c.emitter.table.config) :
    n = c.emitter.table.config.capacity ∧
    c.emitter.table.config.capacity ≤ c.effect.state.emitter.table.size ∧
    (n < 3 ∨ ∃ passed place tree, c.StopsAt (.tableFull n) passed place ∧
      place.next.1 = .ok (.expr tree) ∧
      ∃ name ∈ tree.names, c.effect.state.emitter.table.slot? name = none) := by
  cases h with
  | unopened hopening hfull =>
    cases Emit.fault_of_opening hopening
    rw [Table.isFull, hconfig, decide_eq_true_eq] at hfull
    refine ⟨rfl, hfull, .inl ?_⟩
    have hsize : c.emitter.table.size = 0 := by rw [Table.size, hempty, List.length_nil]
    have hfits := Emit.openingEffect_ok_iff (e := c.emitter) (by omega) Emit.predeclared.zipIdx
    rw [hopening, hsize] at hfits
    by_contra hlarge
    have hroom : 3 ≤ c.emitter.table.config.capacity := by omega
    cases hfits.mpr hroom
  | unread _ _ hfault => simp [Fault.ofText] at hfault
  | uncompiled hstops hnext hblames =>
    cases hblames with
    | tableFull ha hname habsent hfull =>
      rw [hconfig] at hfull
      exact ⟨congrArg _ hconfig, hfull,
        .inr ⟨_, _, _, hstops, hnext, _, Expr.name_mem_of_actions hname ha, habsent⟩⟩

theorem Cause.of_mem_ofText (h : c.Cause fault) (hfault : fault ∈ Fault.ofText) :
    ∃ passed place, c.StopsAt fault passed place ∧ place.next.1 = .error fault ∧
      c.run.1.text = (c.emitter.run (Emit.passing c.logTrees passed)).1.text ++
        (Instruction.exit 1).line ∧
      c.run.2.emitter.table = (c.emitter.run (Emit.passing c.logTrees passed)).2.table := by
  cases h with
  | unopened hopening =>
    cases Emit.fault_of_opening hopening
    simp [Fault.ofText] at hfault
  | unread hstops hnext _ htext htable => exact ⟨_, _, hstops, hnext, htext, htable⟩
  | uncompiled _ _ hblames => cases hblames <;> simp [Fault.ofText] at hfault

/-- Neither want of a target nor the sink is a cause. -/
theorem Cause.ne (h : c.Cause fault) : fault ≠ .targetRequired ∧ fault ≠ .sinkFailed := by
  cases h with
  | unopened hopening =>
    cases Emit.fault_of_opening hopening
    simp
  | unread _ _ hfault =>
    constructor
    · rintro rfl
      simp [Fault.ofText] at hfault
    · rintro rfl
      simp [Fault.ofText] at hfault
  | uncompiled _ _ hblames => cases hblames <;> simp

theorem within_effect (config : Config) (h : c.emitter.table.Within config) :
    c.effect.state.emitter.table.Within config := by
  rw [state_effect, (Compile.mirrors_work c).emitter_eq]
  exact Job.within_effects h c.jobs

end Compilation

/-- **A fault names its true cause.** A run from the start of a text always comes to an end of its
own. Suppose that it stops at a fault, and look at the table that it leaves. If a variable is said
to be undefined, then it is not in the table, though there is room for it, reading does not declare,
and the statement at which the run stops reads the variable. If the table is said to be full, then
it is, up to the capacity that was asked for; either this is too little for the predeclared
variables, or the statement names a variable that is not in the table. If there is no statement to
be read, then nothing is written or declared for it. No run stops for want of a target or because of
its sink. -/
theorem fault_names_its_cause (text : String) (config : Config) (logTrees : Bool) :
    let c := Compilation.ofText text config {} logTrees
    let table := c.run.2.emitter.table
    (∃ outcome, c.run.1.result = .ok outcome) ∧
    ∀ fault, c.run.1.result = .ok (.stopped fault) →
      (∀ name, fault = .undefined name →
        config.declareOnRead = false ∧ table.size < config.capacity ∧ table.slot? name = none ∧
        ∃ passed place tree, c.StopsAt fault passed place ∧ place.next.1 = .ok (.expr tree) ∧
          name ∈ tree.loads) ∧
      (∀ n, fault = .tableFull n →
        n = config.capacity ∧ table.size = n ∧
        (n < 3 ∨ ∃ passed place tree, c.StopsAt fault passed place ∧
          place.next.1 = .ok (.expr tree) ∧ ∃ name ∈ tree.names, table.slot? name = none)) ∧
      (fault ∈ [.malformed, .unclosedParen, .operandExpected, .stepTargetExpected] →
        ∃ passed place, c.StopsAt fault passed place ∧ place.next.1 = .error fault ∧
          c.run.1.text = (c.emitter.run (Emit.passing logTrees passed)).1.text ++
            (Instruction.exit 1).line ∧
          table = (c.emitter.run (Emit.passing logTrees passed)).2.table) ∧
      fault ≠ .targetRequired ∧ fault ≠ .sinkFailed := by
  intro c table
  have hquiet : c.Unhindered := ⟨rfl, rfl⟩
  have htable : table = c.effect.state.emitter.table := Compilation.table_run hquiet
  have hwithin : table.Within config :=
    htable ▸ Compilation.within_effect config ⟨rfl, Nat.zero_le _⟩
  refine ⟨?_, fun fault hstopped => ?_⟩
  · rw [Compilation.result_run hquiet]
    exact Compile.result_ending _
  rw [Compilation.result_run hquiet] at hstopped
  have hcause := Compilation.cause_of_stopped hquiet hstopped
  refine ⟨?_, ?_, hcause.of_mem_ofText, hcause.ne⟩
  · rintro name rfl
    have hundefined := hcause.of_undefined
    rwa [← htable, hwithin.config_eq] at hundefined
  · rintro n rfl
    obtain ⟨rfl, hfull, hplace⟩ := hcause.of_tableFull rfl (htable ▸ hwithin.config_eq)
    rw [← htable] at hfull hplace
    exact ⟨rfl, Nat.le_antisymm hwithin.size_le hfull, hplace⟩

/-- The statement that fails has declared a variable before. -/
theorem fault_names_its_cause_after_declaration :
    (Compilation.ofText "b = (d = 1) + e\n" {} {} false).run.1.result =
      .ok (.stopped (.undefined "e")) ∧
    (Compilation.ofText "b = (d = 1) + e\n" {} {} false).run.2.emitter.table.names =
      ["x", "y", "z", "d"] ∧
    ∃ passed place tree,
      (Compilation.ofText "b = (d = 1) + e\n" {} {} false).StopsAt (.undefined "e") passed place ∧
      place.next.1 = .ok (.expr tree) ∧ "e" ∈ tree.loads := by
  have hstopped : (Compilation.ofText "b = (d = 1) + e\n" {} {} false).run.1.result =
      .ok (.stopped (.undefined "e")) := by cbv
  have hcause := (fault_names_its_cause "b = (d = 1) + e\n" {} false).2 (.undefined "e") hstopped
  have hundefined := hcause.1 "e" rfl
  exact ⟨hstopped, by cbv, hundefined.2.2.2⟩

end LineCompiler
