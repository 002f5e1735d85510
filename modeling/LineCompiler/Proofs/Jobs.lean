import LineCompiler.Proofs.Runs

/-!
# Jobs of a run

What a run does, apart from reading its text and from its last lines, is a sequence of jobs that the
text fixes in advance. A run stops at the first job that fails.

* `Compilation.jobs` lists the jobs of a run in their order, and `Compilation.doing` does some of
  them.
* `Mirrors` compares a part of a run with its jobs. `Compile.mirrors_work` is the result for all of
  its work, and `Compilation.run_eq_doing` says what this means for a whole run.
* `Job.Changes` says once what a job can do to the table, and `Job.effects_induction` hands every
  property that these changes keep on to the end of the jobs.
-/

namespace LineCompiler

/-! ## Jobs -/

/-- A piece of the work of a run, apart from reading the text. -/
inductive Job where
  /-- Declare a variable and load it into a register. -/
  | predeclare (name : String) (reg : Nat)
  /-- Begin a statement. -/
  | start
  | act (action : Action)
  deriving DecidableEq, Repr

/-- The variable that an action is about. -/
def Action.name? : Action → Option String
  | load name | store name => some name
  | _ => none

namespace Job

def perform : Job → Emit Unit
  | predeclare name reg => do
    let slot ← Emit.onTable (·.declare name 0)
    Emit.instruction (.preload reg ((← get).table.address slot))
  | start => modify fun e => { e with registers := [], divisor := .outside }
  | act action => action.perform

/-- The variable that a job is about. -/
def name? : Job → Option String
  | predeclare name _ => some name
  | start => none
  | act action => action.name?

end Job

/-- The jobs that open a program. -/
def Emit.openingJobs : List Job :=
  predeclared.zipIdx.map fun (name, reg) => .predeclare name reg

theorem Emit.opening_eq : opening = forM openingJobs Job.perform := rfl

/-- The jobs of a statement. -/
def Expr.jobs (tree : Expr) : List Job := .start :: (tree.actions []).map .act

namespace Script

def jobs : Script → List Job
  | ends _ | faulty _ _ => []
  | statement _ tree _ rest => tree.jobs ++ rest.jobs

/-- How the statements end if no job fails: with their number, counted on from `count`, or with a
fault of the text. -/
def verdict (count : Nat) : Script → Except Fault Nat
  | ends _ => .ok count
  | faulty fault _ => .error fault
  | statement _ _ _ rest => rest.verdict (count + 1)

end Script

namespace Compilation

/-- The jobs of the next run, in the order in which they are done unless one of them fails. -/
def jobs (c : Compilation) : List Job := Emit.openingJobs ++ c.cursor.script.jobs

/-- Does some jobs, up to the first of them that fails. -/
def doing (c : Compilation) (jobs : List Job) : Trace Unit × Emitter :=
  c.emitter.run (forM jobs Job.perform)

end Compilation

/-! ## Effects of jobs -/

namespace Job

def effect : Job → Emitter → Effect Emitter Unit
  | predeclare name reg, e => Emit.predeclareEffect name reg e
  | start, e => ⟨.ok (), { e with registers := [], divisor := .outside }, []⟩
  | act action, e => action.effect e

def effects : List Job → Emitter → Effect Emitter Unit
  | [], e => ⟨.ok (), e, []⟩
  | job :: rest, e => (job.effect e).andThen fun _ e => effects rest e

theorem performs_perform (job : Job) (e : Emitter) : Performs job.perform e (job.effect e) := by
  cases job with
  | predeclare name reg => exact Emit.performs_predeclare name reg e
  | start => exact Performs.modify (fun _ _ => rfl) e
  | act action => exact Action.performs_perform action e

theorem performs_forM (jobs : List Job) (e : Emitter) :
    Performs (forM jobs perform) e (effects jobs e) := by
  induction jobs generalizing e with
  | nil => exact Performs.pure () e
  | cons job rest ih => exact (performs_perform job e).bind (fun _ _ => ih _)

theorem effects_append (jobs rest : List Job) (e : Emitter) :
    effects (jobs ++ rest) e = (effects jobs e).andThen fun _ e => effects rest e := by
  induction jobs generalizing e with
  | nil => rfl
  | cons job jobs ih =>
    rw [List.cons_append, effects, effects, Effect.andThen_assoc]
    simp only [ih]

theorem effects_act (actions : List Action) (e : Emitter) :
    effects (actions.map act) e = Action.effects actions e := by
  induction actions generalizing e with
  | nil => rfl
  | cons a rest ih =>
    rw [List.map_cons, effects, Action.effects]
    simp only [ih, effect]

theorem effects_opening (pairs : List (String × Nat)) (e : Emitter) :
    effects (pairs.map fun (name, reg) => .predeclare name reg) e = Emit.openingEffect pairs e := by
  induction pairs generalizing e with
  | nil => rfl
  | cons pair rest ih =>
    rw [List.map_cons, effects, Emit.openingEffect]
    simp only [ih, effect]

theorem effects_jobs (tree : Expr) (e : Emitter) :
    effects tree.jobs e =
      Action.effects (tree.actions []) { e with registers := [], divisor := .outside } := by
  rw [Expr.jobs, effects, effect, Effect.andThen_of_ok rfl, effects_act, List.nil_append]

end Job

/-! ## Jobs and runs -/

/-- A part of a run whose emitter does some jobs: it ends with a verdict of its own unless one of
them fails, leaves the emitter that they leave, and writes the program that they write. -/
structure Mirrors {α : Type} (verdict : Except Fault α) (a : Effect Compilation α)
    (b : Effect Emitter Unit) : Prop where
  result_eq : a.result = b.result.bind fun _ => verdict
  emitter_eq : a.state.emitter = b.state
  program_eq : Event.program a.events = Event.program b.events

theorem Mirrors.andThen {α : Type} {verdict : Except Fault α} {a : Effect Compilation Unit}
    {b : Effect Emitter Unit} {f : Unit → Compilation → Effect Compilation α}
    {g : Unit → Emitter → Effect Emitter Unit} (h : Mirrors (.ok ()) a b)
    (hnext : Mirrors verdict (f () a.state) (g () a.state.emitter)) :
    Mirrors verdict (a.andThen f) (b.andThen g) := by
  have hresult := h.result_eq
  cases hb : b.result with
  | ok _ =>
    rw [hb] at hresult
    rw [Effect.andThen_of_ok hb, Effect.andThen_of_ok hresult, ← h.emitter_eq]
    refine ⟨hnext.result_eq, hnext.emitter_eq, ?_⟩
    rw [Event.program_append, Event.program_append, h.program_eq, hnext.program_eq]
  | error fault =>
    rw [hb] at hresult
    rw [Effect.andThen_of_error hb, Effect.andThen_of_error hresult]
    exact ⟨rfl, h.emitter_eq, h.program_eq⟩

namespace Compile

/-- Logging a statement changes nothing about its jobs. -/
theorem mirrors_logged (c : Compilation) (logTree : Bool) (line : Nat) (tree : Expr) (e : Emitter) :
    Mirrors (.ok ()) (lift c (Emit.loggedEffect logTree line tree e))
      (Job.effects tree.jobs e) := by
  have hparsed : Event.program (if logTree then [.parsed line tree] else []) = [] := by
    cases logTree <;> rfl
  rw [Job.effects_jobs, Emit.loggedEffect, Effect.andThen_of_ok rfl, Emit.statementEffect]
  cases hresult : (Action.effects (tree.actions [])
      { e with registers := [], divisor := .outside }).result with
  | ok _ =>
    rw [Effect.andThen_of_ok hresult, Effect.andThen_of_ok rfl]
    refine ⟨?_, rfl, ?_⟩
    · rw [hresult]
      rfl
    · simp only [lift, Event.program_append, hparsed, List.nil_append, List.append_nil]
      exact List.append_nil _
  | error fault =>
    rw [Effect.andThen_of_error hresult, Effect.andThen_of_error rfl]
    refine ⟨?_, rfl, ?_⟩
    · rw [hresult]
      rfl
    · simp only [lift, Event.program_append, hparsed, List.nil_append]

theorem mirrors_loop (script : Script) (count : Nat) (c : Compilation) :
    Mirrors (script.verdict count) (loopEffect script count c)
      (Job.effects script.jobs c.emitter) := by
  induction script generalizing count c with
  | ends cursor => exact ⟨rfl, rfl, rfl⟩
  | faulty fault cursor => exact ⟨rfl, rfl, rfl⟩
  | statement line tree cursor rest ih =>
    have hlogged := mirrors_logged { c with cursor, line } c.logTrees line tree c.emitter
    rw [loopEffect, Script.jobs, Job.effects_append]
    exact hlogged.andThen (ih (count + 1) _)

theorem mirrors_work (c : Compilation) :
    Mirrors (c.cursor.script.verdict 0) (workEffect c) (Job.effects c.jobs c.emitter) := by
  have hopening : Mirrors (.ok ()) (lift c (Emit.openingEffect Emit.predeclared.zipIdx c.emitter))
      (Emit.openingEffect Emit.predeclared.zipIdx c.emitter) := by
    refine ⟨?_, rfl, rfl⟩
    cases hresult : (Emit.openingEffect Emit.predeclared.zipIdx c.emitter).result with
    | ok _ => exact hresult
    | error fault => exact hresult
  rw [workEffect, Compilation.jobs, Job.effects_append, Emit.openingJobs, Job.effects_opening]
  exact hopening.andThen (mirrors_loop _ 0 _)

end Compile

namespace Compilation

variable {c : Compilation}

theorem doing_eq (h : c.Unhindered) (jobs : List Job) :
    (c.doing jobs).1.text = Instruction.lines (Event.program (Job.effects jobs c.emitter).events) ∧
      (c.doing jobs).2.table = (Job.effects jobs c.emitter).state.table :=
  (Emitter.run_of_unlimited (Job.performs_forM jobs c.emitter) h.1).2

/-- A run does its jobs and writes some last lines, which leave the variables alone. -/
theorem run_eq_doing (h : c.Unhindered) :
    c.run.2.emitter.table = (c.doing c.jobs).2.table ∧
      ∃ last, c.run.1.text = (c.doing c.jobs).1.text ++ last := by
  have hmirrors := Compile.mirrors_work c
  obtain ⟨htext, htable⟩ := doing_eq h c.jobs
  constructor
  · rw [table_run h, state_effect, hmirrors.emitter_eq, htable]
  · obtain ⟨last, hlast⟩ := c.program_workEffect
    refine ⟨Instruction.lines last, ?_⟩
    rw [text_run h, htext, ← hmirrors.program_eq, ← hlast, Instruction.lines_append]

end Compilation

/-! ## What a job does to the table -/

namespace Job

/-- What a job can do to the table. Only the jobs that open a program add a variable whose name is
taken. -/
inductive Changes : Job → Table → Table → Prop
  | same (job : Job) (t : Table) : Changes job t t
  | assign (name : String) {t : Table} {slot : Nat} (value : Int32)
      (hslot : t.slot? name = some slot) : Changes (act (.store name)) t (t.assign slot value)
  | declare {a : Action} {name : String} {t : Table} (value : Int32) (hname : a.name? = some name)
      (habsent : t.slot? name = none) : Changes (act a) t (t.extend name value)
  | predeclare (name : String) (reg : Nat) (t : Table) :
      Changes (predeclare name reg) t (t.extend name 0)

theorem changes_effect (job : Job) (e : Emitter) :
    job.Changes e.table (job.effect e).state.table := by
  cases job with
  | start => exact .same _ _
  | predeclare name reg =>
    rw [effect, Emit.predeclareEffect]
    split
    · rename_i hdeclare
      obtain ⟨-, -, rfl⟩ := Table.declare_eq_ok.mp hdeclare
      exact .predeclare name reg e.table
    · exact .same _ _
  | act a =>
    cases a with
    | literal | enterDivisor | leaveDivisor | combine => exact .same _ _
    | load name =>
      rw [effect, Action.effect]
      split
      · rename_i hread
        rcases Table.read_eq_ok.mp hread with ⟨-, -, rfl⟩ | ⟨habsent, -, -, -, -, rfl⟩
        · exact .same _ _
        · exact .declare 0 rfl habsent
      · exact .same _ _
    | store name =>
      rw [effect, Action.effect]
      split
      · rename_i hwrite
        rcases Table.write_eq_ok.mp hwrite with ⟨hslot, rfl⟩ | ⟨habsent, -, -, rfl⟩
        · exact .assign name _ hslot
        · exact .declare _ rfl habsent
      · exact .same _ _

/-- What no change breaks holds after all jobs, also if one of them fails. -/
theorem effects_induction {P : Table → Prop} {jobs : List Job}
    (hstep : ∀ job ∈ jobs, ∀ t t', job.Changes t t' → P t → P t') {e : Emitter} (h : P e.table) :
    P (effects jobs e).state.table := by
  induction jobs generalizing e with
  | nil => exact h
  | cons job rest ih =>
    have hjob : P (job.effect e).state.table :=
      hstep job List.mem_cons_self _ _ (changes_effect job e) h
    refine Effect.state_andThen (P := fun e : Emitter => P e.table) hjob fun _ => ?_
    exact ih (fun job hmem => hstep job (List.mem_cons_of_mem _ hmem)) hjob

namespace Changes

variable {job : Job} {t t' : Table}

theorem config_eq (h : job.Changes t t') : t'.config = t.config := by
  cases h <;> rfl

theorem names_mono (h : job.Changes t t') : t.names <+: t'.names := by
  cases h with
  | same => exact List.prefix_refl _
  | assign name value hslot => rw [Table.names_assign]
  | declare value hname habsent =>
    rw [Table.names_extend]
    exact List.prefix_append _ _
  | predeclare name reg =>
    rw [Table.names_extend]
    exact List.prefix_append _ _

theorem mem_names (h : job.Changes t t') {name : String} (hname : name ∈ t'.names) :
    name ∈ t.names ∨ job.name? = some name := by
  cases h with
  | same => exact .inl hname
  | assign _ value hslot =>
    rw [Table.names_assign] at hname
    exact .inl hname
  | declare value hjob habsent =>
    rw [Table.names_extend, List.mem_append, List.mem_singleton] at hname
    rcases hname with hname | rfl
    · exact .inl hname
    · exact .inr hjob
  | predeclare _ reg =>
    rw [Table.names_extend, List.mem_append, List.mem_singleton] at hname
    rcases hname with hname | rfl
    · exact .inl hname
    · exact .inr rfl

/-- A statement only adds a name that is not there. -/
theorem count_names_le {a : Action} (h : (act a).Changes t t') (name : String) :
    t'.names.count name ≤ max 1 (t.names.count name) := by
  cases h with
  | same => exact Nat.le_max_right _ _
  | assign _ value hslot =>
    rw [Table.names_assign]
    exact Nat.le_max_right _ _
  | @declare _ added _ value hname habsent =>
    rw [Table.names_extend, List.count_append]
    by_cases hadded : name = added
    · have hzero : t.names.count name = 0 := by
        rw [hadded]
        rw [Table.slot?_eq_idxOf?, List.idxOf?_eq_none_iff] at habsent
        exact List.count_eq_zero_of_not_mem habsent
      rw [hzero, hadded, List.count_singleton_self]
      exact Nat.le_max_left _ _
    · have hzero : [added].count name = 0 := List.count_eq_zero_of_not_mem (by simpa using hadded)
      rw [hzero]
      exact Nat.le_max_right _ _

end Changes

end Job

end LineCompiler
