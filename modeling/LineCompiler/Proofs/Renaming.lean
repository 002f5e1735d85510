import LineCompiler.Proofs.Effects

/-!
# Renaming variables

Names serve to find slots and for nothing else, so an injective renaming of the variables changes no
program and no value. The renaming acts on everything that holds names: on expressions, tables,
faults and events, and so on the whole state of the emitter.

* `Table.Image f φ`: a map of tables that goes along with a renaming, so that all operations on the
  table commute with it. `Table.image_rename` is where the renaming has to be injective.
* `Emit.Renames f step step'`: the second step does to the renamed state what the first one does to
  the state, with the renamed answer. It has one rule for each way of building steps.
* `Action.renames_perform` and `Emit.renames_statement` are the results for actions and statements,
  and `names_do_not_matter` the one for any sequence of statements.
-/

namespace LineCompiler

/-! ## Renaming what holds names -/

def Expr.rename (f : String → String) : Expr → Expr
  | num value => num value
  | var name => var (f name)
  | binary op left right => binary op (left.rename f) (right.rename f)
  | assign op name right => assign op (f name) (right.rename f)

def Action.rename (f : String → String) : Action → Action
  | load name => load (f name)
  | store name => store (f name)
  | a => a

/-- The fault with the name in it renamed. No other fault holds a name. -/
def Fault.rename (f : String → String) : Fault → Fault
  | undefined name => undefined (f name)
  | fault => fault

def Event.rename (f : String → String) : Event → Event
  | declared name slot => declared (f name) slot
  | parsed line tree => parsed line (tree.rename f)
  | failed fault line => failed (fault.rename f) line
  | e => e

/-- The same values in the same slots, under other names. -/
def Table.rename (f : String → String) (t : Table) : Table :=
  { t with vars := t.vars.map fun var => { var with name := f var.name } }

def Emitter.rename (f : String → String) (e : Emitter) : Emitter :=
  { e with table := e.table.rename f, log := e.log.map (Event.rename f) }

variable {f : String → String}

theorem Expr.actions_rename (f : String → String) (e : Expr) (rest : List Action) :
    (e.rename f).actions (rest.map (Action.rename f)) =
      (e.actions rest).map (Action.rename f) := by
  induction e generalizing rest with
  | num | var => rfl
  | binary op left right ihl ihr =>
    simp only [rename, actions]
    split
    · rw [← ihl, List.map_cons, ← ihr, List.map_cons, List.map_cons]
      rfl
    · rw [← ihl, ← ihr, List.map_cons]
      rfl
  | assign op name right ih =>
    simp only [rename, actions]
    split
    · rw [← ih, List.map_cons]
      rfl
    · rw [List.map_cons, ← ih, List.map_cons, List.map_cons]
      rfl

/-! ## Tables -/

namespace Table

variable {t t' : Table} {name : String} {slot : Nat} {value : Int32}

theorem size_rename : (t.rename f).size = t.size := by
  simp [rename, size]

theorem names_rename : (t.rename f).names = t.names.map f := by
  simp [rename, names]

theorem value?_rename (slot : Nat) : (t.rename f).value? slot = t.value? slot := by
  rw [rename, value?, value?, List.getElem?_map, Option.map_map]
  rfl

/-- A renamed variable is found where it was, as no other one can take its name. -/
theorem slot?_rename (hf : f.Injective) (name : String) :
    (t.rename f).slot? (f name) = t.slot? name := by
  have hsame : ((· == f name) ∘ f : String → Bool) = (· == name) := by
    ext n
    simp [hf.eq_iff]
  rw [slot?_eq_findIdx?, slot?_eq_findIdx?, names_rename, List.findIdx?_map, hsame]

theorem extend_rename :
    (t.extend name value).rename f = (t.rename f).extend (f name) value := by
  simp [rename, extend]

theorem assign_rename : (t.assign slot value).rename f = (t.rename f).assign slot value := by
  have hvars : (t.assign slot value).vars.map (fun var => { var with name := f var.name }) =
      ((t.rename f).assign slot value).vars := by
    ext1 i
    simp only [assign, rename, List.getElem?_map, List.getElem?_modify]
    cases t.vars[i]? with
    | none => rfl
    | some var =>
      by_cases h : slot = i
      · simp [h]
      · simp [h]
  rw [rename, hvars]
  rfl

/-- A map of tables that goes along with a renaming. It keeps the number of variables, their values,
the limits, and the slot that a variable is found in. -/
structure Image (f : String → String) (φ : Table → Table) : Prop where
  capacity (t : Table) : (φ t).config.capacity = t.config.capacity
  declareOnRead (t : Table) : (φ t).config.declareOnRead = t.config.declareOnRead
  size (t : Table) : (φ t).size = t.size
  slot? (t : Table) (name : String) : (φ t).slot? (f name) = t.slot? name
  value? (t : Table) (slot : Nat) : (φ t).value? slot = t.value? slot
  extend (t : Table) (name : String) (value : Int32) :
    φ (t.extend name value) = (φ t).extend (f name) value
  assign (t : Table) (slot : Nat) (value : Int32) :
    φ (t.assign slot value) = (φ t).assign slot value

theorem image_rename (hf : f.Injective) : Image f (rename f) where
  capacity _ := rfl
  declareOnRead _ := rfl
  size _ := size_rename
  slot? _ name := slot?_rename hf name
  value? _ slot := value?_rename slot
  extend _ _ _ := extend_rename
  assign _ _ _ := assign_rename

namespace Image

variable {φ : Table → Table}

/-- The answer that an operation on the mapped table gives. -/
def answer {α : Type} (f : String → String) (φ : Table → Table) :
    Except Fault (α × Table) → Except Fault (α × Table)
  | .ok (a, t) => .ok (a, φ t)
  | .error fault => .error (fault.rename f)

theorem declare (h : Image f φ) (t : Table) (name : String) (value : Int32) :
    (φ t).declare (f name) value = answer f φ (t.declare name value) := by
  cases hdeclare : t.declare name value with
  | ok answer =>
    obtain ⟨slot, table⟩ := answer
    obtain ⟨hroom, rfl, rfl⟩ := declare_eq_ok.mp hdeclare
    apply declare_eq_ok.mpr
    rw [h.size, h.capacity]
    exact ⟨hroom, rfl, h.extend t name value⟩
  | error fault =>
    obtain ⟨hfull, rfl⟩ := declare_eq_error.mp hdeclare
    apply declare_eq_error.mpr
    rw [h.size, h.capacity]
    exact ⟨hfull, rfl⟩

theorem read (h : Image f φ) (t : Table) (name : String) :
    (φ t).read (f name) = answer f φ (t.read name) := by
  cases hread : t.read name with
  | ok answer =>
    obtain ⟨⟨slot, value⟩, table⟩ := answer
    apply read_eq_ok.mpr
    rw [h.slot?, h.value?, h.size, h.capacity, h.declareOnRead]
    rcases read_eq_ok.mp hread with ⟨hfound, hvalue, rfl⟩ | ⟨habsent, hroom, hmode, rfl, rfl, rfl⟩
    · exact .inl ⟨hfound, hvalue, rfl⟩
    · exact .inr ⟨habsent, hroom, hmode, rfl, rfl, h.extend t name 0⟩
  | error fault =>
    apply read_eq_error.mpr
    rw [h.slot?, h.size, h.capacity, h.declareOnRead]
    obtain ⟨habsent, ⟨hfull, rfl⟩ | ⟨hroom, hmode, rfl⟩⟩ := read_eq_error.mp hread
    · exact ⟨habsent, .inl ⟨hfull, rfl⟩⟩
    · exact ⟨habsent, .inr ⟨hroom, hmode, rfl⟩⟩

theorem write (h : Image f φ) (t : Table) (name : String) (value : Int32) :
    (φ t).write (f name) value = answer f φ (t.write name value) := by
  cases hwrite : t.write name value with
  | ok answer =>
    obtain ⟨slot, table⟩ := answer
    apply write_eq_ok.mpr
    rw [h.slot?, h.size, h.capacity]
    rcases write_eq_ok.mp hwrite with ⟨hfound, rfl⟩ | ⟨habsent, hroom, rfl, rfl⟩
    · exact .inl ⟨hfound, h.assign t slot value⟩
    · exact .inr ⟨habsent, hroom, rfl, h.extend t name value⟩
  | error fault =>
    apply write_eq_error.mpr
    rw [h.slot?, h.size, h.capacity]
    obtain ⟨habsent, hfull, rfl⟩ := write_eq_error.mp hwrite
    exact ⟨habsent, hfull, rfl⟩

end Image

end Table

theorem Event.declarations_rename (f : String → String) (t t' : Table) :
    declarations (t.rename f) (t'.rename f) = (declarations t t').map (rename f) := by
  rw [declarations, declarations, Table.size_rename, Table.rename, List.zipIdx_map, ← List.map_drop,
    List.map_map, List.map_map]
  rfl

/-! ## Steps -/

namespace Emit

/-- The end of a step with all names in it renamed. -/
def renamed {α : Type} (f : String → String) :
    EStateM.Result Fault Emitter α → EStateM.Result Fault Emitter α
  | .ok a e => .ok a (e.rename f)
  | .error fault e => .error (fault.rename f) (e.rename f)

/-- The second step does to the renamed state what the first one does to the state. -/
def Renames {α : Type} (f : String → String) (step step' : Emit α) : Prop :=
  ∀ e, step' (e.rename f) = renamed f (step e)

namespace Renames

variable {α β : Type}

protected theorem pure (a : α) : Renames f (pure a) (pure a) := fun _ => rfl

protected theorem throw (fault : Fault) :
    Renames f (throw fault : Emit α) (throw (fault.rename f)) := fun _ => rfl

protected theorem bind {step step' : Emit α} {next next' : α → Emit β} (h : Renames f step step')
    (hnext : ∀ a, Renames f (next a) (next' a)) : Renames f (step >>= next) (step' >>= next') := by
  intro e
  cases hstep : step e with
  | ok a t =>
    have hstep' : step' (e.rename f) = .ok a (t.rename f) := by rw [h e, hstep, renamed]
    rw [bind_of_ok hstep, bind_of_ok hstep', hnext a t]
  | error fault t =>
    have hstep' : step' (e.rename f) = .error (fault.rename f) (t.rename f) := by
      rw [h e, hstep, renamed]
    rw [bind_of_error hstep, bind_of_error hstep', renamed]

/-- A step that looks at its state before it does anything. -/
theorem get_bind {next next' : Emitter → Emit β}
    (hnext : ∀ e, Renames f (next e) (next' (e.rename f))) :
    Renames f (get >>= next) (get >>= next') := fun e => hnext e e

protected theorem modify {g g' : Emitter → Emitter}
    (hg : ∀ e, g' (e.rename f) = (g e).rename f) :
    Renames f (modify g) (modify g') := fun e => congrArg (EStateM.Result.ok ()) (hg e)

protected theorem forM {ι : Type} {body body' : ι → Emit Unit} {items : List ι} {g : ι → ι}
    (h : ∀ i ∈ items, Renames f (body i) (body' (g i))) :
    Renames f (forM items body) (forM (items.map g) body') := by
  induction items with
  | nil => exact Renames.pure ()
  | cons i rest ih =>
    refine (h i List.mem_cons_self).bind fun _ => ih ?_
    intro j hj
    exact h j (List.mem_cons_of_mem i hj)

protected theorem record (f : String → String) (events : List Event) :
    Renames f (record events) (record (events.map (Event.rename f))) := by
  refine Renames.modify fun e => ?_
  have hlog : (e.log.map (Event.rename f)).appendList (events.map (Event.rename f)) =
      (e.log.appendList events).map (Event.rename f) := by
    apply Array.toList_inj.mp
    simp
  simp only [Emitter.rename, hlog]

/-- Instructions hold no names, so the sink is given the same text. -/
protected theorem instruction (f : String → String) (i : Instruction) :
    Renames f (instruction i) (instruction i) := by
  refine (Renames.record f [.emit i]).bind fun _ => ?_
  -- the renaming leaves the sink alone, so it takes the line in both cases or in none
  refine Renames.bind (fun _ => rfl) fun taken => ?_
  cases taken with
  | true => exact Renames.pure ()
  | false => exact Renames.throw .sinkFailed

protected theorem onTable {operation operation' : Table → Except Fault (α × Table)}
    (h : ∀ t, operation' (t.rename f) = Table.Image.answer f (Table.rename f) (operation t)) :
    Renames f (onTable operation) (onTable operation') := by
  refine get_bind fun e => ?_
  have htable : operation' (e.rename f).table =
      Table.Image.answer f (Table.rename f) (operation e.table) := h e.table
  cases hanswer : operation e.table with
  | ok answer =>
    obtain ⟨a, after⟩ := answer
    rw [hanswer, Table.Image.answer] at htable
    simp only [hanswer, htable]
    refine Renames.bind (fun _ => rfl) fun _ => Renames.bind ?_ fun _ => Renames.pure a
    have hrecord := Renames.record f (Event.declarations e.table after)
    rwa [← Event.declarations_rename] at hrecord
  | error fault =>
    rw [hanswer, Table.Image.answer] at htable
    simp only [hanswer, htable]
    exact Renames.throw fault

protected theorem cell (f : String → String) (slot : Nat) : Renames f (cell slot) (cell slot) :=
  get_bind fun _ => Renames.pure _

protected theorem push (f : String → String) (source : Operand) (value : Int32) :
    Renames f (push source value) (push source value) :=
  get_bind fun _ => Renames.bind (fun _ => rfl) fun _ => Renames.instruction f _

end Renames

end Emit

/-- One action, case by case. -/
theorem Action.renames_perform (hf : f.Injective) (a : Action) :
    Emit.Renames f a.perform (a.rename f).perform := by
  cases a with
  | literal value => exact Emit.Renames.push f _ value
  | enterDivisor => exact fun _ => rfl
  | load name =>
    refine Emit.Renames.bind (fun _ => rfl) fun _ => ?_
    refine (Emit.Renames.onTable fun t => (Table.image_rename hf).read t name).bind fun answer => ?_
    exact (Emit.Renames.cell f answer.1).bind fun source => Emit.Renames.push f source answer.2
  | leaveDivisor =>
    refine Emit.Renames.get_bind fun e => Emit.Renames.bind (fun _ => rfl) fun _ => ?_
    by_cases hzero : e.registers.head? = some 0 ∧ e.divisor ≠ .varying
    · have hzero' : (e.rename f).registers.head? = some 0 ∧ (e.rename f).divisor ≠ .varying := hzero
      rw [if_pos hzero, if_pos hzero']
      exact Emit.Renames.throw .zeroDivisor
    · have hzero' : ¬ ((e.rename f).registers.head? = some 0 ∧ (e.rename f).divisor ≠ .varying) :=
        hzero
      rw [if_neg hzero, if_neg hzero']
      exact Emit.Renames.pure ()
  | combine op =>
    refine Emit.Renames.get_bind fun e => ?_
    exact (Emit.Renames.instruction f _).bind fun _ _ => rfl
  | store name =>
    refine Emit.Renames.get_bind fun e => ?_
    refine (Emit.Renames.onTable fun t => (Table.image_rename hf).write t name _).bind
      fun slot => ?_
    exact (Emit.Renames.cell f slot).bind fun target => Emit.Renames.instruction f _

namespace Emit

theorem renames_statement (hf : f.Injective) (tree : Expr) :
    Renames f (statement tree) (statement (tree.rename f)) := by
  have hactions : (tree.rename f).actions [] = (tree.actions []).map (Action.rename f) :=
    Expr.actions_rename f tree []
  refine Renames.bind (fun _ => rfl) fun _ => ?_
  rw [hactions]
  refine (Renames.forM fun a _ => Action.renames_perform hf a).bind fun _ => ?_
  exact Renames.get_bind fun _ => Renames.pure _

/-- The opening is its own renaming if the predeclared variables keep their names. -/
theorem renames_opening (hf : f.Injective) (hfix : ∀ name ∈ predeclared, f name = name) :
    Renames f opening opening := by
  have hpairs : predeclared.zipIdx = predeclared.zipIdx.map id := (List.map_id _).symm
  unfold opening
  -- the second opening goes over the renamed pairs, which are the pairs themselves
  nth_rewrite 2 [hpairs]
  refine Renames.forM fun pair hpair => ?_
  have hname : f pair.1 = pair.1 := hfix _ (List.fst_mem_of_mem_zipIdx hpair)
  refine Renames.bind (Renames.onTable fun t => ?_) fun slot => ?_
  · rw [← (Table.image_rename hf).declare, hname]
  · exact Renames.get_bind fun _ => Renames.instruction f _

end Emit

/-! ## Sequences of statements -/

namespace Emitter

/-- The emitter after some statements. A statement that fails does not keep the next one from being
compiled. -/
def after (e : Emitter) (trees : List Expr) : Emitter :=
  trees.foldl (fun e tree => (e.run (Emit.statement tree)).2) e

/-- A renamed step writes the same text. -/
theorem run_rename {α : Type} {step step' : Emit α} (h : Emit.Renames f step step') (e : Emitter) :
    (e.rename f).run step' =
      (⟨(e.run step).1.result.mapError (Fault.rename f), (e.run step).1.text,
        (e.run step).1.log.map (Event.rename f)⟩, (e.run step).2.rename f) := by
  have hcleared : (e.rename f).cleared = e.cleared.rename f := by simp [cleared, rename]
  rw [run, run, hcleared, h]
  cases step e.cleared with
  | ok a t => rfl
  | error fault t => rfl

theorem after_rename (hf : f.Injective) (e : Emitter) (trees : List Expr) :
    (e.rename f).after (trees.map (Expr.rename f)) = (e.after trees).rename f := by
  induction trees generalizing e with
  | nil => rfl
  | cons tree rest ih =>
    have hstep : ((e.rename f).run (Emit.statement (tree.rename f))).2 =
        (e.run (Emit.statement tree)).2.rename f :=
      congrArg Prod.snd (run_rename (Emit.renames_statement hf tree) e)
    rw [List.map_cons, after, List.foldl_cons, hstep]
    exact ih _

/-- Behind an opening, there are no names but those that the renaming keeps. -/
theorem rename_opened (hf : f.Injective) (hfix : ∀ name ∈ Emit.predeclared, f name = name)
    (config : Config) (sink : Sink) :
    (run { table := { config }, sink } Emit.opening).2.rename f =
      (run { table := { config }, sink } Emit.opening).2 :=
  (congrArg Prod.snd
    (run_rename (Emit.renames_opening hf hfix) { table := { config }, sink })).symm

end Emitter

/-- **Names do not matter.** Let a renaming be injective and keep the predeclared names. After an
opening, let some statements be compiled, and apart from that their renamings. The tables then
differ by the renaming only, so that every slot has the same value and every variable the same slot.
The next statement and its renaming write the same text; they have the same value, or the same
fault, where an undefined variable is reported under its new name. -/
theorem names_do_not_matter (f : String → String) (hf : f.Injective)
    (hfix : ∀ name ∈ Emit.predeclared, f name = name) (config : Config) (sink : Sink)
    (trees : List Expr) :
    let start := (Emitter.run { table := { config }, sink } Emit.opening).2
    let first := start.after trees
    let second := start.after (trees.map (Expr.rename f))
    second.table = first.table.rename f ∧
    (∀ slot, second.table.value? slot = first.table.value? slot) ∧
    (∀ name, second.table.slot? (f name) = first.table.slot? name) ∧
    ∀ tree,
      let run := first.run (Emit.statement tree)
      let run' := second.run (Emit.statement (tree.rename f))
      run'.1.text = run.1.text ∧
      run'.1.result = run.1.result.mapError (Fault.rename f) ∧
      run'.1.log = run.1.log.map (Event.rename f) ∧
      run'.2.table = run.2.table.rename f := by
  intro start first second
  have hsecond : second = first.rename f := by
    have hafter := Emitter.after_rename hf start trees
    rwa [Emitter.rename_opened hf hfix config sink] at hafter
  have htable : second.table = first.table.rename f := congrArg Emitter.table hsecond
  refine ⟨htable, ?_, ?_, ?_⟩
  · intro slot
    rw [htable, Table.value?_rename]
  · intro name
    rw [htable, Table.slot?_rename hf]
  · intro tree
    have hrun := Emitter.run_rename (Emit.renames_statement hf tree) first
    rw [← hsecond] at hrun
    dsimp only
    rw [hrun]
    exact ⟨rfl, rfl, rfl, rfl⟩

/-- Two names are exchanged. One of them is set, and the other one is not known. -/
theorem names_do_not_matter_exchanged :
    (Equiv.swap "a" "b" : String → String).Injective ∧
    (∀ name ∈ Emit.predeclared, Equiv.swap "a" "b" name = name) ∧
    ((((Emitter.run { table := {} } Emit.opening).2.after [.assign .set "b" (.num 7)]).run
      (Emit.statement (.var "a"))).1.result = .error (.undefined "a")) := by
  have hinjective : (Equiv.swap "a" "b" : String → String).Injective := Equiv.injective _
  have hfix : ∀ name ∈ Emit.predeclared, Equiv.swap "a" "b" name = name := by decide
  refine ⟨hinjective, hfix, ?_⟩
  have hunknown : ((((Emitter.run { table := {} } Emit.opening).2.after
      [.assign .set "a" (.num 7)]).run (Emit.statement (.var "b"))).1.result =
        .error (.undefined "b")) := by cbv
  have hresult := ((names_do_not_matter _ hinjective hfix {} {}
    [.assign .set "a" (.num 7)]).2.2.2 (.var "b")).2.1
  rw [hunknown] at hresult
  simpa [Expr.rename, Fault.rename, Except.mapError] using hresult

end LineCompiler
