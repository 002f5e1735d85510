import LineCompiler.Proofs.Machine
import LineCompiler.Proofs.RegisterStack
import LineCompiler.Proofs.Runs
import LineCompiler.Proofs.Variables

/-!
# The machine does what the emitter foresees

The emitter follows the values of all variables and of the registers in use. This module shows that
the machine that executes the instructions agrees with it, step by step.

* `Table.StoredIn`: the memory holds the variables of a table and nothing else. The machine sees to
  it as long as addresses are long enough for all variables (`Table.Addressable`).
* `Drives effect m post`: the instructions of an effect can be executed on `m`, and `post` holds of
  what they lead to.
* `Action.drives_effect` is the step lemma, one case for each action; `Action.drives_effects`
  follows the actions of a statement, and `Compile.drives_loop` the statements of a text.
-/

namespace LineCompiler

/-! ## Variables in memory -/

namespace Table

/-- Every variable stands in the memory cell of its slot, and all other cells are 0. -/
structure StoredIn (t : Table) (memory : Nat → Int32) : Prop where
  value_eq : ∀ {slot value}, t.value? slot = some value → memory (t.cell slot) = value
  eq_zero : ∀ {address}, (∀ slot < t.size, t.cell slot ≠ address) → memory address = 0

variable {t t' : Table} {memory : Nat → Int32} {name : String} {slot : Nat} {value : Int32}

theorem storedIn_empty (config : Config) : StoredIn { config } fun _ => 0 where
  value_eq h := by simp [value?] at h
  eq_zero _ := rfl

theorem StoredIn.free (hspaced : 1 ≤ t.config.wordSize) (h : t.StoredIn memory) :
    memory (t.cell t.size) = 0 := by
  refine h.eq_zero fun slot hslot heq => ?_
  have := (cell_inj hspaced).mp heq
  omega

theorem StoredIn.extend (hspaced : 1 ≤ t.config.wordSize) (h : t.StoredIn memory) (name : String)
    (value : Int32) :
    (t.extend name value).StoredIn (Function.update memory (t.cell t.size) value) where
  value_eq {slot v} hv := by
    rw [value?_extend] at hv
    rw [cell_extend]
    split at hv
    · rename_i hslot
      cases hv
      rw [hslot, Function.update_self]
    · rename_i hslot
      have hne : t.cell slot ≠ t.cell t.size := mt (cell_inj hspaced).mp hslot
      rw [Function.update_of_ne hne, h.value_eq hv]
  eq_zero {address} haddress := by
    simp only [size_extend, cell_extend] at haddress
    rw [Function.update_of_ne (haddress t.size (Nat.lt_succ_self _)).symm]
    exact h.eq_zero fun slot hslot => haddress slot (by omega)

/-- A variable that starts as 0 takes a cell that is 0 already. -/
theorem StoredIn.extend_zero (hspaced : 1 ≤ t.config.wordSize) (h : t.StoredIn memory)
    (name : String) : (t.extend name 0).StoredIn memory := by
  have hextend := h.extend hspaced name 0
  rwa [Function.update_eq_self_iff.mpr (h.free hspaced).symm] at hextend

theorem StoredIn.assign (hspaced : 1 ≤ t.config.wordSize) (h : t.StoredIn memory)
    (hslot : slot < t.size) (value : Int32) :
    (t.assign slot value).StoredIn (Function.update memory (t.cell slot) value) where
  value_eq {s v} hv := by
    rw [value?_assign] at hv
    rw [cell_assign]
    split at hv
    · rename_i hs
      cases hv
      rw [hs.1, Function.update_self]
    · rename_i hs
      have hne : t.cell s ≠ t.cell slot := by
        intro heq
        have := (cell_inj hspaced).mp heq
        exact hs ⟨this, this ▸ hslot⟩
      rw [Function.update_of_ne hne, h.value_eq hv]
  eq_zero {address} haddress := by
    simp only [size_assign, cell_assign] at haddress
    rw [Function.update_of_ne (haddress slot hslot).symm]
    exact h.eq_zero haddress

/-- What holds of the table and the memory between any two instructions: the memory agrees with the
table, and the first variables bear these names. A table only grows, so if the addresses of a later
one suffice, those of all tables before it did. -/
structure Tracked (names : List String) (t : Table) (memory : Nat → Int32) : Prop where
  spaced : 1 ≤ t.config.wordSize
  stored : t.Addressable → t.StoredIn memory
  first : names <+: t.names

variable {names : List String}

theorem Tracked.declare (h : t.Tracked names memory)
    (hdeclare : t.declare name 0 = .ok (slot, t')) : t'.Tracked names memory := by
  obtain ⟨-, -, rfl⟩ := declare_eq_ok.mp hdeclare
  refine ⟨h.spaced, fun haddressable => ?_, ?_⟩
  · exact (h.stored haddressable.of_extend).extend_zero h.spaced name
  · rw [names_extend]
    exact h.first.trans (List.prefix_append _ _)

theorem Tracked.read (h : t.Tracked names memory)
    (hread : t.read name = .ok ((slot, value), t')) :
    t'.Tracked names memory ∧
      (t'.Addressable → t.Addressable ∧ memory (t'.address slot) = value) := by
  rcases read_eq_ok.mp hread with ⟨hslot, hvalue, rfl⟩ | ⟨-, hfree, -, rfl, rfl, rfl⟩
  · refine ⟨h, fun haddressable => ⟨haddressable, ?_⟩⟩
    rw [haddressable.address_eq (lt_size_of_slot? hslot)]
    exact (h.stored haddressable).value_eq hvalue
  · refine ⟨h.declare (declare_eq_ok.mpr ⟨hfree, rfl, rfl⟩), fun haddressable => ?_⟩
    refine ⟨haddressable.of_extend, ?_⟩
    rw [haddressable.address_eq (by simp), cell_extend]
    exact (h.stored haddressable.of_extend).free h.spaced

theorem Tracked.write (h : t.Tracked names memory) {written : Int32}
    (hwrite : t.write name value = .ok (slot, t')) (hwritten : t.Addressable → written = value) :
    t'.Tracked names (Function.update memory (t'.address slot) written) ∧
      (t'.Addressable → t.Addressable) := by
  rcases write_eq_ok.mp hwrite with ⟨hslot, rfl⟩ | ⟨-, -, rfl, rfl⟩
  · refine ⟨⟨h.spaced, fun haddressable => ?_, ?_⟩, addressable_assign.mp⟩
    · have hbefore := addressable_assign.mp haddressable
      rw [hwritten hbefore, address_assign, hbefore.address_eq (lt_size_of_slot? hslot)]
      exact (h.stored hbefore).assign h.spaced (lt_size_of_slot? hslot) value
    · rw [names_assign]
      exact h.first
  · refine ⟨⟨h.spaced, fun haddressable => ?_, ?_⟩, Addressable.of_extend⟩
    · have hbefore := haddressable.of_extend
      rw [hwritten hbefore, haddressable.address_eq (by simp), cell_extend]
      exact (h.stored hbefore).extend h.spaced name value
    · rw [names_extend]
      exact h.first.trans (List.prefix_append _ _)

end Table

/-! ## Values in registers -/

/-- The lowest registers hold these values, the highest register first. -/
def Machine.Hold (registers : Nat → Int32) : List Int32 → Prop
  | [] => True
  | value :: rest => registers rest.length = value ∧ Hold registers rest

/-- Writing to a register above them changes nothing. -/
theorem Machine.Hold.update {registers : Nat → Int32} {values : List Int32}
    (h : Hold registers values) {index : Nat} (hindex : values.length ≤ index) (value : Int32) :
    Hold (Function.update registers index value) values := by
  induction values with
  | nil => trivial
  | cons first rest ih =>
    rw [List.length_cons] at hindex
    refine ⟨?_, ih h.2 (by omega)⟩
    rw [Function.update_of_ne (by omega)]
    exact h.1

theorem Machine.Hold.push {registers : Nat → Int32} {values : List Int32}
    (h : Hold registers values) (value : Int32) :
    Hold (Function.update registers values.length value) (value :: values) :=
  ⟨Function.update_self _ _ _, h.update (Nat.le_refl _) value⟩

/-! ## Effects that drive a machine -/

/-- The instructions of an effect can be executed on `m`, and `post` holds of the result of the
effect, the state that it leaves and the machine that the instructions lead to. -/
def Drives {σ α : Type} (effect : Effect σ α) (m : Machine)
    (post : Except Fault α → σ → Machine → Prop) : Prop :=
  ∃ m', m.exec (Event.program effect.events) = some m' ∧ post effect.result effect.state m'

namespace Drives

variable {σ α β : Type} {effect : Effect σ α} {m : Machine}
  {post : Except Fault α → σ → Machine → Prop}

theorem mono {post' : Except Fault α → σ → Machine → Prop} (h : Drives effect m post)
    (hpost : ∀ result s m', post result s m' → post' result s m') : Drives effect m post' := by
  obtain ⟨m', hexec, hm'⟩ := h
  exact ⟨m', hexec, hpost _ _ _ hm'⟩

theorem and {fact : Except Fault α → σ → Prop} (h : Drives effect m post)
    (hfact : fact effect.result effect.state) :
    Drives effect m fun result s m' => post result s m' ∧ fact result s := by
  obtain ⟨m', hexec, hm'⟩ := h
  exact ⟨m', hexec, hm', hfact⟩

/-- An effect that hands on no instruction. -/
theorem of_program_nil (hevents : Event.program effect.events = [])
    (h : post effect.result effect.state m) : Drives effect m post :=
  ⟨m, by rw [hevents]; rfl, h⟩

theorem of_program_singleton {i : Instruction} {m' : Machine}
    (hevents : Event.program effect.events = [i]) (hstep : m.step i = some m')
    (h : post effect.result effect.state m') : Drives effect m post :=
  ⟨m', by rw [hevents, Machine.exec, hstep]; rfl, h⟩

theorem andThen {next : α → σ → Effect σ β} {post' : Except Fault β → σ → Machine → Prop}
    (h : Drives effect m post)
    (hok : ∀ a m', post (.ok a) effect.state m' → Drives (next a effect.state) m' post')
    (herror : ∀ fault m', post (.error fault) effect.state m' →
      post' (.error fault) effect.state m') :
    Drives (effect.andThen next) m post' := by
  obtain ⟨m', hexec, hpost⟩ := h
  cases hresult : effect.result with
  | ok a =>
    rw [hresult] at hpost
    obtain ⟨m'', hexec', hpost'⟩ := hok a m' hpost
    rw [Effect.andThen_of_ok hresult]
    refine ⟨m'', ?_, hpost'⟩
    rw [Event.program_append, Machine.exec_append_of_some hexec, hexec']
  | error fault =>
    rw [hresult] at hpost
    rw [Effect.andThen_of_error hresult]
    exact ⟨m', hexec, herror fault m' hpost⟩

end Drives

/-! ## Actions -/

/-- In the course of a statement the machine agrees with the emitter on the variables and on the
registers in use, of which there are `depth`. -/
structure Emitter.InStep (names : List String) (depth : Nat) (e : Emitter) (m : Machine) :
    Prop where
  tracked : e.table.Tracked names m.memory
  held : e.table.Addressable → Machine.Hold m.registers e.registers
  depth_eq : e.registers.length = depth

/-- The agreement behind a step. A step that failed may have left a register out. -/
def Emitter.InStepAfter (names : List String) (depth : Nat) :
    Except Fault Unit → Emitter → Machine → Prop
  | .ok _, e, m => e.InStep names depth m
  | .error _, e, m => e.table.Tracked names m.memory

variable {names : List String} {depth : Nat} {e : Emitter} {m : Machine}

namespace Action

theorem drives_load (name : String) (h : e.InStep names depth m) :
    Drives (effect (load name) e) m (Emitter.InStepAfter names (depth + 1)) := by
  rw [effect]
  split
  · rename_i slot value table hread
    obtain ⟨htracked, hvalue⟩ := h.tracked.read hread
    refine Drives.of_program_singleton (Event.program_declarations_emit _ _ _) rfl
      ⟨htracked, fun haddressable => ?_, ?_⟩
    · obtain ⟨hbefore, hmemory⟩ := hvalue haddressable
      rw [Machine.read, hmemory]
      exact (h.held hbefore).push value
    · rw [List.length_cons, h.depth_eq]
  · exact Drives.of_program_nil rfl h.tracked

theorem drives_combine (op : BinOp) (h : e.InStep names (depth + 2) m) :
    Drives (effect (combine op) e) m (Emitter.InStepAfter names (depth + 1)) := by
  have hheld := h.held
  have hdepth := h.depth_eq
  rw [effect]
  cases hregisters : e.registers with
  | nil => simp [hregisters] at hdepth
  | cons right below =>
    cases below with
    | nil => simp [hregisters] at hdepth
    | cons left rest =>
      rw [hregisters] at hheld hdepth
      refine Drives.of_program_singleton rfl rfl
        ⟨h.tracked, fun haddressable => ?_, by simpa [foldTop] using hdepth⟩
      obtain ⟨hright, hleft, hrest⟩ := hheld haddressable
      have hresult : Machine.compute op (m.registers rest.length) (m.registers (rest.length + 1)) =
          op.fold left right := by
        rw [Machine.compute_eq_fold, hleft]
        exact congrArg _ hright
      simpa [Machine.read, hresult, foldTop] using hrest.push (op.fold left right)

theorem drives_store (name : String) (h : e.InStep names (depth + 1) m) :
    Drives (effect (store name) e) m (Emitter.InStepAfter names (depth + 1)) := by
  have hvalue : e.table.Addressable →
      m.read (.reg (e.registers.length - 1)) = e.registers.headD 0 := by
    intro haddressable
    have hheld := h.held haddressable
    have hdepth := h.depth_eq
    cases hregisters : e.registers with
    | nil => simp [hregisters] at hdepth
    | cons value rest =>
      rw [hregisters] at hheld
      exact hheld.1
  rw [effect]
  split
  · rename_i slot table hwrite
    obtain ⟨htracked, hbefore⟩ := h.tracked.write hwrite hvalue
    exact Drives.of_program_singleton (Event.program_declarations_emit _ _ _) rfl
      ⟨htracked, fun haddressable => h.held (hbefore haddressable), h.depth_eq⟩
  · exact Drives.of_program_nil rfl h.tracked

/-- The machine stays in step with the emitter through every action. -/
theorem drives_effect (a : Action) (h : e.InStep names (depth + a.arity) m) :
    Drives (a.effect e) m (Emitter.InStepAfter names (depth + a.yield)) := by
  cases a with
  | literal value =>
    refine Drives.of_program_singleton rfl rfl
      ⟨h.tracked, fun haddressable => (h.held haddressable).push value, ?_⟩
    exact congrArg (· + 1) h.depth_eq
  | load name => exact drives_load name h
  | enterDivisor => exact Drives.of_program_nil rfl ⟨h.tracked, h.held, h.depth_eq⟩
  | leaveDivisor =>
    refine Drives.of_program_nil rfl ?_
    simp only [effect]
    split
    · exact h.tracked
    · exact ⟨h.tracked, h.held, h.depth_eq⟩
  | combine op => exact drives_combine op h
  | store name => exact drives_store name h

/-- The machine stays in step through actions that find their operands, up to the first fault. -/
theorem drives_effects {actions : List Action} {final : Nat}
    (hbalanced : Balanced depth actions final) (h : e.InStep names depth m) :
    Drives (effects actions e) m (Emitter.InStepAfter names final) := by
  induction hbalanced generalizing e m with
  | nil depth => exact Drives.of_program_nil rfl h
  | cons a _ ih => exact (drives_effect a h).andThen (fun _ _ => ih) (fun _ _ => id)

end Action

/-! ## Statements and whole texts -/

/-- Between two statements the registers do not matter. -/
def Emitter.TracedAfter (names : List String) {α : Type} (_ : Except Fault α) (e : Emitter)
    (m : Machine) : Prop :=
  e.table.Tracked names m.memory

namespace Emit

theorem drives_statement (tree : Expr) (h : e.table.Tracked names m.memory) :
    Drives (statementEffect tree e) m (Emitter.TracedAfter names) := by
  have hstart : Emitter.InStep names 0 { e with registers := [], divisor := .outside } m :=
    ⟨h, fun _ => trivial, rfl⟩
  have hactions := Action.drives_effects (tree.balanced_actions (.nil 1)) hstart
  refine hactions.andThen (fun _ m h => ?_) (fun _ m h => h)
  exact Drives.of_program_nil rfl h.tracked

theorem drives_logged (logTree : Bool) (line : Nat) (tree : Expr)
    (h : e.table.Tracked names m.memory) :
    Drives (loggedEffect logTree line tree e) m (Emitter.TracedAfter names) := by
  have hparsed : Drives (⟨.ok (), e, if logTree then [.parsed line tree] else []⟩ :
      Effect Emitter Unit) m (Emitter.TracedAfter names) := by
    refine Drives.of_program_nil ?_ h
    cases logTree <;> rfl
  refine hparsed.andThen (fun _ m h => ?_) (fun _ m h => h)
  refine (drives_statement tree h).andThen (fun _ m h => ?_) (fun _ m h => h)
  exact Drives.of_program_nil rfl h

theorem drives_predeclare (name : String) (reg : Nat) (h : e.table.Tracked names m.memory) :
    Drives (predeclareEffect name reg e) m (Emitter.TracedAfter names) := by
  rw [predeclareEffect]
  split
  · rename_i slot table hdeclare
    exact Drives.of_program_singleton (Event.program_declarations_emit _ _ _) rfl
      (h.declare hdeclare)
  · exact Drives.of_program_nil rfl h

theorem drives_opening (pairs : List (String × Nat)) (h : e.table.Tracked names m.memory) :
    Drives (openingEffect pairs e) m (Emitter.TracedAfter names) := by
  induction pairs generalizing e m with
  | nil => exact Drives.of_program_nil rfl h
  | cons pair rest ih =>
    exact (drives_predeclare pair.1 pair.2 h).andThen (fun _ _ h => ih h) (fun _ _ h => h)

end Emit

namespace Compile

variable {c : Compilation}

theorem drives_lift {α : Type} {effect : Effect Emitter α}
    {post : Except Fault α → Emitter → Machine → Prop} (h : Drives effect m post) :
    Drives (lift c effect) m fun result c m => post result c.emitter m := h

theorem drives_loop (script : Script) (count : Nat)
    (h : c.emitter.table.Tracked names m.memory) :
    Drives (loopEffect script count c) m fun _ c m => c.emitter.table.Tracked names m.memory := by
  induction script generalizing count c m with
  | ends cursor => exact Drives.of_program_nil rfl h
  | faulty fault cursor => exact Drives.of_program_nil rfl h
  | statement line tree cursor rest ih =>
    have hstatement := Emit.drives_logged c.logTrees line tree h
    exact (drives_lift hstatement).andThen (fun _ _ h => ih _ h) (fun _ _ h => h)

end Compile

end LineCompiler
