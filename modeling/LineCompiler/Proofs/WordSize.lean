import LineCompiler.Proofs.Renaming
import LineCompiler.Proofs.Sessions

/-!
# The word size

Where a variable lives in memory is its slot times the word size, and nothing else depends on the
word size. So all word sizes have one program in common, in which memory cells are given by slots:
it is the program for words of size 1. Any other program comes from it by `Instruction.scaled`.

* `Emitter.Spaced w e f`: the emitter `f` differs from `e` by its word size, which is `w` and not 1.
* `Scales w a b`: two effects that differ in the same way. `Job.scales_effect` is the step lemma and
  `Job.scales_effects` the run lemma over jobs.
* `Job.cells_effects`: the memory cells of the common program are slots of variables.

An address has 64 bits. `Instruction.map_scaled_of_fits` says when it is the slot times the word
size, and `no_common_program_for_long_words` shows that it need not be.
-/

namespace LineCompiler

/-! ## Slot-addressed programs -/

/-- The operand with the place of a cell in place of its slot. -/
def Operand.placed (place : Nat → Nat) : Operand → Operand
  | mem slot => mem (place slot)
  | operand => operand

/-- The instruction with the places of cells in place of their slots. -/
def Instruction.placed (place : Nat → Nat) : Instruction → Instruction
  | preload reg slot => preload reg (place slot)
  | mov dst src => mov (dst.placed place) (src.placed place)
  | i => i

/-- The instruction with addresses in place of slots, for words of size `w`. -/
def Instruction.scaled (w : Nat) : Instruction → Instruction := placed fun slot => slot * w % 2 ^ 64

/-- The memory cells of an operand. -/
def Operand.cells : Operand → List Nat
  | mem cell => [cell]
  | _ => []

/-- The memory cells that an instruction is about. -/
def Instruction.cells : Instruction → List Nat
  | preload _ cell => [cell]
  | mov dst src => dst.cells ++ src.cells
  | _ => []

theorem Operand.placed_congr {f g : Nat → Nat} {operand : Operand}
    (h : ∀ slot ∈ operand.cells, f slot = g slot) : operand.placed f = operand.placed g := by
  cases operand with
  | mem slot => exact congrArg mem (h slot (List.mem_singleton_self slot))
  | reg | imm => rfl

/-- Only the places of its own cells matter to an instruction. -/
theorem Instruction.placed_congr {f g : Nat → Nat} {i : Instruction}
    (h : ∀ slot ∈ i.cells, f slot = g slot) : i.placed f = i.placed g := by
  cases i with
  | preload reg slot => exact congrArg (preload reg) (h slot (List.mem_singleton_self slot))
  | mov dst src =>
    have hdst : dst.placed f = dst.placed g :=
      Operand.placed_congr fun slot hslot => h slot (List.mem_append_left _ hslot)
    have hsrc : src.placed f = src.placed g :=
      Operand.placed_congr fun slot hslot => h slot (List.mem_append_right _ hslot)
    rw [placed, placed, hdst, hsrc]
  | combine | exit => rfl

/-- No bit of an address is lost where no slot times the word size needs more than 64. -/
theorem Instruction.map_scaled_of_fits {slots : List Instruction} {w size : Nat}
    (hcells : ∀ i ∈ slots, ∀ slot ∈ i.cells, slot < size)
    (hfits : ∀ slot < size, slot * w < 2 ^ 64) :
    slots.map (scaled w) = slots.map (placed (· * w)) := by
  apply List.map_congr_left
  intro i hi
  apply placed_congr
  intro slot hslot
  exact Nat.mod_eq_of_lt (hfits slot (hcells i hi slot hslot))

namespace Table

/-- The same variables, the cells of which lie `w` apart. -/
def spaced (w : Nat) (t : Table) : Table := { t with config.wordSize := w }

variable {t : Table} {w : Nat}

/-- The operations on the table do not look at the word size. -/
theorem image_spaced (w : Nat) : Image id (spaced w) where
  capacity _ := rfl
  declareOnRead _ := rfl
  size _ := rfl
  slot? _ _ := rfl
  value? _ _ := rfl
  extend _ _ _ := rfl
  assign _ _ _ := rfl

theorem address_of_wordSize (h : t.config.wordSize = 1) (slot : Nat) :
    t.address slot = slot % 2 ^ 64 := by
  rw [address_eq_mod, h, Nat.mul_one]

theorem address_spaced (slot : Nat) : (t.spaced w).address slot = slot * w % 2 ^ 64 :=
  address_eq_mod _ _

end Table

theorem Fault.rename_id (fault : Fault) : fault.rename id = fault := by
  cases fault <;> rfl

/-! ## Jobs -/

/-- The second emitter is the first one with another word size than 1. -/
structure Emitter.Spaced (w : Nat) (e f : Emitter) : Prop where
  wordSize_eq : e.table.config.wordSize = 1
  eq_spaced : f = { e with table := e.table.spaced w }

/-- The second effect does what the first one does, in cells that lie `w` apart. -/
structure Scales {α : Type} (w : Nat) (a b : Effect Emitter α) : Prop where
  result_eq : b.result = a.result
  spaced : Emitter.Spaced w a.state b.state
  program_eq : Event.program b.events = (Event.program a.events).map (Instruction.scaled w)

theorem Scales.andThen {α β : Type} {w : Nat} {a b : Effect Emitter α}
    {next next' : α → Emitter → Effect Emitter β} (h : Scales w a b)
    (hnext : ∀ x e f, Emitter.Spaced w e f → Scales w (next x e) (next' x f)) :
    Scales w (a.andThen next) (b.andThen next') := by
  cases ha : a.result with
  | error fault =>
    rw [Effect.andThen_of_error ha, Effect.andThen_of_error (h.result_eq.trans ha)]
    exact ⟨rfl, h.spaced, h.program_eq⟩
  | ok x =>
    have hx := hnext x _ _ h.spaced
    rw [Effect.andThen_of_ok ha, Effect.andThen_of_ok (h.result_eq.trans ha)]
    refine ⟨hx.result_eq, hx.spaced, ?_⟩
    rw [Event.program_append, Event.program_append, List.map_append, h.program_eq, hx.program_eq]

namespace Job

variable {w : Nat} {e f : Emitter}

/-- The word size does not change. -/
theorem wordSize_effect (h : e.table.config.wordSize = 1) (job : Job) :
    (job.effect e).state.table.config.wordSize = 1 := by
  rw [(changes_effect job e).config_eq, h]

/-- An operation on the table that succeeds, and an instruction for the cell of its slot. -/
theorem scales_taken (hword : e.table.config.wordSize = 1) (before before' : Table) (slot : Nat)
    (i : Nat → Instruction) (hi : ∀ cell, (i cell).scaled w = i (cell * w % 2 ^ 64)) :
    Scales w
      ⟨.ok (), e, Event.declarations before e.table ++ [.emit (i (e.table.address slot))]⟩
      ⟨.ok (), { e with table := e.table.spaced w },
        Event.declarations before' (e.table.spaced w) ++
          [.emit (i ((e.table.spaced w).address slot))]⟩ where
  result_eq := rfl
  spaced := ⟨hword, rfl⟩
  program_eq := by
    rw [Event.program_declarations_emit, Event.program_declarations_emit, Table.address_spaced,
      Table.address_of_wordSize hword, List.map_singleton, hi, Nat.mod_mul_mod]

/-- An operation on the table that fails. -/
theorem scales_refused (hword : e.table.config.wordSize = 1) (fault : Fault) :
    Scales w (⟨.error fault, e, []⟩ : Effect Emitter Unit)
      ⟨.error (fault.rename id), { e with table := e.table.spaced w }, []⟩ :=
  ⟨by rw [Fault.rename_id], ⟨hword, rfl⟩, rfl⟩

/-- A job does the same for any word size, up to the addresses in its instruction. -/
theorem scales_effect (h : Emitter.Spaced w e f) (job : Job) :
    Scales w (job.effect e) (job.effect f) := by
  -- an address is taken from the table that the operation leaves, so this is the word size to know
  have hword := wordSize_effect h.wordSize_eq job
  have himage := Table.image_spaced w
  obtain ⟨-, rfl⟩ := h
  cases job with
  | start => exact ⟨rfl, ⟨hword, rfl⟩, rfl⟩
  | predeclare name reg =>
    have hanswer : (e.table.spaced w).declare name 0 = _ := himage.declare e.table name 0
    rw [effect, Emit.predeclareEffect] at hword ⊢
    rw [effect, Emit.predeclareEffect, hanswer]
    cases hdeclare : e.table.declare name 0 with
    | ok answer =>
      rw [hdeclare] at hword
      exact scales_taken (e := { e with table := answer.2 }) hword _ _ _ (.preload reg) fun _ => rfl
    | error fault =>
      rw [hdeclare] at hword
      exact scales_refused hword fault
  | act action =>
    cases action with
    | literal | enterDivisor | leaveDivisor | combine => exact ⟨rfl, ⟨hword, rfl⟩, rfl⟩
    | load name =>
      have hanswer : (e.table.spaced w).read name = _ := himage.read e.table name
      rw [effect, Action.effect] at hword ⊢
      rw [effect, Action.effect, hanswer]
      cases hread : e.table.read name with
      | ok answer =>
        rw [hread] at hword
        exact scales_taken hword _ _ _ (fun cell => .mov (.reg e.registers.length) (.mem cell))
          fun _ => rfl
      | error fault =>
        rw [hread] at hword
        exact scales_refused hword fault
    | store name =>
      have hanswer : (e.table.spaced w).write name (e.registers.headD 0) = _ :=
        himage.write e.table name (e.registers.headD 0)
      rw [effect, Action.effect] at hword ⊢
      rw [effect, Action.effect, hanswer]
      cases hwrite : e.table.write name (e.registers.headD 0) with
      | ok answer =>
        rw [hwrite] at hword
        exact scales_taken hword _ _ _
          (fun cell => .mov (.mem cell) (.reg (e.registers.length - 1))) fun _ => rfl
      | error fault =>
        rw [hwrite] at hword
        exact scales_refused hword fault

theorem scales_effects (h : Emitter.Spaced w e f) (jobs : List Job) :
    Scales w (effects jobs e) (effects jobs f) := by
  induction jobs generalizing e f with
  | nil => exact ⟨rfl, h, rfl⟩
  | cons job rest ih =>
    apply (scales_effect h job).andThen
    intro _ e f hspaced
    exact ih hspaced

/-! ## Cells -/

/-- With words of size 1, the cell in the instruction of a job is the slot of a variable. -/
theorem cells_effect (hword : e.table.config.wordSize = 1) (job : Job) :
    ∀ i ∈ Event.program (job.effect e).events, ∀ slot ∈ i.cells,
      slot < (job.effect e).state.table.size := by
  have hword' := wordSize_effect hword job
  cases job with
  | start => simp [effect]
  | predeclare name reg =>
    rw [effect, Emit.predeclareEffect] at hword' ⊢
    split at hword'
    · rename_i slot table hdeclare
      obtain ⟨-, rfl, rfl⟩ := Table.declare_eq_ok.mp hdeclare
      have hlt : e.table.size % 2 ^ 64 < e.table.size + 1 :=
        Nat.lt_succ_of_le (Nat.mod_le _ _)
      simpa [Instruction.cells, Table.address_of_wordSize hword'] using hlt
    · simp
  | act action =>
    cases action with
    | literal | combine => simp [effect, Action.effect, Instruction.cells, Operand.cells]
    | enterDivisor | leaveDivisor => simp [effect, Action.effect]
    | load name =>
      rw [effect, Action.effect] at hword' ⊢
      split at hword'
      · rename_i slot value table hread
        have hlt : slot % 2 ^ 64 < table.size := by
          apply Nat.lt_of_le_of_lt (Nat.mod_le _ _)
          rcases Table.read_eq_ok.mp hread with ⟨hslot, -, rfl⟩ | ⟨-, -, -, rfl, -, rfl⟩
          · exact Table.lt_size_of_slot? hslot
          · simp
        simpa [Instruction.cells, Operand.cells, Table.address_of_wordSize hword'] using hlt
      · simp
    | store name =>
      rw [effect, Action.effect] at hword' ⊢
      split at hword'
      · rename_i slot table hwrite
        have hlt : slot % 2 ^ 64 < table.size := by
          apply Nat.lt_of_le_of_lt (Nat.mod_le _ _)
          rcases Table.write_eq_ok.mp hwrite with ⟨hslot, rfl⟩ | ⟨-, -, rfl, rfl⟩
          · simpa using Table.lt_size_of_slot? hslot
          · simp
        simpa [Instruction.cells, Operand.cells, Table.address_of_wordSize hword'] using hlt
      · simp

theorem size_le_effects (jobs : List Job) (e : Emitter) :
    e.table.size ≤ (effects jobs e).state.table.size := by
  have hlength := (names_mono_effects jobs e).length_le
  rwa [Table.length_names, Table.length_names] at hlength

theorem cells_effects (hword : e.table.config.wordSize = 1) (jobs : List Job) :
    ∀ i ∈ Event.program (effects jobs e).events, ∀ slot ∈ i.cells,
      slot < (effects jobs e).state.table.size := by
  induction jobs generalizing e with
  | nil => simp [effects]
  | cons job rest ih =>
    have hjob := cells_effect hword job
    rw [effects]
    cases hresult : (job.effect e).result with
    | error fault =>
      rw [Effect.andThen_of_error hresult]
      exact hjob
    | ok _ =>
      rw [Effect.andThen_of_ok hresult]
      intro i hi slot hslot
      rw [Event.program_append, List.mem_append] at hi
      rcases hi with hi | hi
      · exact Nat.lt_of_lt_of_le (hjob i hi slot hslot) (size_le_effects rest _)
      · exact ih (wordSize_effect hword job) i hi slot hslot

end Job

/-! ## Whole runs -/

theorem Emit.closingProgram_spaced {t : Table} (h : t.config.wordSize = 1) (w : Nat) :
    closingProgram (t.spaced w) = (closingProgram t).map (Instruction.scaled w) := by
  rw [closingProgram, closingProgram, List.map_append, List.map_map]
  congr 1
  apply List.map_congr_left
  intro slot _
  simp [Instruction.scaled, Instruction.placed, Operand.placed, Table.address_of_wordSize h,
    Table.address_spaced]

namespace Compilation

open Compile

variable {w : Nat} {c d : Compilation}

theorem effect_spaced (hcursor : d.cursor = c.cursor)
    (h : Emitter.Spaced w c.emitter d.emitter) :
    d.effect.result = c.effect.result ∧
    Emitter.Spaced w c.effect.state.emitter d.effect.state.emitter ∧
    Event.program d.effect.events = (Event.program c.effect.events).map (Instruction.scaled w) := by
  have hc := mirrors_work c
  have hd := mirrors_work d
  have hscales := Job.scales_effects h c.jobs
  rw [jobs, hcursor, ← jobs] at hd
  have hresult : (workEffect d).result = (workEffect c).result := by
    rw [hd.result_eq, hc.result_eq, hscales.result_eq]
  have hspaced : Emitter.Spaced w c.effect.state.emitter d.effect.state.emitter := by
    rw [state_effect, state_effect, hd.emitter_eq, hc.emitter_eq]
    exact hscales.spaced
  have hprogram : Event.program (workEffect d).events =
      (Event.program (workEffect c).events).map (Instruction.scaled w) := by
    rw [hd.program_eq, hc.program_eq, hscales.program_eq]
  rcases c.completed_or_stopped with hcompleted | ⟨fault, hstopped⟩
  · have hcompleted' : d.effect.result = .ok .completed := by
      rw [completed_iff, hresult]
      exact completed_iff.mp hcompleted
    refine ⟨hcompleted'.trans hcompleted.symm, hspaced, ?_⟩
    rw [program_of_completed hcompleted, program_of_completed hcompleted', hprogram,
      hspaced.eq_spaced, Emit.closingProgram_spaced hspaced.wordSize_eq, List.map_append]
  · have hstopped' : d.effect.result = .ok (.stopped fault) := by
      rw [stopped_iff, hresult]
      exact stopped_iff.mp hstopped
    refine ⟨hstopped'.trans hstopped.symm, hspaced, ?_⟩
    rw [program_of_stopped hstopped, program_of_stopped hstopped', hprogram, List.map_append]
    rfl

/-- A run that completes has declared the predeclared variables. -/
theorem Settled.predeclared_of_completed {runs : Nat} (h : c.Settled runs)
    (hcompleted : c.effect.result = .ok .completed) :
    Emit.predeclared <+: c.effect.state.emitter.table.names := by
  have hc := mirrors_work c
  obtain ⟨count, hwork⟩ := completed_iff.mp hcompleted
  have hopening : (Job.effects Emit.openingJobs c.emitter).result = .ok () := by
    cases hresult : (Job.effects Emit.openingJobs c.emitter).result with
    | ok _ => rfl
    | error fault =>
      have hfault := hc.result_eq
      rw [jobs, Job.effects_append, Effect.andThen_of_error hresult, hwork] at hfault
      cases hfault
  rw [state_effect, hc.emitter_eq]
  apply h.predeclared_effects
  exact (Emitter.run_of_unlimited (Job.performs_forM _ c.emitter) h.unhindered.1).1.trans hopening

/-- With words of size 1, the memory cells of a program are slots of variables. -/
theorem Settled.cells_effect {runs : Nat} (h : c.Settled runs)
    (hword : c.emitter.table.config.wordSize = 1) :
    ∀ i ∈ Event.program c.effect.events, ∀ slot ∈ i.cells,
      slot < c.effect.state.emitter.table.size := by
  have hc := mirrors_work c
  have hwork : ∀ i ∈ Event.program (workEffect c).events, ∀ slot ∈ i.cells,
      slot < c.effect.state.emitter.table.size := by
    rw [state_effect, hc.emitter_eq, hc.program_eq]
    exact Job.cells_effects hword c.jobs
  intro i hi slot hslot
  rcases c.completed_or_stopped with hcompleted | ⟨fault, hstopped⟩
  · have hpredeclared := (h.predeclared_of_completed hcompleted).length_le
    have hword' : c.effect.state.emitter.table.config.wordSize = 1 := by
      rw [state_effect, hc.emitter_eq]
      exact (Job.scales_effects (w := 1) ⟨hword, rfl⟩ c.jobs).spaced.wordSize_eq
    rw [program_of_completed hcompleted, Emit.closingProgram] at hi
    rw [Table.length_names] at hpredeclared
    simp only [List.mem_append, List.mem_map, List.mem_range, List.mem_singleton] at hi
    rcases hi with hi | ⟨reg, hreg, rfl⟩ | rfl
    · exact hwork i hi slot hslot
    · simp only [Instruction.cells, Operand.cells, List.nil_append, List.mem_singleton] at hslot
      rw [hslot, Table.address_of_wordSize hword']
      exact Nat.lt_of_le_of_lt (Nat.mod_le _ _) (Nat.lt_of_lt_of_le hreg hpredeclared)
    · cases hslot
  · rw [program_of_stopped hstopped, List.mem_append, List.mem_singleton] at hi
    rcases hi with hi | rfl
    · exact hwork i hi slot hslot
    · cases hslot

end Compilation

/-- **The word size only scales addresses.** For any two word sizes, the runs end in the same way,
leave the same variables with the same values and write equally many instructions. All word sizes
have one program in common that gives memory cells by their slots, and the text for the word size
`w` is the text of this program with the address of every slot in its place. As long as addresses
are long enough for all variables, this address is `slot * w`. -/
theorem word_size_scales_addresses (text : String) (capacity : Nat)
    (declareOnRead logTrees : Bool) :
    let run (w : Nat) := (Compilation.ofText text ⟨w, capacity, declareOnRead⟩ {} logTrees).run
    (∀ w w',
      (run w).1.result = (run w').1.result ∧
      (run w).2.emitter.table.vars = (run w').2.emitter.table.vars ∧
      (∀ slot, (run w).2.emitter.table.value? slot = (run w').2.emitter.table.value? slot) ∧
      (run w).1.program.length = (run w').1.program.length) ∧
    ∃ slots : List Instruction, ∀ w,
      (∀ i ∈ slots, ∀ slot ∈ i.cells, slot < (run w).2.emitter.table.size) ∧
      (run w).1.program = slots.map (Instruction.scaled w) ∧
      (run w).1.text = Instruction.lines (slots.map (Instruction.scaled w)) ∧
      ((∀ slot < (run w).2.emitter.table.size, slot * w < 2 ^ 64) →
        (run w).1.program = slots.map (Instruction.placed (· * w)) ∧
        (run w).1.text = Instruction.lines (slots.map (Instruction.placed (· * w)))) := by
  intro run
  let c := Compilation.ofText text ⟨1, capacity, declareOnRead⟩ {} logTrees
  have hsettled : c.Settled 0 := Compilation.settled_ofText text _ logTrees
  have hrun (w : Nat) :
      (run w).1.result = c.effect.result ∧
      (run w).2.emitter.table = c.effect.state.emitter.table.spaced w ∧
      (run w).1.program = (Event.program c.effect.events).map (Instruction.scaled w) ∧
      (run w).1.text =
        Instruction.lines ((Event.program c.effect.events).map (Instruction.scaled w)) := by
    let d := Compilation.ofText text ⟨w, capacity, declareOnRead⟩ {} logTrees
    have hd : d.Unhindered := ⟨rfl, rfl⟩
    obtain ⟨hresult, hspaced, hprogram⟩ :=
      Compilation.effect_spaced (c := c) (d := d) (w := w) rfl ⟨rfl, rfl⟩
    refine ⟨?_, ?_, ?_, ?_⟩
    · exact (Compilation.result_run hd).trans hresult
    · exact (Compilation.table_run hd).trans (congrArg Emitter.table hspaced.eq_spaced)
    · rw [← hprogram, Trace.program]
      exact congrArg Event.program (congrArg (·.1.log.toList) (Compilation.run_of_unhindered hd))
    · rw [← hprogram]
      exact Compilation.text_run hd
  refine ⟨?_, Event.program c.effect.events, ?_⟩
  · intro w w'
    obtain ⟨hresult, htable, hprogram, -⟩ := hrun w
    obtain ⟨hresult', htable', hprogram', -⟩ := hrun w'
    refine ⟨hresult.trans hresult'.symm, ?_, ?_, ?_⟩
    · rw [htable, htable']
      rfl
    · intro slot
      rw [htable, htable']
      rfl
    · rw [hprogram, hprogram', List.length_map, List.length_map]
  · intro w
    obtain ⟨-, htable, hprogram, htext⟩ := hrun w
    have hcells : ∀ i ∈ Event.program c.effect.events, ∀ slot ∈ i.cells,
        slot < (run w).2.emitter.table.size := by
      rw [htable]
      exact hsettled.cells_effect rfl
    refine ⟨hcells, hprogram, htext, fun hfits => ?_⟩
    rw [hprogram, htext, Instruction.map_scaled_of_fits hcells hfits]
    exact ⟨rfl, rfl⟩

/-- Two word sizes, for a text whose one statement adds a variable. -/
theorem word_size_scales_addresses_of_assignment :
    let run (w : Nat) := (Compilation.ofText "a = y\n" { wordSize := w } {} false).run
    (∀ slot < (run 4).2.emitter.table.size, slot * 4 < 2 ^ 64) ∧
    (∀ slot < (run (2 ^ 62)).2.emitter.table.size, slot * 2 ^ 62 < 2 ^ 64) ∧
    (run 4).1.result = (run (2 ^ 62)).1.result ∧
    ∃ slots : List Instruction,
      (run 4).1.text = Instruction.lines (slots.map (Instruction.placed (· * 4))) ∧
      (run (2 ^ 62)).1.text =
        Instruction.lines (slots.map (Instruction.placed (· * 2 ^ 62))) := by
  have hsize :
      (Compilation.ofText "a = y\n" { wordSize := 4 } {} false).run.2.emitter.table.size = 4 := by
    cbv
  have hfits : ∀ slot < 4, slot * 4 < 2 ^ 64 := by omega
  have hfits' : ∀ slot < 4, slot * 2 ^ 62 < 2 ^ 64 := by omega
  obtain ⟨hsame, slots, hslots⟩ := word_size_scales_addresses "a = y\n" 64 false false
  dsimp only at hsame hslots ⊢
  have hsize' := (congrArg List.length (hsame (2 ^ 62) 4).2.1).trans hsize
  have hshort := fun slot hslot => hfits slot (Nat.lt_of_lt_of_eq hslot hsize)
  have hlong := fun slot hslot => hfits' slot (Nat.lt_of_lt_of_eq hslot hsize')
  exact ⟨hshort, hlong, (hsame 4 (2 ^ 62)).1, slots, ((hslots 4).2.2.2 hshort).2,
    ((hslots (2 ^ 62)).2.2.2 hlong).2⟩

/-! ## Words that addresses are too short for -/

theorem length_toString_le {a b : Nat} (h : a ≤ b) :
    (toString a).length ≤ (toString b).length := by
  have hdigits : (Nat.toDigits 10 a).length ≤ (Nat.toDigits 10 b).length := by
    rw [Nat.length_toDigits_le_iff (by decide) Nat.length_toDigits_pos]
    apply Nat.lt_of_le_of_lt h
    rw [← Nat.length_toDigits_le_iff (by decide) Nat.length_toDigits_pos]
  simpa [Nat.toString_eq_repr, Nat.repr_eq_ofList_toDigits] using hdigits

theorem Operand.length_placed_le (operand : Operand) {w w' : Nat} (h : w ≤ w') :
    (operand.placed (· * w)).text.length ≤ (operand.placed (· * w')).text.length := by
  cases operand with
  | mem slot =>
    have := length_toString_le (Nat.mul_le_mul_left slot h)
    simpa [placed, text] using this
  | reg | imm => rfl

/-- A program is not shorter for longer words, if every slot is written as itself times the word
size. -/
theorem Instruction.length_lines_placed_le (slots : List Instruction) {w w' : Nat} (h : w ≤ w') :
    (lines (slots.map (placed (· * w)))).length ≤
      (lines (slots.map (placed (· * w')))).length := by
  induction slots with
  | nil => rfl
  | cons i rest ih =>
    have hline : (i.placed (· * w)).line.length ≤ (i.placed (· * w')).line.length := by
      cases i with
      | preload reg slot =>
        have := (Operand.mem slot).length_placed_le h
        simpa [placed, line, text, Operand.placed] using this
      | mov dst src =>
        have hdst := dst.length_placed_le h
        have hsrc := src.length_placed_le h
        simp only [placed, line, text, String.length_append]
        omega
      | combine | exit => rfl
    simp only [List.map_cons, lines, String.length_append]
    omega

/-- With words of size `2 ^ 63` an address is too short for the third slot, and no program gives the
text for these words and for shorter ones when every slot is written as itself times the word
size. -/
theorem no_common_program_for_long_words :
    let run (w : Nat) := (Compilation.ofText "" { wordSize := w } {} false).run
    ¬ ∃ slots : List Instruction, ∀ w ∈ [2 ^ 63 - 1, 2 ^ 63],
      (run w).1.text = Instruction.lines (slots.map (Instruction.placed (· * w))) := by
  have hshort : (Compilation.ofText "" { wordSize := 2 ^ 63 - 1 } {} false).run.1.text =
      "MOV r0, [0]\nMOV r1, [9223372036854775807]\nMOV r2, [18446744073709551614]\n" ++
      "MOV r0 [0]\nMOV r1 [9223372036854775807]\nMOV r2 [18446744073709551614]\nEXIT 0\n" := by
    cbv
  have hlong : (Compilation.ofText "" { wordSize := 2 ^ 63 } {} false).run.1.text =
      "MOV r0, [0]\nMOV r1, [9223372036854775808]\nMOV r2, [0]\n" ++
      "MOV r0 [0]\nMOV r1 [9223372036854775808]\nMOV r2 [0]\nEXIT 0\n" := by
    cbv
  have hwords : 2 ^ 63 - 1 ≤ 2 ^ 63 := by decide
  dsimp only
  rintro ⟨slots, hslots⟩
  have hle := Instruction.length_lines_placed_le slots hwords
  rw [← hslots _ (List.mem_cons_self ..), hshort,
    ← hslots _ (List.mem_cons_of_mem _ (List.mem_cons_self ..)), hlong] at hle
  exact absurd hle (by cbv)

end LineCompiler
