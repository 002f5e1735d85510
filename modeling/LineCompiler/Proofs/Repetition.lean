import LineCompiler.Proofs.Comparison
import LineCompiler.Proofs.Sessions

/-!
# The same statement again

A statement may declare variables while it is compiled, so the table that it leaves is not the one
that it began with. Every slot that it has used is in that table, though, and the name of the slot
still leads there: compiling the statement once more writes the same text, unless the values that it
now finds make a divisor zero.

* `Table.read_again` and `Table.write_again`: an operation that has succeeded finds the same slot in
  every table that continues the one it left, and declares nothing there.
* `Emitter.Repeats names again first`: the emitter `again` is where `first` is in a statement, and
  knows all `names` already. `Action.follows_effect` is the step lemma, in which the second run may
  stop at a divisor, and `Action.follows_effects` the run lemma.
-/

namespace LineCompiler

namespace Table

variable {t t' after : Table} {name : String} {slot : Nat} {value : Int32}

theorem slot?_extend_self (h : t.slot? name = none) :
    (t.extend name value).slot? name = some t.size := by
  rw [slot?_extend, h, if_pos rfl, Option.none_or]

theorem read_again (hread : t.read name = .ok ((slot, value), after))
    (hnames : after.names <+: t'.names) : ∃ value', t'.read name = .ok ((slot, value'), t') := by
  have hslot : after.slot? name = some slot := by
    rcases read_eq_ok.mp hread with ⟨hslot, -, rfl⟩ | ⟨hslot, -, -, rfl, -, rfl⟩
    · exact hslot
    · exact slot?_extend_self hslot
  have hslot' := slot?_mono hnames hslot
  obtain ⟨value', hvalue'⟩ := exists_value?_of_slot? hslot'
  exact ⟨value', read_eq_ok.mpr (.inl ⟨hslot', hvalue', rfl⟩)⟩

theorem write_again (hwrite : t.write name value = .ok (slot, after))
    (hnames : after.names <+: t'.names) (value' : Int32) :
    t'.write name value' = .ok (slot, t'.assign slot value') := by
  have hslot : after.slot? name = some slot := by
    rcases write_eq_ok.mp hwrite with ⟨hslot, rfl⟩ | ⟨hslot, -, rfl, rfl⟩
    · rwa [slot?_assign]
    · exact slot?_extend_self hslot
  exact write_eq_ok.mpr (.inl ⟨slot?_mono hnames hslot, rfl⟩)

end Table

/-- The second run of a statement is where the first one is, and knows all the names. -/
structure Emitter.Repeats (names : List String) (again first : Emitter) : Prop where
  config_eq : again.table.config = first.table.config
  names_eq : again.table.names = names
  depth_eq : again.registers.length = first.registers.length
  divisor_eq : again.divisor = first.divisor

namespace Action

open Emitter (Repeats)

variable {names : List String} {again first : Emitter}

theorem names_mono_effects (actions : List Action) (e : Emitter) :
    e.table.names <+: (effects actions e).state.table.names := by
  rw [← Job.effects_act]
  exact Job.names_mono_effects _ e

theorem follows_load (name : String) (hok : ((load name).effect first).result = .ok ())
    (hnames : ((load name).effect first).state.table.names <+: names)
    (h : Repeats names again first) :
    Follows (· = .zeroDivisor) (Repeats names) ((load name).effect again)
      ((load name).effect first) := by
  cases hread : first.table.read name with
  | error fault =>
    simp only [effect, hread] at hok
    cases hok
  | ok answer =>
    obtain ⟨⟨slot, value⟩, after⟩ := answer
    simp only [effect, hread] at hnames
    rw [← h.names_eq] at hnames
    obtain ⟨value', hagain⟩ := Table.read_again hread hnames
    have hconfig : again.table.config = after.config := by
      rcases Table.read_eq_ok.mp hread with ⟨-, -, rfl⟩ | ⟨-, -, -, -, -, rfl⟩
      · exact h.config_eq
      · exact h.config_eq
    simp only [effect, hread, hagain]
    refine .same rfl ⟨hconfig, h.names_eq, ?_, ?_⟩ ?_
    · exact congrArg Nat.succ h.depth_eq
    · exact congrArg DivisorScan.readVariable h.divisor_eq
    · rw [Event.program_declarations_emit, Event.program_declarations_emit, Table.address,
        Table.address, hconfig, h.depth_eq]

theorem follows_store (name : String) (hok : ((store name).effect first).result = .ok ())
    (hnames : ((store name).effect first).state.table.names <+: names)
    (h : Repeats names again first) :
    Follows (· = .zeroDivisor) (Repeats names) ((store name).effect again)
      ((store name).effect first) := by
  cases hwrite : first.table.write name (first.registers.headD 0) with
  | error fault =>
    simp only [effect, hwrite] at hok
    cases hok
  | ok answer =>
    obtain ⟨slot, after⟩ := answer
    simp only [effect, hwrite] at hnames
    rw [← h.names_eq] at hnames
    have hagain := Table.write_again hwrite hnames (again.registers.headD 0)
    have hconfig : again.table.config = after.config := by
      rcases Table.write_eq_ok.mp hwrite with ⟨-, rfl⟩ | ⟨-, -, -, rfl⟩
      · exact h.config_eq
      · exact h.config_eq
    simp only [effect, hwrite, hagain]
    refine .same rfl ⟨hconfig, ?_, h.depth_eq, h.divisor_eq⟩ ?_
    · rw [Table.names_assign, h.names_eq]
    · rw [Event.program_declarations_emit, Event.program_declarations_emit, Table.address_assign,
        Table.address, Table.address, hconfig, h.depth_eq]

/-- An action that has succeeded writes the same instruction again, or ends a divisor that is zero
this time. -/
theorem follows_effect (a : Action) (hok : (a.effect first).result = .ok ())
    (hnames : (a.effect first).state.table.names <+: names) (h : Repeats names again first) :
    Follows (· = .zeroDivisor) (Repeats names) (a.effect again) (a.effect first) := by
  cases a with
  | literal value =>
    refine .same rfl ⟨h.config_eq, h.names_eq, congrArg Nat.succ h.depth_eq, h.divisor_eq⟩ ?_
    simp only [effect, h.depth_eq]
  | load name => exact follows_load name hok hnames h
  | enterDivisor =>
    have hdivisor := congrArg DivisorScan.enter h.divisor_eq
    exact .same rfl ⟨h.config_eq, h.names_eq, h.depth_eq, hdivisor⟩ rfl
  | leaveDivisor =>
    -- the first run has gone on from here, but the value of the divisor may be another one now
    by_cases hzero : again.registers.head? = some 0 ∧ again.divisor ≠ .varying
    · exact .spared (if_pos hzero) rfl List.nil_prefix
    · refine .same (hok.trans (if_neg hzero).symm) ?_ rfl
      exact ⟨h.config_eq, h.names_eq, h.depth_eq, rfl⟩
  | combine op =>
    have hdepth := length_foldTop_congr op h.depth_eq
    refine .same rfl ⟨h.config_eq, h.names_eq, hdepth, h.divisor_eq⟩ ?_
    simp only [effect, h.depth_eq]
  | store name => exact follows_store name hok hnames h

theorem follows_effects (actions : List Action) (hok : (effects actions first).result = .ok ())
    (hnames : (effects actions first).state.table.names <+: names)
    (h : Repeats names again first) :
    Follows (· = .zeroDivisor) (Repeats names) (effects actions again) (effects actions first) := by
  induction actions generalizing again first with
  | nil => exact .same rfl h rfl
  | cons a rest ih =>
    rw [effects] at hok hnames
    cases ha : (a.effect first).result with
    | error fault =>
      rw [Effect.andThen_of_error ha] at hok
      cases hok
    | ok _ =>
      rw [Effect.andThen_of_ok ha] at hok hnames
      -- the names after this action are among those at the end
      have hmono := (names_mono_effects rest (a.effect first).state).trans hnames
      apply (follows_effect a ha hmono h).andThen_of_ok
      intro _ _ hstate
      exact ih hok hnames hstate

end Action

/-! ## Statements -/

theorem Action.config_effects (actions : List Action) (e : Emitter) :
    (effects actions e).state.table.config = e.table.config := by
  rw [← Job.effects_act]
  apply Job.effects_induction (P := fun t : Table => t.config = e.table.config) _ rfl
  intro job _ t t' hchanges hconfig
  exact hchanges.config_eq.trans hconfig

/-- The effect of a statement from the table that it has left. -/
theorem Emit.statementEffect_again (tree : Expr) {again first : Emitter} {value : Int32}
    (hok : (statementEffect tree first).result = .ok value)
    (htable : again.table = (statementEffect tree first).state.table) :
    ((∃ value', (statementEffect tree again).result = .ok value') ∧
      (statementEffect tree again).state.table.names = again.table.names ∧
      Event.program (statementEffect tree again).events =
        Event.program (statementEffect tree first).events) ∨
    ((statementEffect tree again).result = .error .zeroDivisor ∧
      Event.program (statementEffect tree again).events <+:
        Event.program (statementEffect tree first).events) := by
  cases hfirst : (Action.effects (tree.actions [])
      { first with registers := [], divisor := .outside }).result with
  | error fault =>
    rw [statementEffect, Effect.andThen_of_error hfirst] at hok
    cases hok
  | ok _ =>
    rw [statementEffect, Effect.andThen_of_ok hfirst] at htable
    have hconfig : again.table.config = first.table.config := by
      rw [htable]
      exact Action.config_effects _ _
    have hnames : (Action.effects (tree.actions [])
        { first with registers := [], divisor := .outside }).state.table.names <+:
          again.table.names := by rw [htable]
    have hstart : Emitter.Repeats again.table.names
        { again with registers := [], divisor := .outside }
        { first with registers := [], divisor := .outside } := ⟨hconfig, rfl, rfl, rfl⟩
    rw [statementEffect, statementEffect, Effect.andThen_of_ok hfirst, List.append_nil]
    cases Action.follows_effects (tree.actions []) hfirst hnames hstart with
    | same hresult hstate hprogram =>
      rw [Effect.andThen_of_ok (hresult.symm.trans hfirst), List.append_nil]
      exact .inl ⟨⟨_, rfl⟩, hstate.names_eq, hprogram.symm⟩
    | spared hresult hfault hprogram =>
      rw [Effect.andThen_of_error hresult]
      exact .inr ⟨congrArg Except.error hfault, hprogram⟩

theorem Instruction.lines_of_prefix {p q : List Instruction} (h : p <+: q) :
    ∃ rest, lines q = lines p ++ rest := by
  obtain ⟨more, rfl⟩ := h
  exact ⟨lines more, lines_append p more⟩

/-- **The same statement again.** Let a statement succeed, and let it be compiled once more with the
table that it has left, into any sink. It succeeds with the same text and declares no variable, or
it stops with the beginning of that text: at a divisor that is zero, or because the sink is full. -/
theorem statement_repeated (tree : Expr) (e f : Emitter) (value : Int32)
    (hfirst : (e.run (Emit.statement tree)).1.result = .ok value)
    (htable : f.table = (e.run (Emit.statement tree)).2.table) :
    let first := e.run (Emit.statement tree)
    let second := f.run (Emit.statement tree)
    ((∃ again, second.1.result = .ok again) ∧ second.1.text = first.1.text ∧
      second.2.table.names = f.table.names) ∨
    ((second.1.result = .error .zeroDivisor ∨
        second.1.result = .error .sinkFailed ∧ f.sink.room ≠ none) ∧
      ∃ rest, first.1.text = second.1.text ++ rest) := by
  intro first second
  rcases Emitter.run_taken_or_refused (Emit.performs_statement tree e) with
    ⟨hresult, htext, hleft⟩ | ⟨hrefused, -⟩
  case inr =>
    rw [hfirst] at hrefused
    cases hrefused
  have hagain := Emit.statementEffect_again tree (hresult.symm.trans hfirst) (htable.trans hleft)
  have hbegins : ∃ more, first.1.text =
      Instruction.lines (Event.program (Emit.statementEffect tree f).events) ++ more := by
    rw [htext]
    rcases hagain with ⟨-, -, hprogram⟩ | ⟨-, hprogram⟩
    · exact ⟨"", by rw [hprogram, String.append_empty]⟩
    · exact Instruction.lines_of_prefix hprogram
  rcases Emitter.run_taken_or_refused (Emit.performs_statement tree f) with
    ⟨hresult', htext', hleft'⟩ | ⟨hrefused, hroom, lost, hlost⟩
  · rcases hagain with ⟨⟨value', hok⟩, hnames, hprogram⟩ | ⟨hzero, -⟩
    · refine .inl ⟨⟨value', hresult'.trans hok⟩, ?_, ?_⟩
      · rw [htext', hprogram]
        exact htext.symm
      · rw [hleft', hnames]
    · refine .inr ⟨.inl (hresult'.trans hzero), ?_⟩
      rwa [htext']
  · obtain ⟨more, hmore⟩ := hbegins
    refine .inr ⟨.inr ⟨hrefused, hroom⟩, lost ++ more, ?_⟩
    rw [hmore, hlost, String.append_assoc]

/-- The statement `y = 1 / (y / 1) - 1` turns the value 1 of `y` into 0, and stops there the next
time. -/
theorem statement_repeated_until_zero :
    let tree : Expr := .assign .set "y" (.binary .sub
      (.binary .div (.num 1) (.binary .div (.var "y") (.num 1))) (.num 1))
    let e : Emitter := { table := { vars := [⟨"y", 1⟩] } }
    let f : Emitter := { table := { vars := [⟨"y", 0⟩] } }
    (e.run (Emit.statement tree)).1.result = .ok 0 ∧
    f.table = (e.run (Emit.statement tree)).2.table ∧
    (f.run (Emit.statement tree)).1.result = .error .zeroDivisor ∧
    ∃ rest,
      (e.run (Emit.statement tree)).1.text = (f.run (Emit.statement tree)).1.text ++ rest := by
  dsimp only
  have hfirst : (Emitter.run { table := { vars := [⟨"y", 1⟩] } } (Emit.statement
      (.assign .set "y" (.binary .sub (.binary .div (.num 1) (.binary .div (.var "y") (.num 1)))
        (.num 1))))).1.result = .ok 0 := by cbv
  have htable : ({ table := { vars := [⟨"y", 0⟩] } } : Emitter).table =
      (Emitter.run { table := { vars := [⟨"y", 1⟩] } } (Emit.statement
        (.assign .set "y" (.binary .sub (.binary .div (.num 1) (.binary .div (.var "y") (.num 1)))
          (.num 1))))).2.table := by cbv
  have hsecond : (Emitter.run { table := { vars := [⟨"y", 0⟩] } } (Emit.statement
      (.assign .set "y" (.binary .sub (.binary .div (.num 1) (.binary .div (.var "y") (.num 1)))
        (.num 1))))).1.result = .error .zeroDivisor := by cbv
  refine ⟨hfirst, htable, hsecond, ?_⟩
  have hrepeated := statement_repeated _ _ { table := { vars := [⟨"y", 0⟩] } } 0 hfirst htable
  dsimp only at hrepeated
  rcases hrepeated with ⟨⟨again, hok⟩, -⟩ | ⟨-, hbegins⟩
  · rw [hsecond] at hok
    cases hok
  · exact hbegins

end LineCompiler
