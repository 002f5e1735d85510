import LineCompiler.Proofs.Runs
import LineCompiler.Proofs.Words

/-!
# Sinks that break

A sink with a limit takes a program that fits, and the run does not notice the limit. It keeps the
beginning of a program that does not fit, and the run ends there: nothing more is written, not even
the exit instruction of a failed program. A sink that fails to hand on what it holds makes every run
fail, after all of the program has been written.

* `Instruction.singleByte_lines`: all characters of a program are single bytes, so sinks count
  bytes.
* `broken_sink` compares the runs into all these sinks with the run into a sink without limits.
-/

namespace LineCompiler

/-! ## Program text in bytes -/

/-- Every character of the text is encoded as one byte. -/
def SingleByte (s : String) : Prop := ∀ c ∈ s.toList, c.utf8Size = 1

theorem all_eq_true_iff_singleByte (s : String) :
    s.toList.all (fun c => c.utf8Size == 1) = true ↔ SingleByte s := by
  simp [SingleByte]

instance (s : String) : Decidable (SingleByte s) :=
  decidable_of_iff _ (all_eq_true_iff_singleByte s)

namespace SingleByte

variable {s t : String}

theorem append (hs : SingleByte s) (ht : SingleByte t) : SingleByte (s ++ t) := by
  intro c hc
  rw [String.toList_append, List.mem_append] at hc
  exact hc.elim (hs c) (ht c)

theorem utf8ByteSize_eq (h : SingleByte s) : s.utf8ByteSize = s.length := by
  have hlist (l : List Char) (hl : ∀ c ∈ l, c.utf8Size = 1) :
      (String.ofList l).utf8ByteSize = l.length := by
    induction l with
    | nil => rfl
    | cons c l ih =>
      rw [String.ofList_cons, String.utf8ByteSize_append, String.utf8ByteSize_singleton,
        hl c List.mem_cons_self, ih fun d hd => hl d (List.mem_cons_of_mem c hd), List.length_cons,
        Nat.add_comm]
  rw [← String.length_toList, ← hlist s.toList h, String.ofList_toList]

theorem take (h : SingleByte s) (n : Nat) : SingleByte (String.ofList (s.toList.take n)) := by
  intro c hc
  rw [String.toList_ofList] at hc
  exact h c (List.mem_of_mem_take hc)

/-- The first characters are the first bytes. -/
theorem toByteArray_take (h : SingleByte s) {n : Nat} (hn : n ≤ s.length) :
    (String.ofList (s.toList.take n)).toByteArray = s.toByteArray.extract 0 n := by
  have hsplit : s =
      String.ofList (s.toList.take n) ++ String.ofList (s.toList.drop n) := by
    rw [← String.ofList_append, List.take_append_drop, String.ofList_toList]
  have hsize : n = (String.ofList (s.toList.take n)).toByteArray.size := by
    have hbytes := (h.take n).utf8ByteSize_eq
    rw [String.length_ofList, List.length_take, String.length_toList, Nat.min_eq_left hn] at hbytes
    exact hbytes.symm
  have hbytes : s.toByteArray = (String.ofList (s.toList.take n)).toByteArray ++
      (String.ofList (s.toList.drop n)).toByteArray := by
    rw [← String.toByteArray_append, ← hsplit]
  rw [hbytes]
  exact (ByteArray.extract_append_eq_left hsize).symm

end SingleByte

theorem singleByte_nat (n : Nat) : SingleByte (toString n) := by
  intro c hc
  have hdigit := Text.isDigit_of_mem_nat hc
  rw [Char.utf8Size_eq_one_iff]
  simp only [Char.isDigit, Bool.and_eq_true, decide_eq_true_eq] at hdigit
  exact UInt32.le_trans hdigit.2 (by decide)

theorem singleByte_int32 (i : Int32) : SingleByte (toString i) := by
  obtain ⟨n, h | h⟩ := Text.int32_eq i
  · rw [h]
    exact singleByte_nat n
  · have hminus : SingleByte "-" := by decide
    rw [h]
    exact hminus.append (singleByte_nat n)

namespace Instruction

theorem singleByte_operand (operand : Operand) : SingleByte operand.text := by
  cases operand with
  | reg index => exact .append (by decide) (singleByte_nat index)
  | mem address => exact (SingleByte.append (by decide) (singleByte_nat address)).append (by decide)
  | imm value => exact singleByte_int32 value

theorem singleByte_text (i : Instruction) : SingleByte i.text := by
  have hmove : SingleByte "MOV " := by decide
  have hcomma : SingleByte ", " := by decide
  have hspace : SingleByte " " := by decide
  cases i with
  | preload reg address =>
    exact ((hmove.append (singleByte_operand _)).append hcomma).append (singleByte_operand _)
  | mov dst src =>
    exact ((hmove.append (singleByte_operand _)).append hspace).append (singleByte_operand _)
  | combine op dst src =>
    have hop : SingleByte op.mnemonic := by cases op <;> decide
    exact (((hop.append hspace).append (singleByte_operand _)).append hspace).append
      (singleByte_operand _)
  | exit code => exact .append (by decide) (singleByte_int32 code)

theorem singleByte_lines (program : List Instruction) : SingleByte (lines program) := by
  induction program with
  | nil => exact fun c hc => absurd hc (by simp [lines])
  | cons i program ih =>
    exact (SingleByte.append (singleByte_text i) (by decide)).append ih

end Instruction

/-! ## Runs into other sinks -/

namespace Compilation

variable {text : String} {config : Config} {logTrees : Bool}

/-- A run into any sink, seen from the compilation with a sink without limits. -/
theorem run_into (sink : Sink) :
    (ofText text config sink logTrees).run =
      match Compile.conclude Compile.body (withOutput (ofText text config {} logTrees)
        ⟨⟨sink.room, sink.flushFails, ""⟩, #[]⟩) with
      | .ok outcome c => (c.emitter.trace (.ok outcome), c)
      | .error fault c => (c.emitter.trace (.error fault), c) := by
  rw [run_eq_tracing]
  rfl

variable {effect : Effect Compilation Outcome}
  (heffect : (ofText text config {} logTrees).effect = effect)

include heffect

theorem run_of_fits {limit : Nat}
    (h : (Instruction.lines (Event.program effect.events)).length ≤ limit) :
    (ofText text config { room := some limit } logTrees).run.1 =
      ⟨effect.result, Instruction.lines (Event.program effect.events), effect.events.toArray⟩ := by
  subst heffect
  obtain ⟨outcome, hresult⟩ := Compile.result_ending
    (Compile.closed (Compile.workEffect (ofText text config {} logTrees)))
  have hdeliver := Output.deliver_of_fits h false "" #[]
  have hconclude := Compile.conclude_taken (Compile.performs_body _) rfl hdeliver
  rw [Effect.into_of_ok hresult] at hconclude
  rw [run_into, hconclude, effect, hresult]
  simp [Emitter.trace, withOutput]

/-- Nothing is written behind the instruction that does not fit. -/
theorem run_of_exceeds {limit : Nat}
    (h : limit < (Instruction.lines (Event.program effect.events)).length) (flushFails : Bool) :
    ∃ before i after, effect.events = before ++ .emit i :: after ∧
      (Instruction.lines (Event.program before)).length ≤ limit ∧
      limit < (Instruction.lines (Event.program (before ++ [.emit i]))).length ∧
      (ofText text config { room := some limit, flushFails } logTrees).run.1 =
        ⟨.error .sinkFailed,
          String.ofList ((Instruction.lines (Event.program effect.events)).toList.take limit),
          (before ++ [Event.emit i]).toArray⟩ := by
  subst heffect
  obtain ⟨before, i, after, hevents, hle, hlt, hdeliver⟩ :=
    Output.deliver_of_exceeds h flushFails "" #[]
  obtain ⟨t, ht⟩ := Compile.conclude_refused (Compile.performs_body _) hdeliver
  refine ⟨before, i, after, hevents, hle, hlt, ?_⟩
  rw [run_into, ht]
  simp [Emitter.trace, withOutput]

theorem run_of_unflushed {room : Option Nat}
    (h : ∀ limit, room = some limit →
      (Instruction.lines (Event.program effect.events)).length ≤ limit) :
    (ofText text config { room, flushFails := true } logTrees).run.1.result = .error .sinkFailed ∧
    (ofText text config { room, flushFails := true } logTrees).run.1.text =
      Instruction.lines (Event.program effect.events) := by
  subst heffect
  obtain ⟨o, hdeliver, hwritten⟩ : ∃ o, Output.deliver ⟨⟨room, true, ""⟩, #[]⟩
      (ofText text config {} logTrees).effect.events = (true, o) ∧
      o.sink.written = Instruction.lines
        (Event.program (ofText text config {} logTrees).effect.events) := by
    cases room with
    | none => exact ⟨_, Output.deliver_unlimited true "" #[] _, String.empty_append⟩
    | some limit => exact ⟨_, Output.deliver_of_fits (h limit rfl) true "" #[], String.empty_append⟩
  obtain ⟨t, ht, hsink⟩ := Compile.conclude_unflushed (Compile.performs_body _) rfl hdeliver
  rw [run_into, ht]
  exact ⟨rfl, (congrArg Sink.written hsink).trans hwritten⟩

end Compilation

/-- **Broken sinks.** A limited sink gives the same run as one without a limit if the program fits,
also if it just fits. Otherwise it keeps as many bytes of the program as it can, and the run fails
at the instruction that does not fit, which is the last one that it tries to write. If the sink
fails to hand on its text, every run fails, and what the sink holds is the same as before. -/
theorem broken_sink (text : String) (config : Config) (logTrees : Bool) :
    let free := (Compilation.ofText text config {} logTrees).run.1
    (∃ outcome, free.result = .ok outcome) ∧
    (∀ limit,
      let limited := (Compilation.ofText text config { room := some limit } logTrees).run.1
      (free.text.utf8ByteSize ≤ limit → limited = free) ∧
      (limit < free.text.utf8ByteSize →
        limited.result = .error .sinkFailed ∧
        limited.text.toByteArray = free.text.toByteArray.extract 0 limit ∧
        ∃ before i after, free.log.toList = before ++ .emit i :: after ∧
          limited.log.toList = before ++ [.emit i] ∧
          (Instruction.lines (Event.program before)).utf8ByteSize ≤ limit ∧
          limit < (Instruction.lines (Event.program (before ++ [.emit i]))).utf8ByteSize)) ∧
    ∀ room : Option Nat,
      let failing := (Compilation.ofText text config { room, flushFails := true } logTrees).run.1
      failing.result = .error .sinkFailed ∧
      failing.text.toByteArray = free.text.toByteArray.extract 0
        (min (room.getD free.text.utf8ByteSize) free.text.utf8ByteSize) := by
  intro free
  have hfree : free = _ := congrArg Prod.fst (Compilation.run_of_unhindered ⟨rfl, rfl⟩)
  obtain ⟨effect, heffect⟩ :
      ∃ effect, (Compilation.ofText text config {} logTrees).effect = effect :=
    ⟨_, rfl⟩
  rw [heffect] at hfree
  have hsingle := Instruction.singleByte_lines (Event.program effect.events)
  have hsize (program : List Instruction) := (Instruction.singleByte_lines program).utf8ByteSize_eq
  rw [hfree]
  simp only [hsize]
  refine ⟨?_, fun limit => ⟨fun hfits => ?_, fun hexceeds => ?_⟩, fun room => ?_⟩
  · rw [← heffect]
    exact Compile.result_ending _
  · exact Compilation.run_of_fits heffect hfits
  · obtain ⟨before, i, after, hevents, hle, hlt, hrun⟩ :=
      Compilation.run_of_exceeds heffect hexceeds false
    rw [hrun]
    exact ⟨rfl, hsingle.toByteArray_take (Nat.le_of_lt hexceeds), before, i, after, hevents, rfl,
      hle, hlt⟩
  · by_cases hexceeds : ∃ limit, room = some limit ∧
        limit < (Instruction.lines (Event.program effect.events)).length
    · obtain ⟨limit, rfl, hexceeds⟩ := hexceeds
      obtain ⟨_, _, _, -, -, -, hrun⟩ := Compilation.run_of_exceeds heffect hexceeds true
      rw [hrun, Option.getD_some, Nat.min_eq_left (Nat.le_of_lt hexceeds)]
      exact ⟨rfl, hsingle.toByteArray_take (Nat.le_of_lt hexceeds)⟩
    · have hfits (limit : Nat) (hroom : room = some limit) :
          (Instruction.lines (Event.program effect.events)).length ≤ limit :=
        Nat.le_of_not_lt fun hlt => hexceeds ⟨limit, hroom, hlt⟩
      have hmin : min (room.getD (Instruction.lines (Event.program effect.events)).length)
          (Instruction.lines (Event.program effect.events)).length =
          (Instruction.lines (Event.program effect.events)).toByteArray.size := by
        refine (Nat.min_eq_right ?_).trans (hsize _).symm
        cases room with
        | none => exact Nat.le_refl _
        | some limit => exact hfits limit rfl
      obtain ⟨hresult, htext⟩ := Compilation.run_of_unflushed heffect hfits
      refine ⟨hresult, ?_⟩
      rw [htext, hmin, ByteArray.extract_zero_size]

/-- A program of 96 bytes, in sinks with room for all of it and for a part of it. -/
theorem broken_sink_one_statement :
    ((Compilation.ofText "x = 1\n" {} {} false).run.1.text.utf8ByteSize ≤ 96 ∧
      (Compilation.ofText "x = 1\n" {} { room := some 96 } false).run.1 =
        (Compilation.ofText "x = 1\n" {} {} false).run.1) ∧
    95 < (Compilation.ofText "x = 1\n" {} {} false).run.1.text.utf8ByteSize ∧
      (Compilation.ofText "x = 1\n" {} { room := some 95 } false).run.1.result =
        .error .sinkFailed := by
  have hfits : (Compilation.ofText "x = 1\n" {} {} false).run.1.text.utf8ByteSize ≤ 96 := by
    decide +kernel
  have hexceeds : 95 < (Compilation.ofText "x = 1\n" {} {} false).run.1.text.utf8ByteSize := by
    decide +kernel
  obtain ⟨-, hlimited, -⟩ := broken_sink "x = 1\n" {} false
  exact ⟨⟨hfits, (hlimited 96).1 hfits⟩, hexceeds, ((hlimited 95).2 hexceeds).1⟩

end LineCompiler
