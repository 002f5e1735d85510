import LineCompiler.Proofs.Composition

/-!
# A last line without its end

The end of the text closes a line only if the line is blank. A last line that holds anything else is
not compiled, even if it would be with a line end behind it.

* `Token.scan_eq_eof_iff`: only spaces and tabs have no tokens.
* `Statement.read_unended`: what the line is read as with and without its end.
* `Compilation.effect_append_of_ends` and `Compilation.effect_append_of_faulty`: a text whose first
  lines compile and whose last line is blank, or cannot be read.
* `run_unended_line` puts this together for whole runs.
-/

namespace LineCompiler

namespace Token

theorem scan_ne_nil (text : List Char) : scan text ≠ [] := by
  cases hdrop : text.dropWhile isBlank with
  | nil => simp [scan_of_nil hdrop]
  | cons c rest => simp [scan_of_cons hdrop]

theorem scan_eq_eof_iff (text : List Char) : scan text = [eof] ↔ ∀ c ∈ text, isBlank c := by
  rw [← List.dropWhile_eq_nil_iff]
  cases hdrop : text.dropWhile isBlank with
  | nil => simp [scan_of_nil hdrop]
  | cons c rest =>
    rw [scan_of_cons hdrop]
    simp [scan_ne_nil]

end Token

/-! ## Reading an unended line -/

theorem Pending.next?_eof (p : Pending) : p.next? .eof = none := by
  obtain ⟨frames, expecting⟩ := p
  cases expecting <;> rfl

theorem Frame.paren_notMem_of_closeAll {e tree : Expr} {frames : List Frame}
    (h : closeAll e frames = (tree, [])) : paren ∉ frames := by
  induction frames generalizing e with
  | nil => exact List.not_mem_nil
  | cons frame frames ih =>
    cases frame with
    | binary level op left => simpa using ih h
    | assign op name => simpa using ih h
    | paren => cases h

/-- What could end here is only at fault for not having ended. -/
theorem Pending.fault_of_complete? {p : Pending} {tree : Expr} (h : p.complete? = some tree) :
    p.fault = .malformed := by
  obtain ⟨frames, expecting⟩ := p
  cases expecting with
  | operand => cases h
  | stepTarget op => cases h
  | operator e =>
    simp only [complete?] at h
    split at h
    · rename_i hclose
      exact if_neg (Frame.paren_notMem_of_closeAll hclose)
    · cases h

/-- A line that holds anything is read with a fault if the text ends with it: the fault that it has
anyway, or else that of its missing end. -/
theorem Statement.read_unended {line : List Token} (hline : ∀ t ∈ line, t.Inner)
    (hne : line ≠ []) :
    ∃ fault left, read (line ++ [.eof]) = (.error fault, left) ∧ ∀ rest,
      (∀ s, (read (line ++ .newline :: rest)).1 = .ok s → fault = .malformed) ∧
      ∀ f, (read (line ++ .newline :: rest)).1 = .error f → fault = f := by
  obtain ⟨token, line, rfl⟩ := List.exists_cons_of_ne_nil hne
  have htoken := hline token List.mem_cons_self
  obtain ⟨p, unread, hadvance⟩ : ∃ p unread,
      Pending.start.advance (token :: line) = (p, unread) := ⟨_, _, rfl⟩
  have heof := Statement.read_of_inner htoken (line ++ [.eof])
  have hread (rest : List Token) := Statement.read_of_inner htoken (line ++ .newline :: rest)
  rw [← List.cons_append, Pending.advance_append Pending.next?_eof, hadvance] at heof
  simp only [← List.cons_append, Pending.advance_append Pending.next?_newline, hadvance] at hread
  cases unread with
  | nil =>
    refine ⟨p.fault, [.eof], heof, fun rest => ?_⟩
    rw [hread, List.nil_append]
    cases hcomplete : p.complete? with
    | some tree => simp [Pending.fault_of_complete? hcomplete, hcomplete]
    | none => simp [hcomplete]
  | cons stuck unread =>
    obtain ⟨consumed, htokens, -⟩ := Pending.exists_reads_of_advance hadvance
    have hstuck : stuck.Inner := hline stuck (by simp [htokens])
    refine ⟨p.fault, stuck :: unread ++ [.eof], ?_, fun rest => ?_⟩
    · rw [heof]
      cases stuck with
      | newline => exact absurd rfl hstuck.1
      | _ => rfl
    · rw [hread]
      cases stuck with
      | newline => exact absurd rfl hstuck.1
      | _ => simp

namespace Cursor

variable {r : String}

/-- The script of a blank line, with and without its end. -/
theorem script_of_blanks (h : ∀ c ∈ r.toList, Token.isBlank c) :
    (∃ d, script ⟨Token.ofString r, 1⟩ = .ends d) ∧
      ∃ d, script ⟨Token.ofString (r ++ "\n"), 1⟩ = .ends d := by
  have hnewline : '\n' ∉ r.toList := fun hmem => absurd (h _ hmem) (by decide)
  obtain ⟨ts, -, heof, hline⟩ := Token.scan_line r.toList hnewline
  have hblank := (Token.scan_eq_eof_iff r.toList).mpr h
  have hts : ts = [] := by simpa [hblank] using heof
  have hended : Token.ofString (r ++ "\n") = [.newline, .eof] := by
    have hempty : Token.scan [] = [.eof] := Token.scan_of_nil rfl
    rw [Token.ofString, String.toList_append, ← hempty]
    subst hts
    exact hline []
  have hnext : next ⟨[.newline, .eof], 1⟩ = (.ok .blank, ⟨[.eof], 2⟩) := rfl
  rw [Token.ofString, hblank, hended, script_of_blank hnext, script_of_endOfText (next_eof 1),
    script_of_endOfText (next_eof 2)]
  exact ⟨⟨_, rfl⟩, _, rfl⟩

/-- The script of any other line without its end. -/
theorem script_of_unended (hr : '\n' ∉ r.toList) (hother : ¬ ∀ c ∈ r.toList, Token.isBlank c) :
    ∃ fault d, script ⟨Token.ofString r, 1⟩ = .faulty fault d ∧
      (∀ s, (Statement.read (Token.ofString (r ++ "\n"))).1 = .ok s → fault = .malformed) ∧
      ∀ f, (Statement.read (Token.ofString (r ++ "\n"))).1 = .error f → fault = f := by
  obtain ⟨ts, hinner, heof, hline⟩ := Token.scan_line r.toList hr
  have hne : ts ≠ [] := by
    rintro rfl
    exact hother ((Token.scan_eq_eof_iff r.toList).mp heof)
  obtain ⟨fault, left, hread, hfault⟩ := Statement.read_unended hinner hne
  have hnext : next ⟨Token.ofString r, 1⟩ = (.error fault, ⟨left, 1⟩) := by
    simp only [next, Token.ofString, heof, hread]
  have hended : Token.ofString (r ++ "\n") = ts ++ .newline :: Token.scan [] := by
    rw [Token.ofString, String.toList_append]
    exact hline []
  rw [hended]
  exact ⟨fault, ⟨left, 1⟩, script_of_error hnext, hfault _⟩

end Cursor

/-! ## Whole runs -/

namespace Compilation

open Compile

section Append

variable {p q : String} {config : Config} {logTrees : Bool} {d : Cursor}
  (hp : p = "" ∨ ∃ lines, p = lines ++ "\n")
  (hcompleted : (ofText p config {} logTrees).effect.result = .ok .completed)

include hp hcompleted

/-- A remaining text without statements changes nothing. -/
theorem effect_append_of_ends (hscript : Cursor.script ⟨Token.ofString q, 1⟩ = .ends d) :
    (ofText (p ++ q) config {} logTrees).effect.result = .ok .completed ∧
    (ofText (p ++ q) config {} logTrees).effect.state.emitter.table =
      (ofText p config {} logTrees).effect.state.emitter.table ∧
    Event.program (ofText (p ++ q) config {} logTrees).effect.events =
      Event.program (ofText p config {} logTrees).effect.events := by
  obtain ⟨count, hwork⟩ := completed_iff.mp hcompleted
  have halike := workEffect_append hp q config logTrees
  rw [Effect.andThen_of_ok hwork, hscript, Script.shift, loopEffect, List.append_nil] at halike
  have hresult : (ofText (p ++ q) config {} logTrees).effect.result = .ok .completed :=
    completed_iff.mpr ⟨count, halike.result_eq⟩
  have htable : (ofText (p ++ q) config {} logTrees).effect.state.emitter.table =
      (ofText p config {} logTrees).effect.state.emitter.table := by
    rw [state_effect, state_effect]
    exact halike.table_eq
  refine ⟨hresult, htable, ?_⟩
  rw [program_of_completed hresult, program_of_completed hcompleted, htable, halike.events_eq]

/-- A remaining text whose first statement cannot be read only stops the compilation. -/
theorem effect_append_of_faulty {fault : Fault}
    (hscript : Cursor.script ⟨Token.ofString q, 1⟩ = .faulty fault d) :
    (ofText (p ++ q) config {} logTrees).effect.result = .ok (.stopped fault) ∧
    (ofText (p ++ q) config {} logTrees).effect.state.emitter.table =
      (ofText p config {} logTrees).effect.state.emitter.table ∧
    Event.program (ofText (p ++ q) config {} logTrees).effect.events =
      Event.program (workEffect (ofText p config {} logTrees)).events ++ [.exit 1] := by
  obtain ⟨count, hwork⟩ := completed_iff.mp hcompleted
  have halike := workEffect_append hp q config logTrees
  rw [Effect.andThen_of_ok hwork, hscript, Script.shift, loopEffect, List.append_nil] at halike
  have hresult : (ofText (p ++ q) config {} logTrees).effect.result = .ok (.stopped fault) :=
    stopped_iff.mpr halike.result_eq
  refine ⟨hresult, ?_, ?_⟩
  · rw [state_effect, state_effect]
    exact halike.table_eq
  · rw [program_of_stopped hresult, halike.events_eq]

end Append

end Compilation

/-- **A last line without its end.** Let the lines `p` compile. If spaces and tabs are all that
follows, a line end behind them makes no difference. If there is anything else, the compilation
stops: its program is that of `p` up to the closing lines and an exit instruction, it leaves the
variables of `p`, and its fault is the one that the last line has anyway, or else that of its
missing end. -/
theorem run_unended_line (p r : String) (config : Config) (logTrees : Bool)
    (hp : p = "" ∨ ∃ lines, p = lines ++ "\n") (hr : '\n' ∉ r.toList)
    (hcompleted : (Compilation.ofText p config {} logTrees).run.1.result = .ok .completed) :
    let first := (Compilation.ofText p config {} logTrees).run
    let unended := (Compilation.ofText (p ++ r) config {} logTrees).run
    let ended := (Compilation.ofText (p ++ r ++ "\n") config {} logTrees).run
    let reading := (Statement.read (Token.ofString (r ++ "\n"))).1
    ((∀ c ∈ r.toList, c = ' ' ∨ c = '\t') →
      unended.1.text = ended.1.text ∧ unended.1.result = ended.1.result ∧
        unended.2.emitter.table = ended.2.emitter.table) ∧
    ((∃ c ∈ r.toList, c ≠ ' ' ∧ c ≠ '\t') → ∃ body fault,
      first.1.text = body ++ Instruction.lines (Emit.closingProgram first.2.emitter.table) ∧
      unended.1.text = body ++ (Instruction.exit 1).line ∧
      unended.2.emitter.table = first.2.emitter.table ∧
      unended.1.result = .ok (.stopped fault) ∧
      (∀ s, reading = .ok s → fault = .malformed) ∧ ∀ f, reading = .error f → fault = f) := by
  intro first unended ended reading
  have hfirst : (Compilation.ofText p config {} logTrees).Unhindered := ⟨rfl, rfl⟩
  have hunended : (Compilation.ofText (p ++ r) config {} logTrees).Unhindered := ⟨rfl, rfl⟩
  have hended : (Compilation.ofText (p ++ r ++ "\n") config {} logTrees).Unhindered := ⟨rfl, rfl⟩
  rw [Compilation.result_run hfirst] at hcompleted
  constructor
  · intro hblank
    have hblank' : ∀ c ∈ r.toList, Token.isBlank c := by simpa [Token.isBlank] using hblank
    obtain ⟨⟨d, hscript⟩, d', hscript'⟩ := Cursor.script_of_blanks hblank'
    obtain ⟨hresult, htable, hprogram⟩ :=
      Compilation.effect_append_of_ends hp hcompleted hscript
    obtain ⟨hresult', htable', hprogram'⟩ :=
      Compilation.effect_append_of_ends hp hcompleted hscript'
    rw [← String.append_assoc] at hresult' htable' hprogram'
    rw [Compilation.text_run hunended, Compilation.text_run hended,
      Compilation.result_run hunended, Compilation.result_run hended,
      Compilation.table_run hunended, Compilation.table_run hended]
    exact ⟨congrArg Instruction.lines (hprogram.trans hprogram'.symm), hresult.trans hresult'.symm,
      htable.trans htable'.symm⟩
  · rintro ⟨c, hc, hother⟩
    have hother' : ¬ ∀ c ∈ r.toList, Token.isBlank c := by
      intro hblank
      simpa [Token.isBlank, hother] using hblank c hc
    obtain ⟨fault, d, hscript, hfault⟩ := Cursor.script_of_unended hr hother'
    obtain ⟨hresult, htable, hprogram⟩ :=
      Compilation.effect_append_of_faulty hp hcompleted hscript
    refine ⟨Instruction.lines (Event.program
      (Compile.workEffect (.ofText p config {} logTrees)).events), fault, ?_, ?_, ?_, ?_, hfault⟩
    · rw [Compilation.text_run hfirst, Compilation.table_run hfirst,
        Compilation.program_of_completed hcompleted, Instruction.lines_append]
    · rw [Compilation.text_run hunended, hprogram, Instruction.lines_concat]
    · rw [Compilation.table_run hunended, Compilation.table_run hfirst, htable]
    · rw [Compilation.result_run hunended, hresult]

/-- The variable of an unended line is not declared, and its fault is that of the missing end. -/
theorem run_unended_line_assignment :
    (Compilation.ofText "a = 2\n" {} {} false).run.1.result = .ok .completed ∧
    (Compilation.ofText ("a = 2\n" ++ "b = a") {} {} false).run.2.emitter.table =
      (Compilation.ofText "a = 2\n" {} {} false).run.2.emitter.table ∧
    (Compilation.ofText ("a = 2\n" ++ "b = a") {} {} false).run.1.result =
      .ok (.stopped .malformed) := by
  have hcompleted : (Compilation.ofText "a = 2\n" {} {} false).run.1.result = .ok .completed := by
    cbv
  have hreading : (Statement.read (Token.ofString ("b = a" ++ "\n"))).1 =
      .ok (.expr (.assign .set "b" (.var "a"))) := by
    cbv
  have hunended := run_unended_line "a = 2\n" "b = a" {} false (.inr ⟨"a = 2", rfl⟩) (by decide)
    hcompleted
  obtain ⟨_, fault, -, -, htable, hresult, hmalformed, -⟩ := hunended.2 ⟨'b', by decide⟩
  exact ⟨hcompleted, htable, hmalformed _ hreading ▸ hresult⟩

end LineCompiler
