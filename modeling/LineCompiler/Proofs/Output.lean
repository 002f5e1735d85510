import Mathlib
import LineCompiler.Compilation

/-!
# Output as a stream of events

All that leaves a compilation goes through the sink and the log of its emitter. This module shows
that a step of a compilation sees neither of them: what the step does is fixed by the rest of its
state, and its output is a list of events that is handed on one by one, until the sink refuses an
instruction.

* `Output.deliver` hands a list of events to a sink and a log.
* `Effect` is what a step does: its result, the state it leaves and the events it hands on.
* `Performs step s effect`: from the state `s` and into any output, `step` does what `effect` says.
  It has one rule for each way of building steps (`Performs.bind`, `Performs.silent`, …).
* `Output.deliver_unlimited`, `Output.deliver_of_fits`, `Output.deliver_of_exceeds`: the text that a
  sink takes is the text of the instructions, or as much of it as there is room for.
-/

namespace LineCompiler

/-! ## Programs in a log -/

/-- The text of a program, one instruction a line. -/
def Instruction.lines : List Instruction → String
  | [] => ""
  | i :: rest => i.line ++ lines rest

theorem Instruction.lines_append (p q : List Instruction) :
    lines (p ++ q) = lines p ++ lines q := by
  induction p with
  | nil => rw [List.nil_append, lines, String.empty_append]
  | cons i p ih => rw [List.cons_append, lines, lines, ih, String.append_assoc]

theorem Instruction.lines_concat (p : List Instruction) (i : Instruction) :
    lines (p ++ [i]) = lines p ++ i.line := by
  rw [lines_append]
  exact congrArg _ String.append_empty

namespace Event

/-- The instruction that an event tells of. -/
def instruction? : Event → Option Instruction
  | emit i => some i
  | _ => none

theorem instruction?_eq_some {e : Event} {i : Instruction} :
    e.instruction? = some i ↔ e = emit i := by
  cases e <;> simp [instruction?]

/-- The instructions of a log, in the order in which they were written. -/
def program (events : List Event) : List Instruction := events.filterMap instruction?

@[simp] theorem program_nil : program [] = [] := rfl

@[simp] theorem program_emit (i : Instruction) (events : List Event) :
    program (emit i :: events) = i :: program events := rfl

theorem program_of_silent {e : Event} (h : e.instruction? = none) (events : List Event) :
    program (e :: events) = program events := List.filterMap_cons_none h

@[simp] theorem program_append (l r : List Event) :
    program (l ++ r) = program l ++ program r := List.filterMap_append

@[simp] theorem program_map_emit (p : List Instruction) : program (p.map emit) = p := by
  induction p with
  | nil => rfl
  | cons i p ih => rw [List.map_cons, program_emit, ih]

@[simp] theorem program_declarations (before after : Table) :
    program (declarations before after) = [] := by
  refine List.filterMap_eq_nil_iff.mpr ?_
  intro e he
  obtain ⟨_, -, rfl⟩ := List.mem_map.mp he
  rfl

theorem program_declarations_emit (before after : Table) (i : Instruction) :
    program (declarations before after ++ [emit i]) = [i] := by
  simp

end Event

/-- The instructions that a piece of work wrote. -/
def Trace.program {α : Type} (trace : Trace α) : List Instruction :=
  Event.program trace.log.toList

/-! ## Handing events on -/

/-- What a compilation hands out: text into a sink, and events into a log. -/
structure Output where
  sink : Sink := {}
  log : Array Event := #[]

namespace Output

/-- Logs an event and writes its instruction. Tells whether the sink took all of it. -/
def post (o : Output) (e : Event) : Bool × Output :=
  match e.instruction? with
  | some i => ((o.sink.put i.line).1, ⟨(o.sink.put i.line).2, o.log.push e⟩)
  | none => (true, { o with log := o.log.push e })

/-- Hands events on in turn, up to the first one that the sink does not take. -/
def deliver (o : Output) : List Event → Bool × Output
  | [] => (true, o)
  | e :: rest => if (o.post e).1 then (o.post e).2.deliver rest else (false, (o.post e).2)

@[simp] theorem deliver_singleton (o : Output) (e : Event) : o.deliver [e] = o.post e := by
  cases h : o.post e with
  | mk taken o' => cases taken <;> simp [deliver, h]

theorem deliver_append (o : Output) (l r : List Event) :
    o.deliver (l ++ r) =
      if (o.deliver l).1 then (o.deliver l).2.deliver r else (false, (o.deliver l).2) := by
  induction l generalizing o with
  | nil => rfl
  | cons e l ih =>
    rw [List.cons_append, deliver, deliver]
    split
    · exact ih _
    · rfl

@[simp] theorem flushFails_put (s : Sink) (text : String) :
    (s.put text).2.flushFails = s.flushFails := by
  unfold Sink.put
  split
  · rfl
  · split
    · rfl
    · rfl

@[simp] theorem flushFails_deliver (o : Output) (events : List Event) :
    (o.deliver events).2.sink.flushFails = o.sink.flushFails := by
  have hpost (o : Output) (e : Event) : (o.post e).2.sink.flushFails = o.sink.flushFails := by
    unfold post
    split
    · exact flushFails_put _ _
    · rfl
  induction events generalizing o with
  | nil => rfl
  | cons e events ih =>
    rw [deliver]
    split
    · rw [ih, hpost]
    · exact hpost o e

theorem taken_of_append {o o' : Output} {l r : List Event}
    (h : o.deliver (l ++ r) = (true, o')) :
    ∃ m, o.deliver l = (true, m) ∧ m.deliver r = (true, o') := by
  rw [deliver_append] at h
  split at h
  · rename_i htaken
    exact ⟨_, Prod.ext htaken rfl, h⟩
  · cases h

theorem refused_of_append {o o' : Output} {l r : List Event}
    (h : o.deliver (l ++ r) = (false, o')) :
    o.deliver l = (false, o') ∨ ∃ m, o.deliver l = (true, m) ∧ m.deliver r = (false, o') := by
  rw [deliver_append] at h
  split at h
  · rename_i htaken
    exact .inr ⟨_, Prod.ext htaken rfl, h⟩
  · rename_i hrefused
    cases h
    exact .inl (Prod.ext (Bool.eq_false_iff.mpr hrefused) rfl)

theorem deliver_of_silent {e : Event} (h : e.instruction? = none) (o : Output)
    (rest : List Event) : o.deliver (e :: rest) = deliver ⟨o.sink, o.log.push e⟩ rest := by
  simp [deliver, post, h]

theorem deliver_emit_of_taken {o : Output} {i : Instruction} {sink : Sink}
    (h : o.sink.put i.line = (true, sink)) (rest : List Event) :
    o.deliver (.emit i :: rest) = deliver ⟨sink, o.log.push (.emit i)⟩ rest := by
  simp [deliver, post, Event.instruction?, h]

theorem deliver_emit_of_refused {o : Output} {i : Instruction} {sink : Sink}
    (h : o.sink.put i.line = (false, sink)) (rest : List Event) :
    o.deliver (.emit i :: rest) = (false, ⟨sink, o.log.push (.emit i)⟩) := by
  simp [deliver, post, Event.instruction?, h]

/-- Events without instructions only go into the log. -/
theorem deliver_of_program_nil {events : List Event} (h : Event.program events = [])
    (o : Output) : o.deliver events = (true, ⟨o.sink, o.log ++ events⟩) := by
  induction events generalizing o with
  | nil => simp [deliver]
  | cons e events ih =>
    cases hi : e.instruction? with
    | none =>
      rw [Event.program_of_silent hi] at h
      rw [deliver_of_silent hi, ih h, Array.appendList_cons]
    | some i =>
      obtain rfl := Event.instruction?_eq_some.mp hi
      cases h

/-- What goes into the log are the events up to the first one that the sink does not take. -/
theorem log_deliver (o : Output) (events : List Event) :
    ∃ posted, posted <+: events ∧ (o.deliver events).2.log = o.log ++ posted ∧
      ((o.deliver events).1 = true → posted = events) := by
  have hpost (o : Output) (e : Event) : (o.post e).2.log = o.log.push e := by
    unfold post
    split
    · rfl
    · rfl
  induction events generalizing o with
  | nil => exact ⟨[], List.prefix_refl _, by simp [deliver], fun _ => rfl⟩
  | cons e events ih =>
    rw [deliver]
    split
    · obtain ⟨posted, hprefix, hlog, htaken⟩ := ih (o.post e).2
      refine ⟨e :: posted, List.prefix_cons_inj e |>.mpr hprefix, ?_, fun h => ?_⟩
      · rw [hlog, hpost, Array.appendList_cons]
      · rw [htaken h]
    · refine ⟨[e], ⟨events, rfl⟩, ?_, Bool.noConfusion⟩
      rw [hpost, Array.appendList_cons, Array.appendList_nil]

theorem take_append_of_length_le {first : String} {room : Nat} (h : first.length ≤ room)
    (rest : String) : String.ofList ((first ++ rest).toList.take room) =
      first ++ String.ofList (rest.toList.take (room - first.length)) := by
  have hlength : first.toList.length ≤ room := by rwa [String.length_toList]
  rw [String.toList_append, List.take_append, List.take_of_length_le hlength,
    String.length_toList, String.ofList_append, String.ofList_toList]

/-- A sink without a limit takes every program. -/
theorem deliver_unlimited (flushFails : Bool) (written : String) (log : Array Event)
    (events : List Event) :
    deliver ⟨⟨none, flushFails, written⟩, log⟩ events =
      (true, ⟨⟨none, flushFails, written ++ Instruction.lines (Event.program events)⟩,
        log ++ events⟩) := by
  induction events generalizing written log with
  | nil => simp [deliver, Instruction.lines]
  | cons e events ih =>
    cases hi : e.instruction? with
    | none =>
      rw [deliver_of_silent hi, ih, Event.program_of_silent hi, Array.appendList_cons]
    | some i =>
      obtain rfl := Event.instruction?_eq_some.mp hi
      rw [deliver_emit_of_taken rfl, ih, Event.program_emit, Instruction.lines,
        String.append_assoc, Array.appendList_cons]

theorem put_of_fits {text : String} {room : Nat} (h : text.length ≤ room) (flushFails : Bool)
    (written : String) :
    Sink.put ⟨some room, flushFails, written⟩ text =
      (true, ⟨some (room - text.length), flushFails, written ++ text⟩) :=
  if_pos h

/-- A limited sink takes a program that fits. -/
theorem deliver_of_fits {room : Nat} {events : List Event}
    (hfits : (Instruction.lines (Event.program events)).length ≤ room) (flushFails : Bool)
    (written : String) (log : Array Event) :
    deliver ⟨⟨some room, flushFails, written⟩, log⟩ events =
      (true, ⟨⟨some (room - (Instruction.lines (Event.program events)).length), flushFails,
        written ++ Instruction.lines (Event.program events)⟩, log ++ events⟩) := by
  induction events generalizing room written log with
  | nil => simp [deliver, Instruction.lines]
  | cons e events ih =>
    cases hi : e.instruction? with
    | none =>
      rw [Event.program_of_silent hi] at hfits ⊢
      rw [deliver_of_silent hi, ih hfits, Array.appendList_cons]
    | some i =>
      obtain rfl := Event.instruction?_eq_some.mp hi
      rw [Event.program_emit, Instruction.lines, String.length_append] at hfits ⊢
      have hline : i.line.length ≤ room := by omega
      rw [deliver_emit_of_taken (put_of_fits hline flushFails written), ih (by omega),
        String.append_assoc, Nat.sub_sub, Array.appendList_cons]

/-- A limited sink keeps as much of a longer program as there is room for. What was handed on ends
with the first instruction that does not fit. -/
theorem deliver_of_exceeds {room : Nat} {events : List Event}
    (hexceeds : room < (Instruction.lines (Event.program events)).length) (flushFails : Bool)
    (written : String) (log : Array Event) :
    ∃ before i after, events = before ++ .emit i :: after ∧
      (Instruction.lines (Event.program before)).length ≤ room ∧
      room < (Instruction.lines (Event.program (before ++ [.emit i]))).length ∧
      deliver ⟨⟨some room, flushFails, written⟩, log⟩ events =
        (false, ⟨⟨some 0, flushFails, written ++
          String.ofList ((Instruction.lines (Event.program events)).toList.take room)⟩,
          log ++ (before ++ [.emit i])⟩) := by
  induction events generalizing room written log with
  | nil => exact absurd hexceeds (Nat.not_lt_zero _)
  | cons e events ih =>
    cases hi : e.instruction? with
    | none =>
      rw [Event.program_of_silent hi] at hexceeds
      obtain ⟨before, i, after, rfl, hle, hlt, hdeliver⟩ := ih hexceeds written (log.push e)
      refine ⟨e :: before, i, after, rfl, ?_, ?_, ?_⟩
      · rwa [Event.program_of_silent hi]
      · rwa [List.cons_append, Event.program_of_silent hi]
      · rw [deliver_of_silent hi, hdeliver, Event.program_of_silent hi, List.cons_append,
          Array.appendList_cons]
    | some i =>
      obtain rfl := Event.instruction?_eq_some.mp hi
      rw [Event.program_emit, Instruction.lines, String.length_append] at hexceeds
      by_cases hline : i.line.length ≤ room
      · have hrest : room - i.line.length <
            (Instruction.lines (Event.program events)).length := by omega
        obtain ⟨before, j, after, rfl, hle, hlt, hdeliver⟩ :=
          ih hrest (written ++ i.line) (log.push (.emit i))
        refine ⟨.emit i :: before, j, after, rfl, ?_, ?_, ?_⟩
        · rw [Event.program_emit, Instruction.lines, String.length_append]
          omega
        · rw [List.cons_append, Event.program_emit, Instruction.lines, String.length_append]
          omega
        · rw [deliver_emit_of_taken (put_of_fits hline flushFails written), hdeliver,
            Event.program_emit, Instruction.lines, String.append_assoc,
            take_append_of_length_le hline, List.cons_append, Array.appendList_cons]
      · have hput : (⟨some room, flushFails, written⟩ : Sink).put i.line =
            (false, ⟨some 0, flushFails, written ++ String.ofList (i.line.toList.take room)⟩) :=
          if_neg hline
        refine ⟨[], i, events, rfl, Nat.zero_le _, ?_, ?_⟩
        · simp only [List.nil_append, Event.program_emit, Event.program_nil, Instruction.lines,
            String.append_empty]
          omega
        · rw [deliver_emit_of_refused hput, Event.program_emit, Instruction.lines,
            String.toList_append,
            List.take_append_of_le_length (by rw [String.length_toList]; omega)]
          simp

/-- A sink keeps the beginning of a program, and all of it if it takes all events. -/
theorem written_deliver (o : Output) (events : List Event) :
    ∃ kept lost, Instruction.lines (Event.program events) = kept ++ lost ∧
      (o.deliver events).2.sink.written = o.sink.written ++ kept ∧
      ((o.deliver events).1 = true → lost = "") := by
  obtain ⟨⟨room, flushFails, written⟩, log⟩ := o
  cases room with
  | none =>
    rw [deliver_unlimited]
    exact ⟨_, "", String.append_empty.symm, rfl, fun _ => rfl⟩
  | some room =>
    by_cases hfits : (Instruction.lines (Event.program events)).length ≤ room
    · rw [deliver_of_fits hfits]
      exact ⟨_, "", String.append_empty.symm, rfl, fun _ => rfl⟩
    · obtain ⟨_, _, _, -, -, -, hdeliver⟩ :=
        deliver_of_exceeds (Nat.lt_of_not_le hfits) flushFails written log
      rw [hdeliver]
      refine ⟨_, String.ofList ((Instruction.lines (Event.program events)).toList.drop room), ?_,
        rfl, Bool.noConfusion⟩
      rw [← String.ofList_append, List.take_append_drop, String.ofList_toList]

end Output

/-! ## Steps and their effects -/

/-- A state that an output is a part of. -/
class HasOutput (σ : Type) where
  output : σ → Output
  withOutput : σ → Output → σ
  output_withOutput (s : σ) (o : Output) : output (withOutput s o) = o
  withOutput_withOutput (s : σ) (o o' : Output) : withOutput (withOutput s o) o' = withOutput s o'
  withOutput_output (s : σ) : withOutput s (output s) = s

export HasOutput (output withOutput)

attribute [simp] HasOutput.output_withOutput HasOutput.withOutput_withOutput
  HasOutput.withOutput_output

instance : HasOutput Emitter where
  output e := ⟨e.sink, e.log⟩
  withOutput e o := { e with sink := o.sink, log := o.log }
  output_withOutput _ _ := rfl
  withOutput_withOutput _ _ _ := rfl
  withOutput_output _ := rfl

instance : HasOutput Compilation where
  output c := output c.emitter
  withOutput c o := { c with emitter := withOutput c.emitter o }
  output_withOutput _ _ := rfl
  withOutput_withOutput _ _ _ := rfl
  withOutput_output _ := rfl

section Steps

variable {σ α β : Type} {step : EStateM Fault σ α} {s t : σ}

theorem bind_of_ok {a : α} (h : step s = .ok a t) (next : α → EStateM Fault σ β) :
    (step >>= next) s = next a t := by
  simp only [bind, EStateM.bind, h]

theorem bind_of_error {fault : Fault} (h : step s = .error fault t)
    (next : α → EStateM Fault σ β) : (step >>= next) s = .error fault t := by
  simp only [bind, EStateM.bind, h]

theorem bind_of_eq {step' : EStateM Fault σ α} (h : step s = step' t)
    (next : α → EStateM Fault σ β) : (step >>= next) s = (step' >>= next) t := by
  simp only [bind, EStateM.bind, h]

theorem exists_of_bind_ok {next : α → EStateM Fault σ β} {b : β} {u : σ}
    (h : (step >>= next) s = .ok b u) : ∃ a t, step s = .ok a t ∧ next a t = .ok b u := by
  cases hstep : step s with
  | ok a t =>
    rw [bind_of_ok hstep] at h
    exact ⟨a, t, rfl, h⟩
  | error fault t =>
    rw [bind_of_error hstep] at h
    cases h

/-- What comes behind a step only matters where the step succeeds. -/
theorem bind_congr_of_ok {next next' : α → EStateM Fault σ β}
    (h : ∀ a t, step s = .ok a t → next a t = next' a t) :
    (step >>= next) s = (step >>= next') s := by
  cases hstep : step s with
  | ok a t => rw [bind_of_ok hstep, bind_of_ok hstep, h a t hstep]
  | error fault t => rw [bind_of_error hstep, bind_of_error hstep]

theorem tryCatch_of_ok {a : α} (h : step s = .ok a t) (handler : Fault → EStateM Fault σ α) :
    tryCatch step handler s = .ok a t := by
  simp only [tryCatch, tryCatchThe, MonadExceptOf.tryCatch, EStateM.tryCatch, h]

theorem tryCatch_of_error {fault : Fault} (h : step s = .error fault t)
    (handler : Fault → EStateM Fault σ α) : tryCatch step handler s = handler fault t := by
  simp only [tryCatch, tryCatchThe, MonadExceptOf.tryCatch, EStateM.tryCatch, h,
    EStateM.Backtrackable.restore, EStateM.dummyRestore]

end Steps

/-- What a step does, whatever its output: the result, the state that it leaves, and the events that
it hands on. The output in the state stays as it was. -/
structure Effect (σ α : Type) where
  result : Except Fault α
  state : σ
  events : List Event := []

namespace Effect

variable {σ α β : Type}

/-- The effect of a step followed by another one, which a fault in the first keeps from running. -/
def andThen (effect : Effect σ α) (next : α → σ → Effect σ β) : Effect σ β :=
  match effect.result with
  | .ok a =>
    ⟨(next a effect.state).result, (next a effect.state).state,
      effect.events ++ (next a effect.state).events⟩
  | .error fault => ⟨.error fault, effect.state, effect.events⟩

theorem andThen_of_ok {effect : Effect σ α} {a : α} (h : effect.result = .ok a)
    (next : α → σ → Effect σ β) : effect.andThen next =
      ⟨(next a effect.state).result, (next a effect.state).state,
        effect.events ++ (next a effect.state).events⟩ := by
  rw [andThen, h]

theorem andThen_of_error {effect : Effect σ α} {fault : Fault} (h : effect.result = .error fault)
    (next : α → σ → Effect σ β) :
    effect.andThen next = ⟨.error fault, effect.state, effect.events⟩ := by
  rw [andThen, h]

theorem andThen_assoc {γ : Type} (effect : Effect σ α) (next : α → σ → Effect σ β)
    (last : β → σ → Effect σ γ) :
    (effect.andThen next).andThen last = effect.andThen fun a s => (next a s).andThen last := by
  cases h : effect.result with
  | error fault => rw [andThen_of_error h, andThen_of_error h, andThen_of_error rfl]
  | ok a =>
    rw [andThen_of_ok h, andThen_of_ok h]
    cases hnext : (next a effect.state).result with
    | error fault => rw [andThen_of_error rfl, andThen_of_error hnext]
    | ok b => rw [andThen_of_ok rfl, andThen_of_ok hnext, List.append_assoc]

/-- What holds behind the first step, and behind the second one if it runs, holds at the end. -/
theorem state_andThen {effect : Effect σ α} {next : α → σ → Effect σ β} {P : σ → Prop}
    (h : P effect.state) (hnext : ∀ a, P (next a effect.state).state) :
    P (effect.andThen next).state := by
  cases hresult : effect.result with
  | ok a =>
    rw [andThen_of_ok hresult]
    exact hnext a
  | error fault =>
    rw [andThen_of_error hresult]
    exact h

variable [HasOutput σ]

/-- The end of a run with this effect that has left the output `o`. -/
def into (effect : Effect σ α) (o : Output) : EStateM.Result Fault σ α :=
  match effect.result with
  | .ok a => .ok a (withOutput effect.state o)
  | .error fault => .error fault (withOutput effect.state o)

theorem into_of_ok {effect : Effect σ α} {a : α} (h : effect.result = .ok a) (o : Output) :
    effect.into o = .ok a (withOutput effect.state o) := by
  rw [into, h]

theorem into_of_error {effect : Effect σ α} {fault : Fault} (h : effect.result = .error fault)
    (o : Output) : effect.into o = .error fault (withOutput effect.state o) := by
  rw [into, h]

end Effect

section Effects

variable {σ α β : Type} [HasOutput σ]

/-- From the state `s`, and into any output, the step has this effect: if the output takes all
events, the step ends as the effect says, and otherwise it ends where the sink refused one. -/
structure Performs (step : EStateM Fault σ α) (s : σ) (effect : Effect σ α) : Prop where
  reported : effect.result ≠ .error .sinkFailed
  kept : output effect.state = output s
  taken : ∀ {o o' : Output}, o.deliver effect.events = (true, o') →
    step (withOutput s o) = effect.into o'
  refused : ∀ {o o' : Output}, o.deliver effect.events = (false, o') →
    ∃ t, step (withOutput s o) = .error .sinkFailed (withOutput t o')

namespace Performs

variable {step : EStateM Fault σ α} {s : σ} {effect : Effect σ α}

/-- A step that leaves the output alone. -/
theorem silent {result : Except Fault α} {t : σ} (hreported : result ≠ .error .sinkFailed)
    (hkept : output t = output s)
    (h : ∀ o, step (withOutput s o) = (⟨result, t, []⟩ : Effect σ α).into o) :
    Performs step s ⟨result, t, []⟩ where
  reported := hreported
  kept := hkept
  taken := by
    rintro o o' hdeliver
    cases hdeliver
    exact h o
  refused := by
    rintro o o' hdeliver
    cases hdeliver

protected theorem pure (a : α) (s : σ) : Performs (pure a : EStateM Fault σ α) s ⟨.ok a, s, []⟩ :=
  silent (by simp) rfl (fun _ => rfl)

protected theorem modify {f : σ → σ}
    (hf : ∀ s o, f (withOutput s o) = withOutput (f s) o) (s : σ) :
    Performs (modify f : EStateM Fault σ Unit) s ⟨.ok (), f s, []⟩ := by
  refine silent (by simp) ?_ (fun o => congrArg (EStateM.Result.ok ()) (hf s o))
  have hkept := congrArg output (hf s (output s))
  rwa [HasOutput.withOutput_output, HasOutput.output_withOutput] at hkept

theorem of_eq {step' : EStateM Fault σ α} (h : Performs step' s effect)
    (heq : ∀ o, step (withOutput s o) = step' (withOutput s o)) : Performs step s effect where
  reported := h.reported
  kept := h.kept
  taken hdeliver := (heq _).trans (h.taken hdeliver)
  refused hdeliver := heq _ ▸ h.refused hdeliver

/-- A step that succeeds has had all its events taken. -/
theorem of_ok (h : Performs step s effect) {o : Output} {a : α} {t : σ}
    (hok : step (withOutput s o) = .ok a t) :
    effect.result = .ok a ∧ ∃ o', o.deliver effect.events = (true, o') ∧
      t = withOutput effect.state o' := by
  obtain ⟨taken, o', hdeliver⟩ : ∃ taken o', o.deliver effect.events = (taken, o') := ⟨_, _, rfl⟩
  cases taken with
  | false =>
    obtain ⟨u, hrefused⟩ := h.refused hdeliver
    rw [hrefused] at hok
    cases hok
  | true =>
    have htaken := h.taken hdeliver
    rw [hok] at htaken
    cases hresult : effect.result with
    | ok b =>
      rw [Effect.into_of_ok hresult] at htaken
      cases htaken
      exact ⟨rfl, o', hdeliver, rfl⟩
    | error fault =>
      rw [Effect.into_of_error hresult] at htaken
      cases htaken

protected theorem bind {next : α → EStateM Fault σ β} {effects : α → σ → Effect σ β}
    (h : Performs step s effect)
    (hnext : ∀ a, effect.result = .ok a →
      Performs (next a) effect.state (effects a effect.state)) :
    Performs (step >>= next) s (effect.andThen effects) := by
  cases hresult : effect.result with
  | error fault =>
    rw [Effect.andThen_of_error hresult]
    refine ⟨by simpa [hresult] using h.reported, h.kept, ?_, ?_⟩
    · intro o o' hdeliver
      exact bind_of_error ((h.taken hdeliver).trans (Effect.into_of_error hresult o')) next
    · intro o o' hdeliver
      obtain ⟨t, ht⟩ := h.refused hdeliver
      exact ⟨t, bind_of_error ht next⟩
  | ok a =>
    have hnext := hnext a hresult
    have hstep {o m : Output} (htaken : o.deliver effect.events = (true, m)) :
        (step >>= next) (withOutput s o) = next a (withOutput effect.state m) :=
      bind_of_ok ((h.taken htaken).trans (Effect.into_of_ok hresult m)) next
    rw [Effect.andThen_of_ok hresult]
    refine ⟨hnext.reported, hnext.kept.trans h.kept, ?_, ?_⟩
    · intro o o' hdeliver
      obtain ⟨m, htaken, hrest⟩ := Output.taken_of_append hdeliver
      exact (hstep htaken).trans (hnext.taken hrest)
    · intro o o' hdeliver
      rcases Output.refused_of_append hdeliver with hrefused | ⟨m, htaken, hrest⟩
      · obtain ⟨t, ht⟩ := h.refused hrefused
        exact ⟨t, bind_of_error ht next⟩
      · obtain ⟨t, ht⟩ := hnext.refused hrest
        exact ⟨t, (hstep htaken).trans ht⟩

theorem bind_ok {next : α → EStateM Fault σ β} {a : α} {t u : σ} {result : Except Fault β}
    {events events' : List Event} (h : Performs step s ⟨.ok a, t, events⟩)
    (hnext : Performs (next a) t ⟨result, u, events'⟩) :
    Performs (step >>= next) s ⟨result, u, events ++ events'⟩ := by
  have hbind : Performs (step >>= next) s
      ((⟨.ok a, t, events⟩ : Effect σ α).andThen fun _ _ => ⟨result, u, events'⟩) := by
    refine h.bind ?_
    rintro _ ⟨⟩
    exact hnext
  exact hbind

theorem bind_silent {next : α → EStateM Fault σ β} {a : α} {t : σ} {effect : Effect σ β}
    (h : Performs step s ⟨.ok a, t, []⟩) (hnext : Performs (next a) t effect) :
    Performs (step >>= next) s effect := h.bind_ok hnext

theorem bind_error {next : α → EStateM Fault σ β} {fault : Fault} {t : σ} {events : List Event}
    (h : Performs step s ⟨.error fault, t, events⟩) :
    Performs (step >>= next) s ⟨.error fault, t, events⟩ := by
  have hbind : Performs (step >>= next) s
      ((⟨.error fault, t, events⟩ : Effect σ α).andThen fun _ u => ⟨.error fault, u, []⟩) := by
    refine h.bind ?_
    rintro _ ⟨⟩
  exact hbind

end Performs

end Effects

end LineCompiler
