import LineCompiler.Proofs.Places

/-!
# The course of a run

A run opens its program, compiles one statement after the other, and gets so far in its text: to the
end of it, to a statement that cannot be read, or to one that cannot be compiled. The opening may
fail already.

* `Emit.passing` does the part of the work that lies behind a run when it has passed some
  statements.
* `Compile.Course` lists the ways in which the work of a run can go, with all that it does until
  then. `Compile.course_workEffect` says that there are no others.
* `Compilation.StopsAt` tells at which statement a run stops, and why.
-/

namespace LineCompiler

/-! ## Passing statements -/

namespace Emit

/-- Opens a program and compiles some statements, each with its line. -/
def passing (logTrees : Bool) (passed : List (Nat × Expr)) : Emit Unit := do
  opening
  forM passed fun (line, tree) => loggedStatement logTrees line tree

/-- The effect of several statements, one after the other. -/
def loggedEffects (logTrees : Bool) : List (Nat × Expr) → Emitter → Effect Emitter Unit
  | [], e => ⟨.ok (), e, []⟩
  | (line, tree) :: rest, e =>
    (loggedEffect logTrees line tree e).andThen fun _ e => loggedEffects logTrees rest e

def passingEffect (logTrees : Bool) (passed : List (Nat × Expr)) (e : Emitter) :
    Effect Emitter Unit :=
  (openingEffect predeclared.zipIdx e).andThen fun _ e => loggedEffects logTrees passed e

theorem performs_loggedStatements (logTrees : Bool) (passed : List (Nat × Expr)) (e : Emitter) :
    Performs (forM passed fun (line, tree) => loggedStatement logTrees line tree) e
      (loggedEffects logTrees passed e) := by
  induction passed generalizing e with
  | nil => exact Performs.pure () e
  | cons s rest ih => exact (performs_loggedStatement logTrees s.1 s.2 e).bind (fun _ _ => ih _)

theorem performs_passing (logTrees : Bool) (passed : List (Nat × Expr)) (e : Emitter) :
    Performs (passing logTrees passed) e (passingEffect logTrees passed e) :=
  (performs_opening e).bind (fun _ _ => performs_loggedStatements logTrees passed _)

section Logged

variable {tree : Expr} {e : Emitter} (logTree : Bool) (line : Nat)

theorem loggedEffect_of_ok {value : Int32} (h : (statementEffect tree e).result = .ok value) :
    loggedEffect logTree line tree e = ⟨.ok (), (statementEffect tree e).state,
      (if logTree then [.parsed line tree] else []) ++
        ((statementEffect tree e).events ++ [.compiled line value])⟩ := by
  rw [loggedEffect, Effect.andThen_of_ok rfl, Effect.andThen_of_ok h]

theorem loggedEffect_of_error {fault : Fault} (h : (statementEffect tree e).result = .error fault) :
    loggedEffect logTree line tree e = ⟨.error fault, (statementEffect tree e).state,
      (if logTree then [.parsed line tree] else []) ++ (statementEffect tree e).events⟩ := by
  rw [loggedEffect, Effect.andThen_of_ok rfl, Effect.andThen_of_error h]

end Logged

end Emit

/-! ## The ways a run can go -/

namespace Compile

/-- The ways in which the statements of a compilation can go, `done` being the effect of those that
are passed, and `count` the number of those before. -/
inductive Reaches (c : Compilation) (count : Nat) (done : List (Nat × Expr) → Effect Emitter Unit) :
    Effect Compilation Nat → Prop
  /-- All statements up to the end of the text are compiled. -/
  | finished {passed : List (Nat × Expr)} {place d : Cursor}
      (hpasses : c.cursor.Passes passed place) (hdone : (done passed).result = .ok ())
      (hnext : place.next = (.ok .endOfText, d)) :
      Reaches c count done ⟨.ok (count + passed.length),
        { c with cursor := d, line := place.line, emitter := (done passed).state },
        (done passed).events⟩
  /-- A statement cannot be read. -/
  | unread {passed : List (Nat × Expr)} {place d : Cursor} {fault : Fault}
      (hpasses : c.cursor.Passes passed place) (hdone : (done passed).result = .ok ())
      (hnext : place.next = (.error fault, d)) :
      Reaches c count done ⟨.error fault,
        { c with cursor := d, line := place.line, emitter := (done passed).state },
        (done passed).events⟩
  /-- A statement can be read and cannot be compiled. -/
  | uncompiled {passed : List (Nat × Expr)} {place d : Cursor} {tree : Expr} {fault : Fault}
      (hpasses : c.cursor.Passes passed place) (hdone : (done passed).result = .ok ())
      (hnext : place.next = (.ok (.expr tree), d))
      (hfails : (Emit.statementEffect tree (done passed).state).result = .error fault) :
      Reaches c count done ⟨.error fault,
        { c with
          cursor := d, line := place.line
          emitter := (Emit.statementEffect tree (done passed).state).state },
        (done passed).events ++
          (Emit.loggedEffect c.logTrees place.line tree (done passed).state).events⟩

/-- Statements that are passed first, here `front`, only add their events. -/
theorem Reaches.prepend {c d : Compilation} {count : Nat}
    {done rest : List (Nat × Expr) → Effect Emitter Unit} {effect : Effect Compilation Nat}
    (front : List (Nat × Expr)) (events : List Event)
    (h : Reaches d (count + front.length) rest effect)
    (hpasses : ∀ {passed place}, d.cursor.Passes passed place →
      c.cursor.Passes (front ++ passed) place)
    (hdone : ∀ passed, done (front ++ passed) =
      ⟨(rest passed).result, (rest passed).state, events ++ (rest passed).events⟩)
    (hlog : d.logTrees = c.logTrees) :
    Reaches c count done ⟨effect.result, effect.state, events ++ effect.events⟩ := by
  cases h with
  | @finished passed place _ hpassed hresult hend =>
    have hreaches : Reaches c count done _ := .finished (hpasses hpassed)
      ((congrArg Effect.result (hdone passed)).trans hresult) hend
    simpa only [hdone, hlog, List.length_append, Nat.add_assoc] using hreaches
  | @unread passed place _ _ hpassed hresult hend =>
    have hreaches : Reaches c count done _ := .unread (hpasses hpassed)
      ((congrArg Effect.result (hdone passed)).trans hresult) hend
    simpa only [hdone, hlog] using hreaches
  | @uncompiled passed place _ _ _ hpassed hresult hend hfails =>
    have hreaches : Reaches c count done _ := .uncompiled (hpasses hpassed)
      ((congrArg Effect.result (hdone passed)).trans hresult) hend
      (by simpa only [hdone] using hfails)
    simpa only [hdone, hlog, List.append_assoc] using hreaches

theorem reaches_loopEffect (count : Nat) (c : Compilation) :
    Reaches c count (fun passed => Emit.loggedEffects c.logTrees passed c.emitter)
      (loopEffect c.cursor.script count c) := by
  generalize hcursor : c.cursor = cursor
  -- along the statements of the text, as `Cursor.script` lists them
  induction cursor using Cursor.script.induct generalizing count c with
  | case1 cursor d hnext =>
    subst hcursor
    rw [Cursor.script_of_endOfText hnext, loopEffect, Cursor.line_of_next_endOfText hnext]
    exact .finished (.refl _) rfl hnext
  | case2 cursor d hnext hlt ih =>
    subst hcursor
    rw [Cursor.script_of_blank hnext]
    have hrest := ih count { c with cursor := d, line := c.line } rfl
    rw [loopEffect_congr] at hrest
    exact hrest.prepend [] [] (.blank hnext) (fun _ => rfl) rfl
  | case3 cursor tree d hnext hlt ih =>
    subst hcursor
    rw [Cursor.script_of_expr hnext, loopEffect]
    cases hresult : (Emit.statementEffect tree c.emitter).result with
    | ok value =>
      have hlogged := Emit.loggedEffect_of_ok c.logTrees c.cursor.line hresult
      rw [hlogged, lift, Effect.andThen_of_ok rfl]
      refine (ih (count + 1) _ rfl).prepend [(c.cursor.line, tree)] _ (.expr hnext) ?_ rfl
      intro passed
      rw [List.singleton_append, Emit.loggedEffects, hlogged, Effect.andThen_of_ok rfl]
    | error fault =>
      have hlogged := Emit.loggedEffect_of_error c.logTrees c.cursor.line hresult
      have hreaches : Reaches c count
          (fun passed => Emit.loggedEffects c.logTrees passed c.emitter) _ :=
        .uncompiled (.refl _) rfl hnext hresult
      rw [hlogged, lift, Effect.andThen_of_error rfl]
      simpa only [Emit.loggedEffects, hlogged, List.nil_append] using hreaches
  | case4 cursor fault d hnext =>
    subst hcursor
    rw [Cursor.script_of_error hnext, loopEffect, Cursor.line_of_next_error hnext]
    exact .unread (.refl _) rfl hnext

/-- The ways in which the work of a run can go: the opening may fail, and otherwise it is the
statements that decide. -/
inductive Course (c : Compilation) : Effect Compilation Nat → Prop
  | unopened {fault : Fault}
      (h : (Emit.openingEffect Emit.predeclared.zipIdx c.emitter).result = .error fault) :
      Course c ⟨.error fault,
        { c with emitter := (Emit.openingEffect Emit.predeclared.zipIdx c.emitter).state },
        (Emit.openingEffect Emit.predeclared.zipIdx c.emitter).events⟩
  | opened {effect : Effect Compilation Nat}
      (h : Reaches c 0 (fun passed => Emit.passingEffect c.logTrees passed c.emitter) effect) :
      Course c effect

theorem course_workEffect (c : Compilation) : Course c (workEffect c) := by
  rw [workEffect, lift]
  cases hresult : (Emit.openingEffect Emit.predeclared.zipIdx c.emitter).result with
  | ok _ =>
    rw [Effect.andThen_of_ok rfl]
    refine .opened ((reaches_loopEffect 0 _).prepend [] _ id ?_ rfl)
    intro passed
    exact Effect.andThen_of_ok hresult _
  | error fault =>
    rw [Effect.andThen_of_error rfl]
    exact .unopened hresult

/-- However a run goes, its cursor stays in the text. -/
theorem Course.standsIn {c : Compilation} {effect : Effect Compilation Nat} (h : Course c effect)
    {text : List Char} (hc : c.cursor.StandsIn text) : effect.state.cursor.StandsIn text := by
  have hplace {passed : List (Nat × Expr)} {place d : Cursor} {result : Except Fault Statement}
      (hpasses : c.cursor.Passes passed place) (hnext : place.next = (result, d)) :
      d.StandsIn text := by
    have hd := (hpasses.standsIn hc).next
    rwa [hnext] at hd
  cases h with
  | unopened h => exact hc
  | opened h =>
    cases h with
    | finished hpasses _ hnext => exact hplace hpasses hnext
    | unread hpasses _ hnext => exact hplace hpasses hnext
    | uncompiled hpasses _ hnext _ => exact hplace hpasses hnext

end Compile

/-! ## The statement at which a run stops -/

namespace Compilation

/-- The run stops at the statement at `place`. All statements before it are compiled; it cannot be
read itself, or it cannot be compiled. -/
structure StopsAt (c : Compilation) (fault : Fault) (passed : List (Nat × Expr)) (place : Cursor) :
    Prop where
  passes : c.cursor.Passes passed place
  compiled : (c.emitter.run (Emit.passing c.logTrees passed)).1.result = .ok ()
  fails : place.next.1 = .error fault ∨ ∃ tree, place.next.1 = .ok (.expr tree) ∧
    (c.emitter.run (do
      Emit.passing c.logTrees passed
      Emit.statement tree)).1.result = .error fault

variable {c : Compilation} {passed : List (Nat × Expr)} {place d : Cursor} {fault : Fault}

theorem run_passing (h : c.Unhindered) (passed : List (Nat × Expr)) :
    (c.emitter.run (Emit.passing c.logTrees passed)).1.result =
      (Emit.passingEffect c.logTrees passed c.emitter).result ∧
    (c.emitter.run (Emit.passing c.logTrees passed)).1.text = Instruction.lines
      (Event.program (Emit.passingEffect c.logTrees passed c.emitter).events) ∧
    (c.emitter.run (Emit.passing c.logTrees passed)).2.table =
      (Emit.passingEffect c.logTrees passed c.emitter).state.table :=
  Emitter.run_of_unlimited (Emit.performs_passing c.logTrees passed c.emitter) h.1

theorem stopsAt_of_unread (h : c.Unhindered) (hpasses : c.cursor.Passes passed place)
    (hdone : (Emit.passingEffect c.logTrees passed c.emitter).result = .ok ())
    (hnext : place.next = (.error fault, d)) : c.StopsAt fault passed place where
  passes := hpasses
  compiled := (run_passing h passed).1.trans hdone
  fails := .inl (congrArg Prod.fst hnext)

theorem stopsAt_of_uncompiled (h : c.Unhindered) (hpasses : c.cursor.Passes passed place)
    (hdone : (Emit.passingEffect c.logTrees passed c.emitter).result = .ok ()) {tree : Expr}
    (hnext : place.next = (.ok (.expr tree), d))
    (hfails : (Emit.statementEffect tree
      (Emit.passingEffect c.logTrees passed c.emitter).state).result = .error fault) :
    c.StopsAt fault passed place where
  passes := hpasses
  compiled := (run_passing h passed).1.trans hdone
  fails := by
    have hrun := Emitter.run_of_unlimited
      ((Emit.performs_passing c.logTrees passed c.emitter).bind fun _ _ =>
        Emit.performs_statement tree _) h.1
    rw [Effect.andThen_of_ok hdone] at hrun
    exact .inr ⟨tree, congrArg Prod.fst hnext, hrun.1.trans hfails⟩

end Compilation

end LineCompiler
