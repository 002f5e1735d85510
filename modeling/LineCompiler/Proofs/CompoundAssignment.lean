import LineCompiler.Proofs.Composition
import LineCompiler.Proofs.EarliestFault
import LineCompiler.Proofs.LastLine
import LineCompiler.Proofs.Walks

/-!
# Assignments that read their variable

`x += e` is short for `x = x + e`, and `++x` for `x += 1`. The first is a matter of trees: both are
computed by the same actions, wherever they stand in a tree. The second is a matter of reading: both
spellings are read as the same tree, so that all that follows is the same.

* `Expr.Expands`: any number of compound assignments written out. `Expr.Expands.actions_eq` says
  that the actions stay.
* `Token.Respelled`: the tokens of two texts that differ in how one variable is stepped.
  `Statement.read_respelled` is the step over one statement, and `Cursor.script_respelled` follows
  the statements to the end of the text.
* `compound_assignment_expanded` puts both together for statements and for whole runs.
-/

namespace LineCompiler

/-! ## Compound assignments in a tree -/

namespace Expr

/-- The second tree is the first one with any number of its compound assignments written out, at any
depth. -/
inductive Expands : Expr → Expr → Prop
  | num (value : Int32) : Expands (num value) (num value)
  | var (name : String) : Expands (var name) (var name)
  | binary (op : BinOp) {left left' right right' : Expr} (hleft : Expands left left')
      (hright : Expands right right') : Expands (binary op left right) (binary op left' right')
  | assign (op : AssignOp) (name : String) {right right' : Expr} (hright : Expands right right') :
      Expands (assign op name right) (assign op name right')
  | add (name : String) {right right' : Expr} (hright : Expands right right') :
      Expands (assign .add name right) (assign .set name (binary .add (var name) right'))
  | sub (name : String) {right right' : Expr} (hright : Expands right right') :
      Expands (assign .sub name right) (assign .set name (binary .sub (var name) right'))

/-- Writing a compound assignment out changes nothing about what is done. -/
theorem Expands.actions_eq {e e' : Expr} (h : e.Expands e') (rest : List Action) :
    e.actions rest = e'.actions rest := by
  induction h generalizing rest with
  | num | var => rfl
  | binary op _ _ ihl ihr => simp only [actions, ihl, ihr]
  | assign op name _ ih => simp only [actions, ih]
  | add name _ ih | sub name _ ih =>
    -- the variable is loaded by the assignment on one side and as an operand on the other
    show Action.load name :: actions _ _ = Action.load name :: actions _ _
    rw [ih]

end Expr

theorem Emit.statement_of_expands {e e' : Expr} (h : e.Expands e') :
    statement e = statement e' := by
  rw [statement, statement, h.actions_eq]

/-- The walk along left operands takes other ways for the two, and comes to the same end. -/
theorem Emit.chained_of_expands {e e' : Expr} (h : e.Expands e') : chained e = chained e' := by
  rw [chained_eq_expr, chained_eq_expr, ← unrolled_eq_expr, ← unrolled_eq_expr, unrolled, unrolled,
    h.actions_eq]

/-! ## Two spellings of a step -/

namespace Token

/-- A variable stepped, and the assignment that does the same. -/
inductive SameStep : List Token → List Token → Prop
  | increment (name : String) :
      SameStep [step .increment, ident name] [ident name, assign .add, num "1"]
  | decrement (name : String) :
      SameStep [step .decrement, ident name] [ident name, assign .sub, num "1"]

theorem SameStep.exists_eq {short long : List Token} (h : SameStep short long) :
    ∃ op name, short = [step op, ident name] ∧
      long = [ident name, assign op.assignOp, num "1"] := by
  cases h with
  | increment name => exact ⟨.increment, name, rfl, rfl⟩
  | decrement name => exact ⟨.decrement, name, rfl, rfl⟩

/-- A whole expression can begin behind these tokens. -/
def OpensExpression (before : List Token) : Prop :=
  ∀ t ∈ before.getLast?, t = newline ∨ t = openParen ∨ ∃ op, t = assign op

/-- A whole expression can end in front of these tokens. -/
def ClosesExpression (after : List Token) : Prop :=
  ∀ t ∈ after.head?, t = newline ∨ t = closeParen ∨ t = eof

/-- Between these tokens, a stepped variable can be written in the other way. As an operand it needs
parentheses then; as a whole expression it does not. -/
inductive Replaces (before after : List Token) : List Token → List Token → Prop
  | operand {short long : List Token} (h : SameStep short long) :
      Replaces before after short (openParen :: (long ++ [closeParen]))
  | whole {short long : List Token} (h : SameStep short long) (hbefore : OpensExpression before)
      (hafter : ClosesExpression after) : Replaces before after short long

/-- The same tokens, up to one stepped variable that is written in the other way. -/
inductive Respelled : List Token → List Token → Prop
  | same (ts : List Token) : Respelled ts ts
  | place {before after short long : List Token} (h : Replaces before after short long) :
      Respelled (before ++ (short ++ after)) (before ++ (long ++ after))

variable {before after short long : List Token}

theorem OpensExpression.suffix {more : List Token} (h : OpensExpression before)
    (hsuffix : more <:+ before) : OpensExpression more := by
  intro t ht
  obtain ⟨front, rfl⟩ := hsuffix
  apply h t
  rw [List.getLast?_append, ht]
  rfl

theorem Replaces.suffix {more : List Token} (h : Replaces before after short long)
    (hsuffix : more <:+ before) : Replaces more after short long := by
  cases h with
  | operand h => exact .operand h
  | whole h hbefore hafter => exact .whole h (hbefore.suffix hsuffix) hafter

/-- Neither spelling begins with the end of a line. -/
theorem Replaces.inner (h : Replaces before after short long) :
    ∃ t ts u us, short = t :: ts ∧ long = u :: us ∧ t.Inner ∧ u.Inner := by
  cases h with
  | operand h =>
    obtain ⟨op, name, rfl, rfl⟩ := h.exists_eq
    exact ⟨_, _, _, _, rfl, rfl, by simp [Inner], by simp [Inner]⟩
  | whole h =>
    obtain ⟨op, name, rfl, rfl⟩ := h.exists_eq
    exact ⟨_, _, _, _, rfl, rfl, by simp [Inner], by simp [Inner]⟩

end Token

/-! ## Reading the two spellings -/

/-- Two statements read with the same result, and with the same tokens left up to one stepped
variable. At a fault and at the end of the text, what is left does not matter. -/
structure ReadAlike (a b : Except Fault Statement × List Token) : Prop where
  result_eq : a.1 = b.1
  respelled : ∀ s, a.1 = .ok s → s ≠ .endOfText → Token.Respelled a.2 b.2

namespace ReadAlike

theorem of_eq {a b : Except Fault Statement × List Token} (h : a = b) : ReadAlike a b := by
  subst h
  exact ⟨rfl, fun _ _ _ => .same _⟩

theorem of_error (fault : Fault) (ts us : List Token) :
    ReadAlike (.error fault, ts) (.error fault, us) := by
  refine ⟨rfl, ?_⟩
  rintro s ⟨⟩

end ReadAlike

namespace Pending

/-- What a statement is read as that goes on with these tokens. -/
def outcome (p : Pending) (tokens : List Token) : Except Fault Statement × List Token :=
  match p.advance tokens with
  | (q, .newline :: rest) =>
    match q.complete? with
    | some e => (.ok (.expr e), rest)
    | none => (.error q.fault, .newline :: rest)
  | (q, rest) => (.error q.fault, rest)

theorem outcome_of_reads {p q : Pending} {ts : List Token} (h : p.reads ts = some q)
    (rest : List Token) : p.outcome (ts ++ rest) = q.outcome rest := by
  rw [outcome, advance_of_reads h, outcome]

theorem outcome_of_next?_none {p : Pending} {token : Token} (h : p.next? token = none)
    (hline : token ≠ .newline) (rest : List Token) :
    p.outcome (token :: rest) = (.error p.fault, token :: rest) := by
  rw [outcome, advance, h]
  cases token with
  | newline => exact absurd rfl hline
  | _ => rfl

theorem outcome_newline (p : Pending) (rest : List Token) :
    p.outcome (.newline :: rest) =
      match p.complete? with
      | some e => (.ok (.expr e), rest)
      | none => (.error p.fault, .newline :: rest) := by
  rw [outcome, advance_newline]

/-- Tokens are read to their end, or what becomes of the statement is settled among them. -/
theorem reads_or_outcome (p : Pending) (before : List Token) :
    (∃ q, p.reads before = some q) ∨
      ∃ result more, more <:+ before ∧
        ∀ rest, p.outcome (before ++ rest) = (result, more ++ rest) := by
  obtain ⟨q, unread, hadvance⟩ : ∃ q unread, p.advance before = (q, unread) := ⟨_, _, rfl⟩
  obtain ⟨consumed, rfl, hreads⟩ := exists_reads_of_advance hadvance
  cases unread with
  | nil =>
    left
    rw [List.append_nil]
    exact ⟨q, hreads⟩
  | cons token more =>
    right
    have hnext := next?_of_advance hadvance
    have houtcome (rest : List Token) :
        p.outcome (consumed ++ token :: more ++ rest) = q.outcome (token :: (more ++ rest)) := by
      rw [List.append_assoc, outcome_of_reads hreads, List.cons_append]
    by_cases htoken : token = .newline
    · subst htoken
      simp only [houtcome, outcome_newline]
      cases q.complete? with
      | some e =>
        exact ⟨.ok (.expr e), more, ⟨consumed ++ [.newline], by simp⟩, fun _ => rfl⟩
      | none =>
        exact ⟨.error q.fault, .newline :: more, List.suffix_append _ _, fun _ => rfl⟩
    · refine ⟨.error q.fault, token :: more, List.suffix_append _ _, fun rest => ?_⟩
      rw [houtcome, outcome_of_next?_none hnext htoken, List.cons_append]

open Token

variable {before after short long : List Token}

/-- In parentheses the long spelling is an operand just as the short one is. -/
theorem outcome_operand (h : SameStep short long) (p : Pending) :
    ReadAlike (p.outcome (short ++ after))
      (p.outcome (.openParen :: (long ++ [.closeParen]) ++ after)) := by
  obtain ⟨op, name, rfl, rfl⟩ := h.exists_eq
  obtain ⟨frames, expecting⟩ := p
  cases expecting with
  | operand =>
    have hshort : reads ⟨frames, .operand⟩ [.step op, .ident name] =
        some ⟨frames, .operator (.stepped op.assignOp name)⟩ := rfl
    have hlong : reads ⟨frames, .operand⟩
        (.openParen :: ([.ident name, .assign op.assignOp, .num "1"] ++ [.closeParen])) =
        some ⟨frames, .operator (.stepped op.assignOp name)⟩ := rfl
    apply ReadAlike.of_eq
    rw [outcome_of_reads hshort, outcome_of_reads hlong]
  | stepTarget | operator =>
    -- no operand can begin here, in whatever spelling
    simp only [List.cons_append]
    rw [outcome_of_next?_none (show next? _ (.step op) = none from rfl) (by simp),
      outcome_of_next?_none (show next? _ .openParen = none from rfl) (by simp)]
    exact .of_error _ _ _

/-- A whole expression can begin here: no operator waits for its right operand. -/
def AtStart (p : Pending) : Prop :=
  p.expecting = .operand ∧ ∀ e, Frame.close 0 e p.frames = (e, p.frames)

theorem atStart_of_next? {p q : Pending} {token : Token} (h : p.next? token = some q)
    (htoken : token = .openParen ∨ ∃ op, token = .assign op) : q.AtStart := by
  obtain ⟨frames, expecting⟩ := p
  rcases htoken with rfl | ⟨op, rfl⟩
  · cases expecting with
    | operand =>
      cases h
      exact ⟨rfl, fun _ => rfl⟩
    | stepTarget | operator => cases h
  · cases expecting with
    | operand | stepTarget => cases h
    | operator e =>
      change extend? frames e (.assign op) = some q at h
      rw [extend?] at h
      split at h
      · cases h
        exact ⟨rfl, fun _ => rfl⟩
      · cases h

theorem atStart_of_reads {p : Pending} (h : start.reads before = some p)
    (hbefore : OpensExpression before) : p.AtStart := by
  rcases List.eq_nil_or_concat before with rfl | ⟨init, last, rfl⟩
  · cases h
    exact ⟨rfl, fun _ => rfl⟩
  · rw [List.concat_eq_append] at h hbefore
    rw [reads_append] at h
    obtain ⟨q, -, hlast⟩ := Option.bind_eq_some_iff.mp h
    obtain ⟨r, hnext, hnil⟩ := Option.bind_eq_some_iff.mp hlast
    cases hnil
    rcases hbefore last (by simp) with rfl | hopens
    · rw [next?_newline] at hnext
      cases hnext
    · exact atStart_of_next? hnext hopens

/-- As a whole expression the long spelling needs no parentheses. -/
theorem outcome_whole (h : SameStep short long) (hafter : ClosesExpression after) {p : Pending}
    (hp : p.AtStart) : ReadAlike (p.outcome (short ++ after)) (p.outcome (long ++ after)) := by
  obtain ⟨op, name, rfl, rfl⟩ := h.exists_eq
  obtain ⟨frames, expecting⟩ := p
  obtain ⟨rfl, hclose⟩ := hp
  have hshort : reads ⟨frames, .operand⟩ [.step op, .ident name] =
      some ⟨frames, .operator (.stepped op.assignOp name)⟩ := rfl
  have hlong : reads ⟨frames, .operand⟩ [.ident name, .assign op.assignOp, .num "1"] =
      some ⟨.assign op.assignOp name :: frames, .operator (.num 1)⟩ := by
    have hassign : extend? frames (.var name) (.assign op.assignOp) =
        some ⟨.assign op.assignOp name :: frames, .operand⟩ := by
      rw [extend?, hclose]
    change (extend? frames (.var name) (.assign op.assignOp)).bind (reads · [.num "1"]) = _
    rw [hassign]
    rfl
  rw [outcome_of_reads hshort, outcome_of_reads hlong]
  -- the assignment is still open in one of them, which no token that may follow can tell
  have hfault : fault ⟨.assign op.assignOp name :: frames, .operator (.num 1)⟩ =
      fault ⟨frames, .operator (.stepped op.assignOp name)⟩ := by
    simp [fault]
  cases after with
  | nil =>
    apply ReadAlike.of_eq
    exact congrArg (fun f => (Except.error f, [])) hfault.symm
  | cons token rest =>
    apply ReadAlike.of_eq
    rcases hafter token rfl with rfl | rfl | rfl
    · rw [outcome_newline, outcome_newline, hfault]
      rfl
    · have hnext : next? ⟨.assign op.assignOp name :: frames, .operator (.num 1)⟩ .closeParen =
          next? ⟨frames, .operator (.stepped op.assignOp name)⟩ .closeParen := rfl
      rw [outcome, outcome, advance, advance, hnext]
      cases next? ⟨frames, .operator (.stepped op.assignOp name)⟩ .closeParen with
      | some q => rfl
      | none => exact congrArg (fun f => (Except.error f, .closeParen :: rest)) hfault.symm
    · rw [outcome_of_next?_none (next?_eof _) (by simp),
        outcome_of_next?_none (next?_eof _) (by simp), hfault]

theorem outcome_respelled (h : Replaces before after short long) :
    ReadAlike (start.outcome (before ++ (short ++ after)))
      (start.outcome (before ++ (long ++ after))) := by
  rcases start.reads_or_outcome before with ⟨p, hreads⟩ | ⟨result, more, hsuffix, houtcome⟩
  · rw [outcome_of_reads hreads, outcome_of_reads hreads]
    cases h with
    | operand h => exact outcome_operand h p
    | whole h hbefore hafter => exact outcome_whole h hafter (atStart_of_reads hreads hbefore)
  · -- the statement ends before the variable is stepped
    rw [houtcome, houtcome]
    exact ⟨rfl, fun _ _ _ => .place (h.suffix hsuffix)⟩

end Pending

namespace Statement

open Token

/-- On a line of its own, a stepped variable is read as the same tree in both spellings. -/
theorem read_sameStep {short long : List Token} (h : SameStep short long) :
    ∃ tree, ∀ rest, read (short ++ .newline :: rest) = (.ok (.expr tree), rest) ∧
      read (long ++ .newline :: rest) = (.ok (.expr tree), rest) := by
  obtain ⟨op, name, rfl, rfl⟩ := h.exists_eq
  refine ⟨.stepped op.assignOp name, fun rest => ⟨?_, ?_⟩⟩
  · exact read_eq_expr_iff.mpr ⟨_, _, rfl, rfl, rfl⟩
  · exact read_eq_expr_iff.mpr ⟨_, _, rfl, rfl, rfl⟩

theorem read_eq_outcome {token : Token} (h : token.Inner) (rest : List Token) :
    read (token :: rest) = Pending.start.outcome (token :: rest) := read_of_inner h rest

/-- A statement is read in the same way in both spellings, and what follows it is again the same up
to the spelling. -/
theorem read_respelled {ts us : List Token} (h : Respelled ts us) :
    ReadAlike (read ts) (read us) := by
  cases h with
  | same => exact .of_eq rfl
  | @place before after short long h =>
    have halike := Pending.outcome_respelled h
    cases before with
    | nil =>
      obtain ⟨t, shorts, u, longs, rfl, rfl, ht, hu⟩ := h.inner
      simp only [List.nil_append, List.cons_append] at halike ⊢
      rw [read_eq_outcome ht, read_eq_outcome hu]
      exact halike
    | cons first before =>
      simp only [List.cons_append] at halike ⊢
      cases first with
      | newline => exact ⟨rfl, fun _ _ _ => .place (h.suffix (List.suffix_cons _ _))⟩
      | eof =>
        refine ⟨rfl, ?_⟩
        rintro s ⟨⟩ hs
        exact absurd rfl hs
      | _ =>
        rw [read_eq_outcome (by simp [Token.Inner]), read_eq_outcome (by simp [Token.Inner])]
        exact halike

end Statement

/-! ## Whole texts -/

/-- The script without the places in the text. -/
def Script.bare : Script → Script
  | .ends cursor => .ends ⟨[], cursor.line⟩
  | .faulty fault cursor => .faulty fault ⟨[], cursor.line⟩
  | .statement line tree cursor rest => .statement line tree ⟨[], cursor.line⟩ rest.bare

namespace Cursor

theorem next_respelled {c : Cursor} {us : List Token} (h : Token.Respelled c.tokens us)
    {result : Except Fault Statement} {d : Cursor} (hnext : c.next = (result, d)) :
    ∃ vs, Cursor.next ⟨us, c.line⟩ = (result, ⟨vs, d.line⟩) ∧
      ∀ s, result = .ok s → s ≠ .endOfText → Token.Respelled d.tokens vs := by
  have halike := Statement.read_respelled h
  obtain ⟨read, ts, hread⟩ : ∃ read ts, Statement.read c.tokens = (read, ts) := ⟨_, _, rfl⟩
  obtain ⟨read', vs, hread'⟩ : ∃ read vs, Statement.read us = (read, vs) := ⟨_, _, rfl⟩
  rw [hread, hread'] at halike
  obtain ⟨rfl, hrest⟩ := halike
  rw [next, hread] at hnext
  rw [next, hread']
  cases read with
  | error fault =>
    cases hnext
    exact ⟨vs, rfl, hrest⟩
  | ok s =>
    cases s with
    | endOfText | blank | expr =>
      cases hnext
      exact ⟨vs, rfl, hrest⟩

/-- Both spellings of a text have the same statements on the same lines. -/
theorem script_respelled {c : Cursor} {us : List Token} (h : Token.Respelled c.tokens us) :
    (Cursor.script ⟨us, c.line⟩).bare = c.script.bare := by
  induction c using Cursor.script.induct generalizing us with
  | case1 c d hnext =>
    obtain ⟨vs, hnext', -⟩ := next_respelled h hnext
    rw [script_of_endOfText hnext, script_of_endOfText hnext']
    rfl
  | case2 c d hnext hlt ih =>
    obtain ⟨vs, hnext', hrest⟩ := next_respelled h hnext
    rw [script_of_blank hnext, script_of_blank hnext']
    exact ih (hrest _ rfl Statement.noConfusion)
  | case3 c tree d hnext hlt ih =>
    obtain ⟨vs, hnext', hrest⟩ := next_respelled h hnext
    rw [script_of_expr hnext, script_of_expr hnext', Script.bare, Script.bare,
      ih (hrest _ rfl Statement.noConfusion)]
  | case4 c fault d hnext =>
    obtain ⟨vs, hnext', -⟩ := next_respelled h hnext
    rw [script_of_error hnext, script_of_error hnext']
    rfl

end Cursor

namespace Compile

/-- The places in the text do not matter to what the statements do. -/
theorem loopEffect_bare (script : Script) (count : Nat) (c : Compilation) :
    Alike (loopEffect script count c) (loopEffect script.bare count c) := by
  induction script generalizing count c with
  | ends | faulty => exact ⟨rfl, rfl, rfl⟩
  | statement line tree cursor rest ih =>
    rw [Script.bare, loopEffect, loopEffect]
    refine Alike.andThen ⟨rfl, rfl, rfl⟩ fun _ _ => ?_
    exact (ih (count + 1) _).trans (loopEffect_alike (by rfl) (by rfl) _ _)

theorem loopEffect_respelled {ts us : List Token} (h : Token.Respelled ts us) (n count : Nat)
    (c : Compilation) :
    Alike (loopEffect (Cursor.script ⟨us, n⟩) count c)
      (loopEffect (Cursor.script ⟨ts, n⟩) count c) := by
  have hscript : (Cursor.script ⟨us, n⟩).bare = (Cursor.script ⟨ts, n⟩).bare :=
    Cursor.script_respelled (c := ⟨ts, n⟩) h
  have hus := loopEffect_bare (Cursor.script ⟨us, n⟩) count c
  rw [hscript] at hus
  exact hus.trans (loopEffect_bare (Cursor.script ⟨ts, n⟩) count c).symm

theorem workEffect_respelled {ts us : List Token} (h : Token.Respelled ts us) (n : Nat)
    (c : Compilation) :
    Alike (workEffect { c with cursor := ⟨us, n⟩ }) (workEffect { c with cursor := ⟨ts, n⟩ }) := by
  rw [workEffect, workEffect]
  refine Alike.andThen ⟨rfl, rfl, rfl⟩ fun _ _ => ?_
  exact (loopEffect_respelled h n 0 _).trans (loopEffect_alike (by rfl) (by rfl) _ _)

end Compile

/-- Both spellings of a text have the same run. -/
theorem run_respelled {text text' : String}
    (h : Token.Respelled (Token.ofString text) (Token.ofString text')) (config : Config)
    (logTrees : Bool) :
    (Compilation.ofText text' config {} logTrees).run.1 =
        (Compilation.ofText text config {} logTrees).run.1 ∧
      (Compilation.ofText text' config {} logTrees).run.2.emitter.table =
        (Compilation.ofText text config {} logTrees).run.2.emitter.table := by
  have halike : Alike (Compilation.ofText text' config {} logTrees).effect
      (Compilation.ofText text config {} logTrees).effect :=
    (Compile.workEffect_respelled h 1 (.ofText text config {} logTrees)).ending_closed
  rw [Compilation.run_of_unhindered ⟨rfl, rfl⟩, Compilation.run_of_unhindered ⟨rfl, rfl⟩,
    halike.result_eq, halike.events_eq]
  exact ⟨rfl, halike.table_eq⟩

/-- **Compound assignments and steps are abbreviations.** Writing out any number of compound
assignments in a tree, at any depth, changes nothing about what its statement does to an emitter:
not what it writes, not how it ends and not which variables it leaves. Both ways to walk a tree
agree in this. A stepped variable is read as the tree of the assignment of 1, and a text that has
the one spelling in place of the other, as an operand in parentheses or as a whole expression
without, is read and compiled in the same way. -/
theorem compound_assignment_expanded :
    (∀ e e' : Expr, e.Expands e' → ∀ s : Emitter,
      Emit.statement e s = Emit.statement e' s ∧ Emit.chained e s = Emit.chained e' s) ∧
    (∀ short long, Token.SameStep short long →
      ∃ tree, ∀ rest, Statement.read (short ++ .newline :: rest) = (.ok (.expr tree), rest) ∧
        Statement.read (long ++ .newline :: rest) = (.ok (.expr tree), rest)) ∧
    (∀ ts us, Token.Respelled ts us → (Statement.read ts).1 = (Statement.read us).1) ∧
    ∀ text text', Token.Respelled (Token.ofString text) (Token.ofString text') →
      ∀ (config : Config) (logTrees : Bool),
        (Compilation.ofText text' config {} logTrees).run.1 =
            (Compilation.ofText text config {} logTrees).run.1 ∧
          (Compilation.ofText text' config {} logTrees).run.2.emitter.table =
            (Compilation.ofText text config {} logTrees).run.2.emitter.table := by
  refine ⟨fun e e' h s => ⟨?_, ?_⟩, fun _ _ h => Statement.read_sameStep h,
    fun _ _ h => (Statement.read_respelled h).result_eq, fun _ _ h => run_respelled h⟩
  · rw [Emit.statement_of_expands h]
  · rw [Emit.chained_of_expands h]

/-- A compound assignment inside another one of the same variable, both written out, and the three
ways to step a variable inside an assignment. -/
theorem compound_assignment_expanded_same_variable :
    Emit.statement (.assign .sub "x" (.assign .add "x" (.num 1))) { table := {} } =
        Emit.statement (.assign .set "x" (.binary .sub (.var "x")
          (.assign .set "x" (.binary .add (.var "x") (.num 1))))) { table := {} } ∧
      (Compilation.ofText "y = (x += 1)\n" {} {} false).run.1 =
        (Compilation.ofText "y = ++x\n" {} {} false).run.1 ∧
      (Compilation.ofText "y = x += 1\n" {} {} false).run.1 =
        (Compilation.ofText "y = ++x\n" {} {} false).run.1 ∧
      (Compilation.ofText "y = ++x\n" {} {} false).run.1.result = .ok .completed := by
  obtain ⟨htree, -, -, htext⟩ := compound_assignment_expanded
  have hshort : Token.ofString "y = ++x\n" =
      [.ident "y", .assign .set, .step .increment, .ident "x", .newline, .eof] := by
    cbv
  have hparens : Token.ofString "y = (x += 1)\n" = [.ident "y", .assign .set, .openParen,
      .ident "x", .assign .add, .num "1", .closeParen, .newline, .eof] := by
    cbv
  have hlong : Token.ofString "y = x += 1\n" =
      [.ident "y", .assign .set, .ident "x", .assign .add, .num "1", .newline, .eof] := by
    cbv
  have hoperand : Token.Replaces [.ident "y", .assign .set] [.newline, .eof] _ _ :=
    .operand (.increment "x")
  have hwhole : Token.Replaces [.ident "y", .assign .set] [.newline, .eof] _ _ :=
    .whole (.increment "x") (by simp [Token.OpensExpression]) (by simp [Token.ClosesExpression])
  have hoperandText : Token.Respelled (Token.ofString "y = ++x\n")
      (Token.ofString "y = (x += 1)\n") := by
    rw [hshort, hparens]
    exact .place hoperand
  have hwholeText : Token.Respelled (Token.ofString "y = ++x\n")
      (Token.ofString "y = x += 1\n") := by
    rw [hshort, hlong]
    exact .place hwhole
  exact ⟨(htree _ _ (.sub "x" (.add "x" (.num 1))) { table := {} }).1,
    (htext "y = ++x\n" "y = (x += 1)\n" hoperandText {} false).1,
    (htext "y = ++x\n" "y = x += 1\n" hwholeText {} false).1, by cbv⟩

end LineCompiler
