import LineCompiler.Proofs.Places

/-!
# Faults are found as early as possible

The token at which reading stops with a fault is the first one that no statement could have there.
What was read before it lies on one line and still begins a statement.

* `Pending.completion` are tokens that finish a pending expression, whatever it is. So nothing that
  is read leads into a dead end (`Statement.read_completed`).
* `Pending.Stuck`: the expression can neither go on with a token nor end with it. A fault is always
  of this kind (`Statement.exists_stuck_of_read`), and it does not depend on what follows the token
  (`Statement.read_of_stuck`).
-/

namespace LineCompiler

/-! ## Completing an expression -/

namespace Frame

theorem closeAll_of_paren_notMem {frames : List Frame} (h : paren ∉ frames) (e : Expr) :
    ∃ tree, closeAll e frames = (tree, []) := by
  induction frames generalizing e with
  | nil => exact ⟨e, rfl⟩
  | cons frame frames ih =>
    rw [List.mem_cons, not_or] at h
    cases frame with
    | binary level op left => exact ih h.2 (.binary op left e)
    | assign op name => exact ih h.2 (.assign op name e)
    | paren => exact absurd rfl h.1

theorem closeAll_of_paren_mem {frames : List Frame} (h : paren ∈ frames) (e : Expr) :
    ∃ inner below, closeAll e frames = (inner, paren :: below) ∧
      frames.count paren = below.count paren + 1 := by
  induction frames generalizing e with
  | nil => exact absurd h List.not_mem_nil
  | cons frame frames ih =>
    cases frame with
    | binary level op left =>
      rw [List.count_cons_of_ne (by simp)]
      exact ih (by simpa using h) (.binary op left e)
    | assign op name =>
      rw [List.count_cons_of_ne (by simp)]
      exact ih (by simpa using h) (.assign op name e)
    | paren => exact ⟨e, frames, rfl, List.count_cons_self⟩

end Frame

namespace Pending

/-- Tokens that finish the expression: an operand if one is missing, and what closes the open
parentheses. -/
def completion (p : Pending) : List Token :=
  let closing := List.replicate (p.frames.count .paren) .closeParen
  match p.expecting with
  | .operand => .num "0" :: closing
  | .stepTarget _ => .ident "x" :: closing
  | .operator _ => closing

/-- Behind an operand, only the open parentheses are missing. -/
theorem reads_closing (frames : List Frame) (e : Expr) :
    ∃ q tree,
      reads ⟨frames, .operator e⟩ (List.replicate (frames.count .paren) .closeParen) = some q ∧
      q.complete? = some tree := by
  generalize hcount : frames.count .paren = count
  induction count generalizing frames e with
  | zero =>
    obtain ⟨tree, hclose⟩ := Frame.closeAll_of_paren_notMem (List.count_eq_zero.mp hcount) e
    exact ⟨_, tree, rfl, by simp only [complete?, hclose]⟩
  | succ count ih =>
    have hmem : .paren ∈ frames := List.count_pos_iff.mp (by omega)
    obtain ⟨inner, below, hclose, hbelow⟩ := Frame.closeAll_of_paren_mem hmem e
    have hnext : next? ⟨frames, .operator e⟩ .closeParen = some ⟨below, .operator inner⟩ := by
      simp only [next?, extend?, hclose]
    obtain ⟨q, tree, hreads, hcomplete⟩ := ih below inner (by omega)
    refine ⟨q, tree, ?_, hcomplete⟩
    rw [List.replicate_succ, reads, hnext]
    exact hreads

/-- Every expression that is being read can be finished. -/
theorem reads_completion (p : Pending) :
    ∃ q tree, p.reads p.completion = some q ∧ q.complete? = some tree := by
  obtain ⟨frames, expecting⟩ := p
  cases expecting with
  | operand => exact reads_closing frames (.literal "0")
  | stepTarget op => exact reads_closing frames (.stepped op.assignOp "x")
  | operator e => exact reads_closing frames e

/-- The expression can neither go on with the token nor end with it. -/
def Stuck (p : Pending) (token : Token) : Prop :=
  p.next? token = none ∧ (token = .newline → p.complete? = none)

theorem next?_of_advance {p q : Pending} {tokens rest : List Token} {token : Token}
    (h : p.advance tokens = (q, token :: rest)) : q.next? token = none := by
  induction tokens generalizing p with
  | nil => cases h
  | cons first tokens ih =>
    rw [advance] at h
    split at h
    · exact ih h
    · rename_i hnext
      cases h
      exact hnext

end Pending

/-! ## Statements that are at fault -/

namespace Statement

variable {consumed : List Token} {token : Token} {p : Pending}

/-- Tokens that can be read begin a statement. -/
theorem read_completed (hreads : Pending.start.reads consumed = some p) :
    ∃ tree, ∀ rest,
      read (consumed ++ p.completion ++ .newline :: rest) = (.ok (.expr tree), rest) := by
  obtain ⟨q, tree, hcompletion, hcomplete⟩ := p.reads_completion
  have hall : Pending.start.reads (consumed ++ p.completion) = some q := by
    rw [Pending.reads_append, hreads]
    exact hcompletion
  exact ⟨tree, fun rest => read_eq_expr_iff.mpr ⟨_, q, rfl, hall, hcomplete⟩⟩

/-- A token at which an expression is stuck is a fault, whatever follows. -/
theorem read_of_stuck (hreads : Pending.start.reads consumed = some p) (hstuck : p.Stuck token)
    (hfirst : consumed = [] → token.Inner) (more : List Token) :
    read (consumed ++ token :: more) = (.error p.fault, token :: more) := by
  have hadvance : Pending.start.advance (consumed ++ token :: more) = (p, token :: more) := by
    rw [Pending.advance_of_reads hreads, Pending.advance, hstuck.1]
  obtain ⟨first, rest, htokens, hinner⟩ : ∃ first rest,
      consumed ++ token :: more = first :: rest ∧ first.Inner := by
    cases consumed with
    | nil => exact ⟨token, more, rfl, hfirst rfl⟩
    | cons first rest =>
      exact ⟨first, rest ++ token :: more, rfl,
        Pending.inner_of_reads hreads first List.mem_cons_self⟩
  rw [htokens, read_of_inner hinner, ← htokens, hadvance]
  cases token with
  | newline => simp only [hstuck.2 rfl]
  | _ => rfl

theorem inner_of_read_error {first : Token} {tokens rest : List Token} {fault : Fault}
    (h : read (first :: tokens) = (.error fault, rest)) : first.Inner := by
  constructor
  · rintro rfl
    cases h
  · rintro rfl
    cases h

/-- A fault is found where an expression is stuck. -/
theorem exists_stuck_of_read {tokens rest : List Token} {fault : Fault}
    (h : read tokens = (.error fault, rest)) (heof : .eof ∈ tokens) :
    ∃ consumed token more p, tokens = consumed ++ rest ∧ rest = token :: more ∧
      Pending.start.reads consumed = some p ∧ p.Stuck token ∧ p.fault = fault ∧
      (consumed = [] → token.Inner) := by
  obtain ⟨first, tail, rfl⟩ := List.exists_cons_of_ne_nil (List.ne_nil_of_mem heof)
  have hinner := inner_of_read_error h
  rw [read_of_inner hinner] at h
  obtain ⟨p, unread, hadvance⟩ : ∃ p unread,
      Pending.start.advance (first :: tail) = (p, unread) := ⟨_, _, rfl⟩
  obtain ⟨consumed, htokens, hreads⟩ := Pending.exists_reads_of_advance hadvance
  rw [hadvance] at h
  cases unread with
  | nil =>
    -- the end of the text has not been read
    rw [htokens, List.append_nil] at heof
    exact absurd rfl (Pending.inner_of_reads hreads .eof heof).2
  | cons token more =>
    have hfirst : consumed = [] → token.Inner := by
      rintro rfl
      cases htokens
      exact hinner
    have hnext := Pending.next?_of_advance hadvance
    cases token with
    | newline =>
      cases hcomplete : p.complete? with
      | some tree =>
        simp only [hcomplete] at h
        cases h
      | none =>
        simp only [hcomplete] at h
        cases h
        exact ⟨consumed, .newline, more, p, htokens, rfl, hreads, ⟨hnext, fun _ => hcomplete⟩, rfl,
          hfirst⟩
    | _ =>
      cases h
      exact ⟨consumed, _, more, p, htokens, rfl, hreads, ⟨hnext, by rintro ⟨⟩⟩, rfl, hfirst⟩

end Statement

/-! ## Reading on in a text -/

namespace Cursor

/-- The cursor after some statements of a text, also after those that are at fault. -/
def after (text : String) (calls : Nat) : Cursor :=
  (fun c : Cursor => c.next.2)^[calls] { tokens := Token.ofString text }

theorem standsIn_after (text : String) (calls : Nat) : StandsIn text.toList (after text calls) :=
  Function.Iterate.rec (StandsIn text.toList) (standsIn_ofString text) (fun _ hc => hc.next) calls

theorem eof_mem_after (text : String) (calls : Nat) : .eof ∈ (after text calls).tokens := by
  obtain ⟨front, back, -, htokens, -⟩ := standsIn_after text calls
  rw [htokens]
  exact Token.eof_mem_scan back

end Cursor

/-- **Faults are found as early as possible.** Read any number of statements of a text, going on
behind the faults, and suppose that the next one is at fault. Then a token is left at which the
reading has stopped, and the tokens that were read before it contain neither a line end nor the end
of the text. These tokens can be completed to a statement, but together with the token that is left
they cannot: the fault is the same whatever follows. -/
theorem fault_at_first_impossible_token (text : String) (calls : Nat) (fault : Fault) (d : Cursor)
    (h : (Cursor.after text calls).next = (.error fault, d)) :
    ∃ consumed token more,
      (Cursor.after text calls).tokens = consumed ++ d.tokens ∧ d.tokens = token :: more ∧
      .newline ∉ consumed ∧ .eof ∉ consumed ∧
      (∃ completion tree, ∀ rest, Statement.read (consumed ++ completion ++ .newline :: rest) =
        (.ok (.expr tree), rest)) ∧
      ∀ others, Statement.read (consumed ++ token :: others) = (.error fault, token :: others) := by
  obtain ⟨consumed, token, more, p, htokens, hleft, hreads, hstuck, rfl, hfirst⟩ :=
    Statement.exists_stuck_of_read (Cursor.read_eq_of_next_error h)
      (Cursor.eof_mem_after text calls)
  have hinner := Pending.inner_of_reads hreads
  exact ⟨consumed, token, more, htokens, hleft, fun hmem => (hinner _ hmem).1 rfl,
    fun hmem => (hinner _ hmem).2 rfl, ⟨p.completion, Statement.read_completed hreads⟩,
    Statement.read_of_stuck hreads hstuck hfirst⟩

/-- The second line of this text is read after a fault in the first one. It is at fault at its `=`,
since what stands before can be put into parentheses but not assigned to. -/
theorem fault_at_first_impossible_token_sum_target :
    let text := "1 +\n(a + 1 = 2)\n"
    (Cursor.after text 0).next.1 = .error .operandExpected ∧
      (Cursor.after text 2).next =
        (.error .unclosedParen, ⟨[.assign .set, .num "2", .closeParen, .newline, .eof], 2⟩) ∧
      ∃ consumed token more,
        (Cursor.after text 2).tokens =
          consumed ++ [.assign .set, .num "2", .closeParen, .newline, .eof] ∧
        [.assign .set, .num "2", .closeParen, .newline, .eof] = token :: more ∧
        .newline ∉ consumed ∧ .eof ∉ consumed ∧
        (∃ completion tree, ∀ rest, Statement.read (consumed ++ completion ++ .newline :: rest) =
          (.ok (.expr tree), rest)) ∧
        ∀ others, Statement.read (consumed ++ token :: others) =
          (.error .unclosedParen, token :: others) := by
  intro text
  have hfault : (Cursor.after text 2).next =
      (.error .unclosedParen, ⟨[.assign .set, .num "2", .closeParen, .newline, .eof], 2⟩) := by cbv
  exact ⟨by cbv, hfault, fault_at_first_impossible_token text 2 .unclosedParen _ hfault⟩

end LineCompiler
