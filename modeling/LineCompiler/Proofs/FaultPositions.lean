import LineCompiler.Proofs.EarliestFault

/-!
# A fault is told by its place

Reading keeps a stack of all that is unfinished, and the fault that it reports is taken from this
stack. The tokens that have been read tell the fault as well: their last one says what is missing
behind it, and their parentheses say whether one of them is still open.

* `Derives.count_paren` and `Derives.lastIs`: the tokens of an expression have as many closing as
  opening parentheses, and they end an operand.
* `Opened.count_paren` and `Opened.lastIs`: the open parentheses on the stack are those that have
  not been closed, and behind the tokens of an unfinished part an operand is wanted.
* `Pending.Explains.lastIs` and `Pending.Explains.count_paren` put this together for all that has
  been read, and `Pending.Explains.expecting_iff` turns it around: the last token tells what is
  expected. `fault_told_by_place` states the result for a statement that is at fault.
-/

namespace LineCompiler

/-! ## The last token -/

namespace Token

/-- Behind the token, an operand is complete. -/
def endsOperand : Token → Bool
  | num _ | ident _ | closeParen => true
  | _ => false

/-- Behind the token, an operand has to begin. -/
def wantsOperand : Token → Bool
  | op _ | assign _ | openParen => true
  | _ => false

/-- Behind the token, the variable has to be named that it steps. -/
def wantsStepTarget : Token → Bool
  | step _ => true
  | _ => false

/-- The last of these tokens is of this kind. -/
def LastIs (kind : Token → Bool) (ts : List Token) : Prop :=
  ∃ before last, ts = before ++ [last] ∧ kind last

variable {kind : Token → Bool} {ts : List Token}

theorem lastIs_concat {token : Token} : LastIs kind (ts ++ [token]) ↔ kind token := by
  constructor
  · rintro ⟨before, last, hts, hlast⟩
    obtain ⟨-, htoken⟩ := List.append_inj' hts rfl
    cases htoken
    exact hlast
  · intro htoken
    exact ⟨ts, token, rfl, htoken⟩

theorem not_lastIs_nil : ¬ LastIs kind [] := by
  rintro ⟨before, last, hts, -⟩
  exact List.append_ne_nil_of_right_ne_nil before (List.cons_ne_nil last []) hts.symm

theorem LastIs.append (h : LastIs kind ts) (us : List Token) : LastIs kind (us ++ ts) := by
  obtain ⟨before, last, rfl, hlast⟩ := h
  rw [← List.append_assoc]
  exact lastIs_concat.mpr hlast

end Token

/-! ## Expressions -/

namespace Derives

variable {c : Category} {ts : List Token} {e : Expr}

/-- The parentheses of an expression balance. -/
theorem count_paren (h : Derives c ts e) : ts.count .openParen = ts.count .closeParen := by
  induction h with
  | lift _ _ ih => exact ih
  | store _ _ ihtarget ihvalue => simp [ihtarget, ihvalue]
  | binary _ _ _ ihleft ihright => simp [ihleft, ihright]
  | sign _ _ ih => simpa using ih
  | num | var | step => simp
  | paren _ ih => simp [ih]

theorem lastIs (h : Derives c ts e) : Token.LastIs Token.endsOperand ts := by
  induction h with
  | lift _ _ ih => exact ih
  | @store _ _ ts _ _ _ _ _ ihvalue => exact (ihvalue.append [_]).append ts
  | @binary _ _ ts _ _ _ _ _ _ _ ihright => exact (ihright.append [_]).append ts
  | sign _ _ ih => exact ih.append [_]
  | num digits => exact ⟨[], _, rfl, rfl⟩
  | var name => exact ⟨[], _, rfl, rfl⟩
  | step op name => exact ⟨[_], _, rfl, rfl⟩
  | paren _ _ => exact Token.lastIs_concat.mpr rfl

end Derives

/-! ## What is unfinished -/

namespace Opened

variable {frames : List Frame} {ts : List Token}

/-- The open parentheses are those that have not been closed. -/
theorem count_paren (h : Opened frames ts) :
    frames.count .paren + ts.count .closeParen = ts.count .openParen := by
  induction h with
  | nil => rfl
  | binary _ _ hleft ih =>
    have hbalance := hleft.count_paren
    simp only [List.count_append, List.count_nil, List.count_cons_of_ne, ne_eq, reduceCtorEq,
      not_false_eq_true]
    omega
  | sign _ _ ih => simpa using ih
  | assign _ _ htarget ih =>
    have hbalance := htarget.count_paren
    simp only [List.count_append, List.count_nil, List.count_cons_of_ne, ne_eq, reduceCtorEq,
      not_false_eq_true]
    omega
  | paren _ ih =>
    simp only [List.count_append, List.count_nil, List.count_cons_self, List.count_cons_of_ne,
      ne_eq, reduceCtorEq, not_false_eq_true]
    omega

theorem lastIs (h : Opened frames ts) : ts = [] ∨ Token.LastIs Token.wantsOperand ts := by
  cases h with
  | nil => exact .inl rfl
  | @binary _ _ _ ts us _ _ _ => exact .inr ((Token.lastIs_concat.mpr rfl).append ts)
  | sign _ _ => exact .inr (Token.lastIs_concat.mpr rfl)
  | @assign _ _ _ ts us _ _ _ => exact .inr ((Token.lastIs_concat.mpr rfl).append ts)
  | paren _ => exact .inr (Token.lastIs_concat.mpr rfl)

end Opened

namespace Pending

open Token

variable {p : Pending} {ts : List Token}

theorem Explains.count_paren (h : p.Explains ts) :
    p.frames.count .paren + ts.count .closeParen = ts.count .openParen := by
  obtain ⟨frames, expecting⟩ := p
  cases expecting with
  | operand => exact Opened.count_paren h
  | stepTarget op =>
    obtain ⟨before, rfl, hopened⟩ := h
    simpa using hopened.count_paren
  | operator e =>
    obtain ⟨before, us, rfl, hopened, he⟩ := h
    have hbefore : frames.count .paren + before.count .closeParen = _ := hopened.count_paren
    have hbalance := he.count_paren
    show frames.count .paren + _ = _
    rw [List.count_append, List.count_append]
    omega

/-- What the last token leaves to be expected. -/
theorem Explains.lastIs (h : p.Explains ts) :
    match p.expecting with
    | .operand => ts = [] ∨ LastIs wantsOperand ts
    | .stepTarget _ => LastIs wantsStepTarget ts
    | .operator _ => LastIs endsOperand ts := by
  obtain ⟨frames, expecting⟩ := p
  cases expecting with
  | operand => exact Opened.lastIs h
  | stepTarget op =>
    obtain ⟨before, rfl, -⟩ := h
    exact lastIs_concat.mpr rfl
  | operator e =>
    obtain ⟨before, us, rfl, -, he⟩ := h
    exact he.lastIs.append before

/-- What is expected can be told from the last token, as no token leaves two things to be
expected. -/
theorem Explains.expecting_iff (h : p.Explains ts) :
    (LastIs wantsStepTarget ts ↔ ∃ op, p.expecting = .stepTarget op) ∧
    (ts = [] ∨ LastIs wantsOperand ts ↔ p.expecting = .operand) ∧
    (LastIs endsOperand ts ↔ ∃ e, p.expecting = .operator e) := by
  have hlast := h.lastIs
  rcases ts.eq_nil_or_concat' with rfl | ⟨before, last, rfl⟩
  · have hexpecting : p.expecting = .operand := by
      cases hexpecting : p.expecting with
      | operand => rfl
      | stepTarget op =>
        rw [hexpecting] at hlast
        exact absurd hlast not_lastIs_nil
      | operator e =>
        rw [hexpecting] at hlast
        exact absurd hlast not_lastIs_nil
    simp [hexpecting, not_lastIs_nil]
  · cases hexpecting : p.expecting with
    | operand | stepTarget | operator =>
      simp only [hexpecting, lastIs_concat] at hlast ⊢
      cases last <;> simp_all [wantsOperand, wantsStepTarget, endsOperand]

theorem explains_of_reads (h : start.reads ts = some p) : p.Explains ts := by
  have hstart : start.Explains [] := Opened.nil
  exact hstart.reads h

/-- What has been read never closes a parenthesis that it has not opened. -/
theorem count_closeParen_le_of_reads (h : start.reads ts = some p) {before : List Token}
    (hbefore : before <+: ts) : before.count .closeParen ≤ before.count .openParen := by
  obtain ⟨after, rfl⟩ := hbefore
  rw [reads_append] at h
  obtain ⟨q, hq, -⟩ := Option.bind_eq_some_iff.mp h
  have hcount := (explains_of_reads hq).count_paren
  omega

end Pending

/-! ## Statements that are at fault -/

/-- A fault is that of the expression which has been read up to it. -/
theorem Statement.exists_reads_of_read {tokens rest : List Token} {fault : Fault}
    (h : read tokens = (.error fault, rest)) :
    ∃ consumed p, tokens = consumed ++ rest ∧ Pending.start.reads consumed = some p ∧
      p.fault = fault := by
  unfold read at h
  split at h
  · cases h
  · cases h
  · cases h
  · split at h
    · rename_i p rest' hadvance
      obtain ⟨consumed, htokens, hreads⟩ := Pending.exists_reads_of_advance hadvance
      split at h
      · cases h
      · cases h
        exact ⟨consumed, p, htokens, hreads, rfl⟩
    · rename_i p rest' _ hadvance
      obtain ⟨consumed, htokens, hreads⟩ := Pending.exists_reads_of_advance hadvance
      cases h
      exact ⟨consumed, p, htokens, hreads, rfl⟩

open Token in
/-- **A fault is told by its place.** Suppose that the statement at a cursor is at fault, whatever
tokens are in front of the cursor. No parenthesis among the tokens that were read is closed before
it is opened. The variable of a step is missing exactly if the last of them is a `++` or `--`, and
an operand is missing exactly if there are none or the last of them is an operator, an assignment or
an opening parenthesis. If the last of them ends an operand instead, the fault is an unclosed
parenthesis where one is open, and otherwise what follows a complete expression. There are no other
faults. -/
theorem fault_told_by_place (c d : Cursor) (fault : Fault) (h : c.next = (.error fault, d)) :
    ∃ consumed, c.tokens = consumed ++ d.tokens ∧
      (∀ before, before <+: consumed → before.count .closeParen ≤ before.count .openParen) ∧
      (fault = .stepTargetExpected ↔ LastIs wantsStepTarget consumed) ∧
      (fault = .operandExpected ↔ consumed = [] ∨ LastIs wantsOperand consumed) ∧
      (fault = .unclosedParen ↔ LastIs endsOperand consumed ∧
        consumed.count .closeParen < consumed.count .openParen) ∧
      (fault = .malformed ↔ LastIs endsOperand consumed ∧
        consumed.count .closeParen = consumed.count .openParen) ∧
      fault ∈ [.stepTargetExpected, .operandExpected, .unclosedParen, .malformed] := by
  obtain ⟨consumed, p, htokens, hreads, rfl⟩ :=
    Statement.exists_reads_of_read (Cursor.read_eq_of_next_error h)
  have hexplains := Pending.explains_of_reads hreads
  have hcount := hexplains.count_paren
  obtain ⟨hstep, hoperand, hends⟩ := hexplains.expecting_iff
  refine ⟨consumed, htokens, fun _ => Pending.count_closeParen_le_of_reads hreads, ?_⟩
  rw [hstep, hoperand, hends]
  cases hexpecting : p.expecting with
  | operand => simp [Pending.fault, hexpecting]
  | stepTarget op => simp [Pending.fault, hexpecting]
  | operator e =>
    by_cases hparen : .paren ∈ p.frames
    · have hopen : 0 < p.frames.count .paren := List.count_pos_iff.mpr hparen
      have hlt : consumed.count .closeParen < consumed.count .openParen := by omega
      simp [Pending.fault, hexpecting, hparen, hlt, hlt.ne]
    · have hclosed : p.frames.count .paren = 0 := List.count_eq_zero_of_not_mem hparen
      have heq : consumed.count .closeParen = consumed.count .openParen := by omega
      simp [Pending.fault, hexpecting, hparen, heq]

open Token in
/-- The line `y = ((a) + 1 = 2)` is read up to its second `=`, since a sum is not assigned to. One
of its parentheses is open there. -/
theorem fault_told_by_place_sum_target :
    let c : Cursor := { tokens := Token.ofString "y = ((a) + 1 = 2)\n" }
    let d : Cursor := ⟨[.assign .set, .num "2", .closeParen, .newline, .eof], 1⟩
    c.next = (.error .unclosedParen, d) ∧
      ∃ consumed, c.tokens = consumed ++ d.tokens ∧ LastIs endsOperand consumed ∧
        consumed.count .closeParen < consumed.count .openParen := by
  intro c d
  have hfault : c.next = (.error .unclosedParen, d) := by cbv
  obtain ⟨consumed, htokens, -, -, -, hopen, -⟩ := fault_told_by_place c d .unclosedParen hfault
  exact ⟨hfault, consumed, htokens, hopen.mp rfl⟩

end LineCompiler
