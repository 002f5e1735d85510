import LineCompiler.Proofs.Grammar
import LineCompiler.Statement

/-!
# Reading statements follows the grammar

Statements are read token by token with a stack of unfinished frames. This module shows that the
tokens that are read in this way are those that the grammar derives, with the same tree.

* `Derives.reads`: from any stack on which the expression may stand, its tokens are read, and the
  frames that they leave behind close to its tree.
* `Pending.Explains`: what a pending expression tells about the tokens read so far. `Explains.next`
  is the step lemma, one case for each token.
* `read_iff_derives`: both directions together, and that no line has two trees.
-/

namespace LineCompiler

/-! ## Reading several tokens -/

namespace Pending

/-- The expression with all these tokens read, if it can go on with each of them. -/
def reads (p : Pending) : List Token → Option Pending
  | [] => some p
  | token :: rest => (p.next? token).bind (reads · rest)

theorem reads_append (p : Pending) (ts us : List Token) :
    p.reads (ts ++ us) = (p.reads ts).bind (reads · us) := by
  induction ts generalizing p with
  | nil => rfl
  | cons token ts ih =>
    rw [List.cons_append, reads, reads]
    cases p.next? token with
    | none => rfl
    | some q => exact ih q

theorem reads_append_cons {p q r : Pending} {ts : List Token} {token : Token}
    (hreads : p.reads ts = some q) (hnext : q.next? token = some r) (us : List Token) :
    p.reads (ts ++ token :: us) = r.reads us := by
  rw [reads_append, hreads, Option.bind_some, reads, hnext, Option.bind_some]

theorem advance_of_reads {p q : Pending} {ts : List Token} (h : p.reads ts = some q)
    (rest : List Token) : p.advance (ts ++ rest) = q.advance rest := by
  induction ts generalizing p with
  | nil =>
    cases h
    rfl
  | cons token ts ih =>
    obtain ⟨r, hnext, hrest⟩ := Option.bind_eq_some_iff.mp h
    rw [List.cons_append, advance, hnext]
    exact ih hrest

theorem exists_reads_of_advance {p q : Pending} {tokens rest : List Token}
    (h : p.advance tokens = (q, rest)) : ∃ ts, tokens = ts ++ rest ∧ p.reads ts = some q := by
  induction tokens generalizing p with
  | nil =>
    cases h
    exact ⟨[], rfl, rfl⟩
  | cons token tokens ih =>
    rw [advance] at h
    split at h
    · rename_i r hnext
      obtain ⟨ts, rfl, hreads⟩ := ih h
      exact ⟨token :: ts, rfl, by rw [reads, hnext]; exact hreads⟩
    · cases h
      exact ⟨[], rfl, rfl⟩

/-- A line end goes on with no expression. -/
theorem next?_newline (p : Pending) : p.next? .newline = none := by
  obtain ⟨frames, expecting⟩ := p
  cases expecting <;> rfl

theorem advance_newline (p : Pending) (rest : List Token) :
    p.advance (.newline :: rest) = (p, .newline :: rest) := by
  rw [advance, next?_newline]

end Pending

/-- A statement is an expression if its tokens up to the line end can be read and the expression may
end there. -/
theorem Statement.read_eq_expr_iff {tokens rest : List Token} {e : Expr} :
    read tokens = (.ok (.expr e), rest) ↔
      ∃ ts p, tokens = ts ++ .newline :: rest ∧ Pending.start.reads ts = some p ∧
        p.complete? = some e := by
  constructor
  · intro h
    unfold read at h
    split at h
    · cases h
    · cases h
    · cases h
    · split at h
      · rename_i p rest' hadvance
        split at h
        · rename_i hcomplete
          cases h
          obtain ⟨ts, htokens, hreads⟩ := Pending.exists_reads_of_advance hadvance
          exact ⟨ts, p, htokens, hreads, hcomplete⟩
        · cases h
      · cases h
  · rintro ⟨ts, p, rfl, hreads, hcomplete⟩
    have hadvance : Pending.start.advance (ts ++ .newline :: rest) = (p, .newline :: rest) := by
      rw [Pending.advance_of_reads hreads, Pending.advance_newline]
    cases ts with
    | nil =>
      cases hreads
      cases hcomplete
    | cons token ts =>
      -- the first token starts an operand, so the line is not empty
      obtain ⟨q, hnext, -⟩ := Option.bind_eq_some_iff.mp hreads
      unfold read
      split
      · rename_i htokens
        cases htokens
      · rename_i htokens
        cases htokens
        cases hnext
      · rename_i htokens
        cases htokens
        cases hnext
      · rw [hadvance]
        simp only [hcomplete]

/-! ## Stacks on which an expression may stand -/

namespace Frame

/-- The rank of the expressions that a frame waits for. -/
def operandRank : Frame → Nat
  | binary level _ _ => min (level + 2) Category.unary.rank
  | assign _ _ | paren => Category.assign.rank

/-- The innermost frame takes every expression of this rank. -/
def Fits (rank : Nat) : List Frame → Prop
  | [] => True
  | frame :: _ => frame.operandRank ≤ rank

theorem Fits.mono {rank rank' : Nat} {frames : List Frame} (h : Fits rank frames)
    (hle : rank ≤ rank') : Fits rank' frames := by
  cases frames with
  | nil => trivial
  | cons frame frames => exact Nat.le_trans h hle

/-- A frame that takes the expressions of the weakest operators is not one of an operator. -/
theorem Fits.assign {frames : List Frame} (h : Fits Category.or.rank frames) :
    Fits Category.assign.rank frames := by
  match frames with
  | [] => trivial
  | binary level _ _ :: _ =>
    have hle : min (level + 2) 6 ≤ 1 := h
    omega
  | Frame.assign _ _ :: _ => exact Nat.le_refl _
  | paren :: _ => exact Nat.le_refl _

/-- Nothing is closed for an operator that the innermost frame waits for. -/
theorem close_of_fits {level : Nat} {frames : List Frame} (hlevel : level < BinOp.signLevel)
    (h : Fits (level + 1) frames) (e : Expr) : close level e frames = (e, frames) := by
  match frames with
  | [] => rfl
  | binary strength op left :: frames =>
    have hlt : ¬ level ≤ strength := by
      simp only [Fits, operandRank, Category.rank, BinOp.signLevel] at h hlevel
      omega
    rw [close, if_neg hlt]
  | assign op name :: frames => rfl
  | paren :: frames => rfl

end Frame

/-! ## Derived tokens are read -/

open LineCompiler.Frame (close closeAll)

/-- The frames above an expression that has been read close to the same as its tree. -/
def Settled (rank : Nat) (e : Expr) (frames : List Frame) (e' : Expr) (frames' : List Frame) :
    Prop :=
  (∀ level < rank, close level e' frames' = close level e frames) ∧
    closeAll e' frames' = closeAll e frames

/-- **Completeness.** The tokens of an expression are read from any stack on which it may stand, and
behind them the stack closes as if the tree itself stood there. -/
theorem Derives.reads {c : Category} {ts : List Token} {e : Expr} (h : Derives c ts e)
    {frames : List Frame} (hfits : Frame.Fits c.rank frames) :
    ∃ e' frames', Pending.reads ⟨frames, .operand⟩ ts = some ⟨frames', .operator e'⟩ ∧
      Settled c.rank e frames e' frames' := by
  induction h generalizing frames with
  | lift hnext _ ih =>
    have hrank := Category.rank_next hnext
    obtain ⟨e', frames', hreads, hclose, hall⟩ := ih (hfits.mono (by omega))
    exact ⟨e', frames', hreads, fun level hlevel => hclose level (by omega), hall⟩
  | @store op name ts us e _ _ ihtarget ihvalue =>
    obtain ⟨e₁, frames₁, hreads₁, hclose₁, -⟩ := ihtarget (hfits.mono (by decide))
    have htarget : close 0 e₁ frames₁ = (.var name, frames) := by
      rw [hclose₁ 0 (by decide)]
      exact Frame.close_of_fits (by decide) (hfits.mono (by decide)) _
    have hassign : Pending.next? ⟨frames₁, .operator e₁⟩ (.assign op) =
        some ⟨.assign op name :: frames, .operand⟩ := by
      simp only [Pending.next?, Pending.extend?, htarget]
    have hfits₂ : Frame.Fits Category.assign.rank (.assign op name :: frames) := Nat.le_refl _
    obtain ⟨e₂, frames₂, hreads₂, -, hall₂⟩ := ihvalue hfits₂
    refine ⟨e₂, frames₂, ?_, nofun, hall₂⟩
    rw [Pending.reads_append_cons hreads₁ hassign, hreads₂]
  | @binary op d ts us left right hnext _ _ ihleft ihright =>
    have hlevel := op.level_lt_signLevel
    have hrank := op.rank_category
    have hrank' := Category.rank_next hnext
    rw [hrank] at hfits
    obtain ⟨e₁, frames₁, hreads₁, hclose₁, -⟩ := ihleft (hrank ▸ hfits)
    have hleft : close op.level e₁ frames₁ = (left, frames) := by
      rw [hclose₁ op.level (by omega)]
      exact Frame.close_of_fits hlevel hfits _
    have hop : Pending.next? ⟨frames₁, .operator e₁⟩ (.op op) =
        some ⟨.binary op.level op left :: frames, .operand⟩ := by
      simp only [Pending.next?, Pending.extend?, hleft]
    have hfits₂ : Frame.Fits d.rank (.binary op.level op left :: frames) := by
      simp only [Frame.Fits, Frame.operandRank]
      omega
    obtain ⟨e₂, frames₂, hreads₂, hclose₂, hall₂⟩ := ihright hfits₂
    refine ⟨e₂, frames₂, ?_, ?_, hall₂⟩
    · rw [Pending.reads_append_cons hreads₁ hop, hreads₂]
    · intro level hlt
      rw [hclose₂ level (by omega), close, if_pos (by omega)]
  | @sign op ts e hop _ ih =>
    have hnext : Pending.next? ⟨frames, .operand⟩ (.op op) =
        some ⟨.binary BinOp.signLevel op (.num 0) :: frames, .operand⟩ := by
      rcases hop with rfl | rfl
      · rfl
      · rfl
    have hfits' : Frame.Fits Category.unary.rank
        (.binary BinOp.signLevel op (.num 0) :: frames) := Nat.min_le_right _ _
    obtain ⟨e', frames', hreads, hclose, hall⟩ := ih hfits'
    refine ⟨e', frames', ?_, ?_, hall⟩
    · rw [Pending.reads, hnext, Option.bind_some, hreads]
    · intro level hlt
      have hle : level ≤ BinOp.signLevel := Nat.le_of_lt_succ hlt
      rw [hclose level hlt, close, if_pos hle]
  | num digits => exact ⟨_, frames, rfl, fun _ _ => rfl, rfl⟩
  | var name => exact ⟨_, frames, rfl, fun _ _ => rfl, rfl⟩
  | step op name => exact ⟨_, frames, rfl, fun _ _ => rfl, rfl⟩
  | @paren ts e _ ih =>
    have hfits' : Frame.Fits Category.assign.rank (.paren :: frames) := Nat.le_refl _
    obtain ⟨e', frames', hreads, -, hall⟩ := ih hfits'
    have hclose : Pending.next? ⟨frames', .operator e'⟩ .closeParen =
        some ⟨frames, .operator e⟩ := by
      simp only [Pending.next?, Pending.extend?, hall, closeAll]
    refine ⟨e, frames, ?_, fun _ _ => rfl, rfl⟩
    have hopen : Pending.next? ⟨frames, .operand⟩ .openParen = some ⟨.paren :: frames, .operand⟩ :=
      rfl
    rw [List.cons_append, Pending.reads, hopen, Option.bind_some,
      Pending.reads_append_cons hreads hclose, Pending.reads]

/-! ## Read tokens are derived -/

theorem Frame.fits_unary (frames : List Frame) : Fits Category.unary.rank frames := by
  match frames with
  | [] => trivial
  | binary _ _ _ :: _ => exact Nat.min_le_right _ _
  | assign _ _ :: _ => exact Nat.zero_le _
  | paren :: _ => exact Nat.zero_le _

/-- Reading these tokens has left these frames unfinished and an operand expected. -/
inductive Opened : List Frame → List Token → Prop
  | nil : Opened [] []
  | binary {op : BinOp} {left : Expr} {frames : List Frame} {ts us : List Token}
      (h : Opened frames ts) (hfits : Frame.Fits op.category.rank frames)
      (hleft : Derives op.category us left) :
      Opened (.binary op.level op left :: frames) (ts ++ (us ++ [.op op]))
  | sign {op : BinOp} {frames : List Frame} {ts : List Token} (hop : op = .add ∨ op = .sub)
      (h : Opened frames ts) :
      Opened (.binary BinOp.signLevel op (.num 0) :: frames) (ts ++ [.op op])
  | assign {op : AssignOp} {name : String} {frames : List Frame} {ts us : List Token}
      (h : Opened frames ts) (hfits : Frame.Fits Category.assign.rank frames)
      (htarget : Derives .or us (.var name)) :
      Opened (.assign op name :: frames) (ts ++ (us ++ [.assign op]))
  | paren {frames : List Frame} {ts : List Token} (h : Opened frames ts) :
      Opened (.paren :: frames) (ts ++ [.openParen])

namespace Opened

variable {frames : List Frame} {ts us : List Token} {c : Category} {e : Expr}

/-- An operator takes the expression in front of it as its right operand. -/
theorem derives_binary {op : BinOp} {left : Expr} {vs : List Token}
    (hleft : Derives op.category vs left) (he : Derives c us e)
    (hfits : Frame.Fits c.rank (.binary op.level op left :: frames)) :
    Derives op.category (vs ++ .op op :: us) (.binary op left e) := by
  have hlevel : op.level < 5 := op.level_lt_signLevel
  have hrank := op.rank_category
  have hoperand : min (op.level + 2) 6 ≤ c.rank := hfits
  obtain ⟨d, hnext⟩ : ∃ d, op.category.next? = some d :=
    Category.exists_next (d := c) (by omega)
  have hrank' := Category.rank_next hnext
  exact .binary hnext hleft (he.weaken (by omega))

/-- Closing the frames of an operator's level leaves an expression that the operator can take. -/
theorem close (h : Opened frames ts) (he : Derives c us e) (hfits : Frame.Fits c.rank frames)
    {level : Nat} (hlevel : level < c.rank) (hsign : level < BinOp.signLevel) :
    ∃ ts' us' d, ts ++ us = ts' ++ us' ∧ Opened (close level e frames).2 ts' ∧
      Derives d us' (close level e frames).1 ∧ level < d.rank ∧
      Frame.Fits (level + 1) (close level e frames).2 := by
  induction h generalizing us c e with
  | nil => exact ⟨[], us, c, rfl, .nil, he, hlevel, trivial⟩
  | @binary op left frames ts vs h hfits' hleft ih =>
    have hrank := op.rank_category
    by_cases hle : level ≤ op.level
    · obtain ⟨ts', us', d, htokens, hclosed⟩ := ih (derives_binary hleft he hfits) hfits' (by omega)
      rw [Frame.close, if_pos hle]
      exact ⟨ts', us', d, by simpa using htokens, hclosed⟩
    · rw [Frame.close, if_neg hle]
      refine ⟨_, us, c, rfl, .binary h hfits' hleft, he, hlevel, ?_⟩
      simp only [Frame.Fits, Frame.operandRank]
      omega
  | @sign op frames ts hop h ih =>
    have hunary : Derives .unary us e := he.weaken hfits
    obtain ⟨ts', us', d, htokens, hclosed⟩ := ih (.sign hop hunary) (Frame.fits_unary frames)
      (Nat.lt_trans hsign (by decide))
    rw [Frame.close, if_pos (Nat.le_of_lt hsign)]
    exact ⟨ts', us', d, by simpa using htokens, hclosed⟩
  | assign h hfits' htarget =>
    exact ⟨_, us, c, rfl, .assign h hfits' htarget, he, hlevel, Nat.zero_le _⟩
  | paren h => exact ⟨_, us, c, rfl, .paren h, he, hlevel, Nat.zero_le _⟩

/-- Closing all frames up to a parenthesis leaves a whole expression. -/
theorem closeAll (h : Opened frames ts) (he : Derives c us e) (hfits : Frame.Fits c.rank frames) :
    ∃ ts' us', ts ++ us = ts' ++ us' ∧ Opened (closeAll e frames).2 ts' ∧
      Derives .assign us' (closeAll e frames).1 := by
  have hassign : Derives .assign us e := he.weaken (Nat.zero_le _)
  induction h generalizing us c e with
  | nil => exact ⟨[], us, rfl, .nil, hassign⟩
  | @binary op left frames ts vs h hfits' hleft ih =>
    have hbinary := derives_binary hleft he hfits
    obtain ⟨ts', us', htokens, hclosed⟩ := ih hbinary hfits' (hbinary.weaken (Nat.zero_le _))
    exact ⟨ts', us', by simpa using htokens, hclosed⟩
  | @sign op frames ts hop h ih =>
    have hsign : Derives .unary (.op op :: us) (.binary op (.num 0) e) :=
      .sign hop (he.weaken hfits)
    obtain ⟨ts', us', htokens, hclosed⟩ :=
      ih hsign (Frame.fits_unary frames) (hsign.weaken (Nat.zero_le _))
    exact ⟨ts', us', by simpa using htokens, hclosed⟩
  | @assign op name frames ts vs h hfits' htarget ih =>
    have hstore : Derives .assign (vs ++ .assign op :: us) (.assign op name e) :=
      .store htarget hassign
    obtain ⟨ts', us', htokens, hclosed⟩ := ih hstore hfits' hstore
    exact ⟨ts', us', by simpa using htokens, hclosed⟩
  | paren h => exact ⟨_, us, rfl, .paren h, hassign⟩

end Opened

namespace Pending

/-- What a pending expression tells about the tokens that have been read. -/
def Explains (p : Pending) (ts : List Token) : Prop :=
  match p.expecting with
  | .operand => Opened p.frames ts
  | .stepTarget op => ∃ before, ts = before ++ [.step op] ∧ Opened p.frames before
  | .operator e => ∃ before us, ts = before ++ us ∧ Opened p.frames before ∧ Derives .primary us e

variable {frames : List Frame} {ts : List Token} {token : Token} {q : Pending}

theorem explains_beginOperand (h : Opened frames ts) (hnext : beginOperand? frames token = some q) :
    q.Explains (ts ++ [token]) := by
  match token with
  | .num digits =>
    cases hnext
    exact ⟨ts, _, rfl, h, .num digits⟩
  | .ident name =>
    cases hnext
    exact ⟨ts, _, rfl, h, .var name⟩
  | .op .add =>
    cases hnext
    exact Opened.sign (.inl rfl) h
  | .op .sub =>
    cases hnext
    exact Opened.sign (.inr rfl) h
  | .step op =>
    cases hnext
    exact ⟨ts, rfl, h⟩
  | .openParen =>
    cases hnext
    exact Opened.paren h

theorem explains_takeStepTarget {op : StepOp} (h : Opened frames ts)
    (hnext : takeStepTarget? frames op token = some q) :
    q.Explains (ts ++ [.step op] ++ [token]) := by
  match token with
  | .ident name =>
    cases hnext
    exact ⟨ts, _, List.append_assoc _ _ _, h, .step op name⟩

theorem explains_extend {us : List Token} {e : Expr} (h : Opened frames ts)
    (he : Derives .primary us e) (hnext : extend? frames e token = some q) :
    q.Explains (ts ++ us ++ [token]) := by
  have hfits : Frame.Fits Category.primary.rank frames := (Frame.fits_unary frames).mono (by decide)
  match token with
  | .op op =>
    have hlevel := op.level_lt_signLevel
    obtain ⟨ts', us', d, htokens, hopened, hleft, hrank, hfits'⟩ :=
      h.close he hfits (Nat.lt_trans hlevel (by decide)) hlevel
    cases hnext
    rw [htokens, List.append_assoc]
    rw [← op.rank_category] at hfits'
    exact Opened.binary hopened hfits' (hleft.weaken (by rw [op.rank_category]; exact hrank))
  | .assign op =>
    have hlevel : 0 < Category.primary.rank := by decide
    obtain ⟨ts', us', d, htokens, hopened, htarget, hrank, hfits'⟩ :=
      h.close he hfits hlevel (by decide)
    rw [extend?] at hnext
    split at hnext
    · rename_i name frames' hclose
      rw [hclose] at hopened htarget hfits'
      cases hnext
      rw [htokens, List.append_assoc]
      exact Opened.assign hopened hfits'.assign (htarget.weaken hrank)
    · cases hnext
  | .closeParen =>
    obtain ⟨ts', us', htokens, hopened, hall⟩ := h.closeAll he hfits
    rw [extend?] at hnext
    split at hnext
    · rename_i e' frames' hclose
      rw [hclose] at hopened hall
      cases hnext
      cases hopened with
      | paren hopened =>
        refine ⟨_, _, ?_, hopened, .paren hall⟩
        rw [htokens]
        simp
    · cases hnext

theorem Explains.next {p : Pending} (h : p.Explains ts) (hnext : p.next? token = some q) :
    q.Explains (ts ++ [token]) := by
  obtain ⟨frames, expecting⟩ := p
  cases expecting with
  | operand => exact explains_beginOperand h hnext
  | stepTarget op =>
    obtain ⟨before, rfl, hopened⟩ := h
    exact explains_takeStepTarget hopened hnext
  | operator e =>
    obtain ⟨before, us, rfl, hopened, he⟩ := h
    exact explains_extend hopened he hnext

theorem Explains.reads {p : Pending} {us : List Token} (h : p.Explains ts)
    (hreads : p.reads us = some q) : q.Explains (ts ++ us) := by
  induction us generalizing p ts with
  | nil =>
    cases hreads
    rwa [List.append_nil]
  | cons token us ih =>
    obtain ⟨r, hnext, hrest⟩ := Option.bind_eq_some_iff.mp hreads
    have hr := ih (h.next hnext) hrest
    rwa [List.append_assoc] at hr

/-- **Soundness.** Where a pending expression may end, the tokens that have been read derive its
tree. -/
theorem Explains.complete {p : Pending} {e : Expr} (h : p.Explains ts)
    (hcomplete : p.complete? = some e) : Derives .assign ts e := by
  obtain ⟨frames, expecting⟩ := p
  cases expecting with
  | operand => cases hcomplete
  | stepTarget op => cases hcomplete
  | operator e₁ =>
    obtain ⟨before, us, rfl, hopened, he⟩ := h
    obtain ⟨ts', us', htokens, hopened', hall⟩ :=
      hopened.closeAll he ((Frame.fits_unary frames).mono (by decide))
    simp only [complete?] at hcomplete
    split at hcomplete
    · rename_i hclose
      cases hcomplete
      rw [hclose] at hopened' hall
      cases hopened'
      rw [htokens]
      exact hall
    · cases hcomplete

end Pending

/-! ## Both directions -/

theorem complete_of_derives {ts : List Token} {e : Expr} (h : Derives .assign ts e) :
    ∃ p, Pending.start.reads ts = some p ∧ p.complete? = some e := by
  have hfits : Frame.Fits Category.assign.rank [] := trivial
  obtain ⟨e', frames', hreads, -, hall⟩ := h.reads hfits
  refine ⟨_, hreads, ?_⟩
  simp only [Pending.complete?, hall, closeAll]

/-- What is read as an expression is derived by the grammar, up to the end of its line. -/
theorem Statement.derives_of_read {tokens rest : List Token} {e : Expr}
    (h : read tokens = (.ok (.expr e), rest)) :
    ∃ ts, tokens = ts ++ .newline :: rest ∧ Derives .assign ts e := by
  obtain ⟨ts, p, htokens, hreads, hcomplete⟩ := read_eq_expr_iff.mp h
  have hstart : Pending.start.Explains [] := Opened.nil
  exact ⟨ts, htokens, (hstart.reads hreads).complete hcomplete⟩

/-- **The reader accepts the language of the grammar.** The tokens of a line and its end are read as
an expression, and nothing behind them is, exactly if the grammar derives the tree from the tokens.
No tokens have two trees. -/
theorem read_iff_derives :
    (∀ (ts : List Token) (e : Expr) (rest : List Token),
      Statement.read (ts ++ .newline :: rest) = (.ok (.expr e), rest) ↔ Derives .assign ts e) ∧
    ∀ ts : List Token, ¬ ∃ e e', e ≠ e' ∧ Derives .assign ts e ∧ Derives .assign ts e' := by
  constructor
  · intro ts e rest
    rw [Statement.read_eq_expr_iff]
    constructor
    · rintro ⟨ts', p, htokens, hreads, hcomplete⟩
      obtain rfl : ts = ts' := List.append_cancel_right htokens
      have hstart : Pending.start.Explains [] := Opened.nil
      exact (hstart.reads hreads).complete hcomplete
    · intro h
      obtain ⟨p, hreads, hcomplete⟩ := complete_of_derives h
      exact ⟨ts, p, rfl, hreads, hcomplete⟩
  · rintro ts ⟨e, e', hne, h, h'⟩
    obtain ⟨p, hreads, hcomplete⟩ := complete_of_derives h
    obtain ⟨p', hreads', hcomplete'⟩ := complete_of_derives h'
    obtain rfl : p = p' := Option.some.inj (hreads.symm.trans hreads')
    exact hne (Option.some.inj (hcomplete.symm.trans hcomplete'))

/-- The line `x = -2 - (y) * ++z`. -/
theorem read_iff_derives_signed_difference :
    Derives .assign [.ident "x", .assign .set, .op .sub, .num "2", .op .sub, .openParen, .ident "y",
        .closeParen, .op .mul, .step .increment, .ident "z"]
      (.assign .set "x" (.binary .sub (.binary .sub (.num 0) (.num 2))
        (.binary .mul (.var "y") (.assign .add "z" (.num 1))))) :=
  (read_iff_derives.1 _ _ [.eof]).mp (by rfl)

end LineCompiler
