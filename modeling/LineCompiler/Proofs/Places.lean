import LineCompiler.Proofs.LastLine
import LineCompiler.Proofs.Lexemes

/-!
# Places in a text

A cursor only knows the tokens in front of it and the number of their line. This module says where
in the text that is.

* `Token.Decomposes.split`: a beginning of the tokens of a text belongs to a beginning of the text,
  and both have the same number of line ends.
* `Cursor.StandsIn`: the cursor stands behind a part of the text, on the line that the line ends of
  this part make. `Cursor.StandsIn.next` is the step over one statement.
* `Cursor.Passes`: the statements read on the way from one cursor to another. Their lines go up
  (`Cursor.Passes.increasing`).
-/

namespace LineCompiler

/-! ## Line ends among the tokens -/

namespace Token

theorem newline_notMem_of_isWord {run : List Char} (h : IsNumber run ∨ IsWord run) :
    '\n' ∉ run := by
  intro hmem
  rcases isAlphanum_of_mem h hmem with halphanum | hunderscore
  · exact absurd halphanum (by decide)
  · exact absurd hunderscore (by decide)

/-- The lexeme of a line end is the only one with a line end in it. -/
theorem IsLexeme.count_newline {before lexeme after : List Char} {token : Token}
    (h : IsLexeme before lexeme after token) :
    lexeme.count '\n' = if token = newline then 1 else 0 := by
  cases token with
  | num digits => exact List.count_eq_zero_of_not_mem (newline_notMem_of_isWord (.inl h.1))
  | ident name => exact List.count_eq_zero_of_not_mem (newline_notMem_of_isWord (.inr h.1))
  | op o =>
    rw [h.1]
    cases o <;> rfl
  | assign o =>
    rw [h]
    cases o <;> rfl
  | step o =>
    rw [h]
    cases o <;> rfl
  | openParen | closeParen | newline =>
    rw [h]
    rfl
  | eof => exact h.elim
  | unknown c =>
    obtain ⟨rfl, -, hc⟩ := h
    refine List.count_eq_zero_of_not_mem fun hmem => hc ?_
    rw [← List.mem_singleton.mp hmem]
    decide

theorem count_newline_of_isBlank {blanks : List Char} (h : ∀ c ∈ blanks, isBlank c) :
    blanks.count '\n' = 0 := by
  apply List.count_eq_zero_of_not_mem
  intro hmem
  have hblank := h '\n' hmem
  contradiction

theorem Piece.Fits.count_newline {before after : List Char} {p : Piece} (h : p.Fits before after) :
    p.chars.count '\n' = if p.token = newline then 1 else 0 := by
  have hblanks : p.blanks.count '\n' = 0 := by
    apply count_newline_of_isBlank
    intro c hc
    exact isBlank_iff.mpr (h.blank c hc)
  rw [Piece.chars, List.count_append, hblanks, Nat.zero_add, h.isLexeme.count_newline]

/-- The tokens up to some place are those of the text up to some place. The end of the text is no
token that stands before any place. -/
theorem Decomposes.split {before text blanks : List Char} {pieces : List Piece}
    (h : Decomposes before text pieces blanks) {ts rest : List Token}
    (htokens : scan text = ts ++ rest) (hrest : rest ≠ []) :
    ∃ front back, text = front ++ back ∧ rest = scan back ∧
      front.count '\n' = ts.count newline := by
  induction ts generalizing before text pieces with
  | nil => exact ⟨[], text, rfl, htokens.symm, rfl⟩
  | cons t ts ih =>
    have hscan := h.scan_eq
    rw [htokens] at hscan
    cases pieces with
    | nil =>
      obtain ⟨-, hnil⟩ := List.cons_eq_cons.mp hscan
      exact absurd (List.append_eq_nil_iff.mp hnil).2 hrest
    | cons p pieces =>
      obtain ⟨back, rfl, hp, hback⟩ := h.uncons
      obtain ⟨rfl, hpieces⟩ := List.cons_eq_cons.mp hscan
      obtain ⟨front', back', rfl, rfl, hcount⟩ := ih hback (hback.scan_eq.trans hpieces.symm)
      refine ⟨p.chars ++ front', back', (List.append_assoc _ _ _).symm, rfl, ?_⟩
      rw [List.count_append, hp.count_newline, hcount, List.count_cons, Nat.add_comm]
      simp

theorem eof_mem_scan (text : List Char) : eof ∈ scan text := by
  obtain ⟨pieces, blanks, h⟩ := exists_decomposes [] text (.nil_left _)
  rw [h.scan_eq]
  exact List.mem_append_right _ List.mem_cons_self

theorem count_newline_inner {line : List Token} (hline : ∀ t ∈ line, t.Inner) :
    line.count newline = 0 :=
  List.count_eq_zero_of_not_mem fun hmem => (hline _ hmem).1 rfl

end Token

/-! ## What a statement consumes -/

/-- An expression goes on with neither of the two ends. -/
theorem Pending.inner_of_reads {p q : Pending} {ts : List Token} (h : p.reads ts = some q) :
    ∀ t ∈ ts, t.Inner := by
  induction ts generalizing p with
  | nil =>
    intro t ht
    cases ht
  | cons token ts ih =>
    obtain ⟨r, hnext, hrest⟩ := Option.bind_eq_some_iff.mp h
    intro t ht
    rcases List.mem_cons.mp ht with rfl | ht
    · constructor
      · rintro rfl
        rw [next?_newline] at hnext
        cases hnext
      · rintro rfl
        rw [next?_eof] at hnext
        cases hnext
    · exact ih hrest t ht

/-- A statement consumes nothing at the end of the text, its line with the line end if it can be
read, and a part of its line otherwise. -/
theorem Statement.read_cases (tokens : List Token) :
    read tokens = (.ok .endOfText, tokens) ∨
    (∃ s line rest, read tokens = (.ok s, rest) ∧ s ≠ .endOfText ∧ (∀ t ∈ line, t.Inner) ∧
      tokens = line ++ .newline :: rest) ∨
    ∃ fault line rest, read tokens = (.error fault, rest) ∧ (∀ t ∈ line, t.Inner) ∧
      tokens = line ++ rest := by
  unfold read
  split
  · exact .inl rfl
  · exact .inl rfl
  · rename_i rest
    exact .inr (.inl ⟨.blank, [], rest, rfl, Statement.noConfusion, by simp, rfl⟩)
  · split
    · rename_i p rest hadvance
      obtain ⟨line, htokens, hreads⟩ := Pending.exists_reads_of_advance hadvance
      have hline := Pending.inner_of_reads hreads
      split
      · rename_i tree _
        exact .inr (.inl ⟨.expr tree, line, rest, rfl, Statement.noConfusion, hline, htokens⟩)
      · exact .inr (.inr ⟨p.fault, line, .newline :: rest, rfl, hline, htokens⟩)
    · rename_i p rest _ hadvance
      obtain ⟨line, htokens, hreads⟩ := Pending.exists_reads_of_advance hadvance
      exact .inr (.inr ⟨p.fault, line, rest, rfl, Pending.inner_of_reads hreads, htokens⟩)

/-! ## Where a cursor stands -/

namespace Cursor

variable {c d : Cursor} {text : List Char}

/-- The cursor has a part of the text behind it and the tokens of the rest before it, and its line
is the one on which the rest begins. -/
def StandsIn (text : List Char) (c : Cursor) : Prop :=
  ∃ front back, text = front ++ back ∧ c.tokens = Token.scan back ∧ c.line = front.count '\n' + 1

theorem standsIn_ofString (text : String) :
    StandsIn text.toList { tokens := Token.ofString text } :=
  ⟨[], text.toList, rfl, rfl, rfl⟩

/-- Going on over some tokens. -/
theorem StandsIn.skip (h : c.StandsIn text) {ts rest : List Token} (htokens : c.tokens = ts ++ rest)
    (heof : .eof ∉ ts) : StandsIn text ⟨rest, c.line + ts.count .newline⟩ := by
  obtain ⟨front, back, rfl, hback, hline⟩ := h
  rw [hback] at htokens
  have hrest : rest ≠ [] := by
    rintro rfl
    have hmem := Token.eof_mem_scan back
    rw [htokens, List.append_nil] at hmem
    exact heof hmem
  obtain ⟨pieces, blanks, hpieces⟩ := Token.exists_decomposes [] back (.nil_left _)
  obtain ⟨front', back', rfl, rfl, hcount⟩ := hpieces.split htokens hrest
  refine ⟨front ++ front', back', (List.append_assoc _ _ _).symm, rfl, ?_⟩
  rw [List.count_append, hcount]
  show c.line + ts.count .newline = _
  omega

theorem StandsIn.next (h : c.StandsIn text) : c.next.2.StandsIn text := by
  have hinner {line : List Token} (hline : ∀ t ∈ line, t.Inner) : .eof ∉ line :=
    fun hmem => (hline _ hmem).2 rfl
  rcases Statement.read_cases c.tokens with hread | ⟨s, line, rest, hread, hs, hline, htokens⟩ |
    ⟨fault, line, rest, hread, hline, htokens⟩
  · simpa only [Cursor.next, hread] using h
  · have hended : c.tokens = (line ++ [.newline]) ++ rest := by simpa using htokens
    have hskip := h.skip hended (by simpa using hinner hline)
    rw [List.count_append, Token.count_newline_inner hline, List.count_singleton_self,
      Nat.zero_add] at hskip
    cases s with
    | endOfText => exact absurd rfl hs
    | blank | expr => simpa only [Cursor.next, hread] using hskip
  · have hskip := h.skip htokens (hinner hline)
    rw [Token.count_newline_inner hline, Nat.add_zero] at hskip
    simpa only [Cursor.next, hread] using hskip

theorem line_of_next_ok {s : Statement} (h : c.next = (.ok s, d)) (hs : s ≠ .endOfText) :
    d.line = c.line + 1 := by
  unfold next at h
  split at h
  · cases h
    exact absurd rfl hs
  · cases h
    rfl
  · cases h

/-! ## From one cursor to another -/

/-- Reading leads from the first cursor to the second one, over these statements and any number of
blank lines. Each statement is given with its line. -/
inductive Passes : Cursor → List (Nat × Expr) → Cursor → Prop
  | refl (c : Cursor) : Passes c [] c
  | blank {c d e : Cursor} {passed : List (Nat × Expr)} (hnext : c.next = (.ok .blank, d))
      (h : Passes d passed e) : Passes c passed e
  | expr {c d e : Cursor} {tree : Expr} {passed : List (Nat × Expr)}
      (hnext : c.next = (.ok (.expr tree), d)) (h : Passes d passed e) :
      Passes c ((c.line, tree) :: passed) e

namespace Passes

variable {passed : List (Nat × Expr)}

theorem standsIn (h : Passes c passed d) (hc : c.StandsIn text) : d.StandsIn text := by
  induction h with
  | refl c => exact hc
  | blank hnext _ ih =>
    have hd := hc.next
    rw [hnext] at hd
    exact ih hd
  | expr hnext _ ih =>
    have hd := hc.next
    rw [hnext] at hd
    exact ih hd

theorem line_bounds (h : Passes c passed d) :
    c.line ≤ d.line ∧ ∀ s ∈ passed, c.line ≤ s.1 ∧ s.1 < d.line := by
  induction h with
  | refl c => exact ⟨Nat.le_refl _, by simp⟩
  | blank hnext _ ih =>
    have hline := line_of_next_ok hnext Statement.noConfusion
    obtain ⟨hle, hpassed⟩ := ih
    refine ⟨by omega, fun s hs => ?_⟩
    have := hpassed s hs
    omega
  | expr hnext _ ih =>
    have hline := line_of_next_ok hnext Statement.noConfusion
    obtain ⟨hle, hpassed⟩ := ih
    refine ⟨by omega, fun s hs => ?_⟩
    rcases List.mem_cons.mp hs with rfl | hs
    · exact ⟨Nat.le_refl _, by omega⟩
    · have := hpassed s hs
      omega

/-- No two statements stand on one line. -/
theorem increasing (h : Passes c passed d) : (passed.map Prod.fst).Pairwise (· < ·) := by
  induction h with
  | refl c => exact List.Pairwise.nil
  | blank _ _ ih => exact ih
  | expr hnext hrest ih =>
    have hline := line_of_next_ok hnext Statement.noConfusion
    refine List.Pairwise.cons (fun line hmem => ?_) ih
    obtain ⟨s, hs, rfl⟩ := List.mem_map.mp hmem
    have := (hrest.line_bounds.2 s hs).1
    omega

end Passes

end Cursor

end LineCompiler
