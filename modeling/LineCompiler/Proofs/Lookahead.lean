import LineCompiler.Proofs.EarliestFault

/-!
# Reading with one token in hand

A cursor has all tokens of the rest of the text in front of it, and its line is that of the first of
them. The text can also be read with one token in hand: a `Reader` takes the next token from the
text when it uses up the one it has. The lines are then counted in two places, since a line end that
is in hand has been taken from the text, but has not been used up.

* `Reader.take` takes a token from a text, and `Reader.At` says where in a text a reader is.
  `Reader.At.advance` is the step over one token.
* `Reader.next` reads a statement. `Reader.At.next` says where it comes to, and
  `Reader.At.cursor_next` that it reads what the cursor there reads.
* `line_counts_line_ends` states both for any number of statements.
-/

namespace LineCompiler

namespace Token

/-- The first token of a text, and the text behind it. -/
def pull (text : List Char) : Token × List Char :=
  match text.dropWhile isBlank with
  | [] => (eof, [])
  | c :: rest => first c rest

theorem pull_of_nil {text : List Char} (h : text.dropWhile isBlank = []) :
    pull text = (eof, []) := by
  rw [pull, h]

theorem pull_of_cons {text rest : List Char} {c : Char} (h : text.dropWhile isBlank = c :: rest) :
    pull text = first c rest := by
  rw [pull, h]

theorem first_ne_eof (c : Char) (rest : List Char) : (first c rest).1 ≠ eof := by
  by_cases hc : c = '\n'
  · rw [hc, first_newline]
    exact Token.noConfusion
  · exact (inner_first hc rest).2

/-- Scanning takes one token after the other. -/
theorem scan_eq_pull (text : List Char) :
    scan text = (pull text).1 :: if (pull text).1 = eof then [] else scan (pull text).2 := by
  cases hdrop : text.dropWhile isBlank with
  | nil =>
    rw [scan_of_nil hdrop, pull_of_nil hdrop]
    rfl
  | cons c rest => rw [scan_of_cons hdrop, pull_of_cons hdrop, if_neg (first_ne_eof c rest)]

theorem length_pull_lt {text : List Char} (h : (pull text).1 ≠ eof) :
    (pull text).2.length < text.length := by
  cases hdrop : text.dropWhile isBlank with
  | nil =>
    rw [pull_of_nil hdrop] at h
    exact absurd rfl h
  | cons c rest =>
    have hle := length_dropWhile_le isBlank text
    have hfirst := length_first_le c rest
    rw [hdrop, List.length_cons] at hle
    rw [pull_of_cons hdrop]
    omega

/-- Between two texts, the token has this lexeme. The end of the text has no characters and nothing
behind it. -/
def Stands (before lexeme after : List Char) (token : Token) : Prop :=
  (IsLexeme before lexeme after token ∧ Shows lexeme token) ∨ token = eof ∧ lexeme = [] ∧ after = []

/-- The token that is taken from a text stands there behind some blanks. -/
theorem stands_pull {before text : List Char} (hclosed : Closed before text) :
    ∃ blanks lexeme, text = blanks ++ lexeme ++ (pull text).2 ∧ (∀ c ∈ blanks, isBlank c) ∧
      Closed (before ++ blanks ++ lexeme) (pull text).2 ∧
      (pull text).1.Stands (before ++ blanks) lexeme (pull text).2 := by
  have hsplit := List.takeWhile_append_dropWhile (p := isBlank) (l := text)
  have hblanks : ∀ c ∈ text.takeWhile isBlank, isBlank c := fun c => List.mem_takeWhile_imp
  cases hdrop : text.dropWhile isBlank with
  | nil =>
    rw [hdrop] at hsplit
    rw [pull_of_nil hdrop]
    refine ⟨text.takeWhile isBlank, [], by simpa using hsplit.symm, hblanks, ?_,
      .inr ⟨rfl, rfl, rfl⟩⟩
    exact Closed.of_head (by simp)
  | cons c rest =>
    have hc : ¬ isBlank c := dropWhile_head isBlank text c (by rw [hdrop]; rfl)
    rw [hdrop] at hsplit
    rw [pull_of_cons hdrop]
    -- no number and no word reaches across the blanks
    have hgap : Closed (before ++ text.takeWhile isBlank) (c :: rest) := by
      rw [← hsplit] at hclosed
      apply hclosed.append
      apply Closed.of_symbols
      intro d hd halphanum
      exact not_isBlank_of_isAlphanum halphanum (hblanks d hd)
    obtain ⟨lexeme, hlexeme, hend, hstands⟩ := isLexeme_first hgap hc
    refine ⟨text.takeWhile isBlank, lexeme, ?_, hblanks, ?_, .inl hstands⟩
    · rw [List.append_assoc, ← hlexeme, hsplit]
    · rw [hlexeme] at hgap
      exact hgap.append hend

end Token

/-- The number of line ends that are used up where this is read. -/
def Statement.lineEnds : Except Fault Statement → Nat
  | .ok .endOfText | .error _ => 0
  | .ok _ => 1

theorem Cursor.next_eq (c : Cursor) :
    c.next = ((Statement.read c.tokens).1,
      ⟨(Statement.read c.tokens).2, c.line + Statement.lineEnds (Statement.read c.tokens).1⟩) := by
  unfold next
  split
  · rename_i hread
    rw [hread]
    rfl
  · rename_i s tokens hs hread
    rw [hread]
    cases s with
    | endOfText => exact absurd rfl hs
    | blank | expr => rfl
  · rename_i hread
    rw [hread]
    rfl

/-- A reader with a token in hand. -/
structure Reader where
  token : Token
  /-- The text behind the token. -/
  rest : List Char
  /-- The line on which the text behind the token begins. -/
  restLine : Nat
  /-- The line of the token. -/
  line : Nat
  deriving DecidableEq, Repr

namespace Reader

/-- Takes the first token of a text that begins on `line`. -/
def take (text : List Char) (line : Nat) : Reader where
  token := (Token.pull text).1
  rest := (Token.pull text).2
  restLine := if (Token.pull text).1 = .newline then line + 1 else line
  line := line

def ofText (text : String) : Reader := take text.toList 1

/-- Takes the next token. -/
def advance (r : Reader) : Reader := take r.rest r.restLine

/-- A bound for the number of tokens before the end of the text. -/
def size (r : Reader) : Nat := if r.token = .eof then 0 else r.rest.length + 1

theorem size_advance_lt {r : Reader} (h : r.token ≠ .eof) : r.advance.size < r.size := by
  rw [size, size, if_neg h]
  split
  · exact Nat.succ_pos _
  · rename_i hnext
    exact Nat.succ_lt_succ (Token.length_pull_lt hnext)

theorem token_ne_eof {p q : Pending} {r : Reader} (h : p.next? r.token = some q) :
    r.token ≠ .eof := by
  intro heof
  rw [heof, Pending.next?_eof] at h
  cases h

/-- Uses up as many tokens as the expression can go on with. -/
def expression (p : Pending) (r : Reader) : Pending × Reader :=
  match h : p.next? r.token with
  | some q =>
    have : r.advance.size < r.size := size_advance_lt (token_ne_eof h)
    r.advance.expression q
  | none => (p, r)
termination_by r.size

/-- Ends an expression with the token in hand. A line end is used up if the expression may end
there. -/
def finish (p : Pending) (r : Reader) : Except Fault Statement × Reader :=
  match r.token, p.complete? with
  | .newline, some e => (.ok (.expr e), r.advance)
  | _, _ => (.error p.fault, r)

/-- Reads one statement and uses up the line end that closes it. -/
def next (r : Reader) : Except Fault Statement × Reader :=
  match r.token with
  | .eof => (.ok .endOfText, r)
  | .newline => (.ok .blank, r.advance)
  | _ => (r.expression .start).2.finish (r.expression .start).1

/-! ## Where a reader is -/

/-- The reader has taken its token from what is behind a part of the text, and counts the lines of
this part. -/
def At (text : List Char) (r : Reader) : Prop :=
  ∃ front back, text = front ++ back ∧ Token.Closed front back ∧
    r = take back (front.count '\n' + 1)

variable {text : List Char} {r : Reader}

theorem at_ofText (text : String) : (ofText text).At text.toList :=
  ⟨[], text.toList, rfl, .nil_left _, rfl⟩

theorem At.restLine_eq (h : r.At text) :
    r.restLine = if r.token = .newline then r.line + 1 else r.line := by
  obtain ⟨front, back, -, -, rfl⟩ := h
  rfl

/-- The token in hand stands behind all the line ends that its line counts. -/
theorem At.stands (h : r.At text) :
    ∃ front lexeme, text = front ++ lexeme ++ r.rest ∧ Token.Closed (front ++ lexeme) r.rest ∧
      r.token.Stands front lexeme r.rest ∧ r.line = front.count '\n' + 1 := by
  obtain ⟨front, back, rfl, hclosed, rfl⟩ := h
  obtain ⟨blanks, lexeme, hback, hblanks, hend, hstands⟩ := Token.stands_pull hclosed
  have hcount := Token.count_newline_of_isBlank hblanks
  refine ⟨front ++ blanks, lexeme, ?_, hend, hstands, ?_⟩
  · rw [List.append_assoc, List.append_assoc]
    exact congrArg (front ++ ·) (by rw [← List.append_assoc]; exact hback)
  · rw [List.count_append, hcount]
    rfl

theorem At.advance (h : r.At text) (hne : r.token ≠ .eof) : r.advance.At text := by
  obtain ⟨front, lexeme, htext, hclosed, hstands, hline⟩ := h.stands
  obtain ⟨hlexeme, -⟩ | ⟨heof, -⟩ := hstands
  · refine ⟨front ++ lexeme, r.rest, htext, hclosed, ?_⟩
    have hrest : r.restLine = (front ++ lexeme).count '\n' + 1 := by
      rw [h.restLine_eq, List.count_append, hlexeme.count_newline, hline]
      split
      · rfl
      · rfl
    rw [Reader.advance, hrest]
  · exact absurd heof hne

theorem ne_eof_of_newline (h : r.token = .newline) : r.token ≠ .eof := by
  rw [h]
  exact Token.noConfusion

/-- Using up a line end is what raises the line. -/
theorem At.advance_newline (h : r.At text) (htoken : r.token = .newline) :
    r.advance.At text ∧ r.advance.line = r.line + 1 := by
  refine ⟨h.advance (ne_eof_of_newline htoken), ?_⟩
  show r.restLine = r.line + 1
  rw [h.restLine_eq, if_pos htoken]

theorem At.expression (h : r.At text) (p : Pending) :
    (r.expression p).2.At text ∧ (r.expression p).2.line = r.line := by
  fun_induction r.expression p with
  | case1 p r q hnext _ ih =>
    have hinner : r.token ≠ .newline := by
      intro hnewline
      rw [hnewline, Pending.next?_newline] at hnext
      cases hnext
    obtain ⟨hat, hline⟩ := ih (h.advance (token_ne_eof hnext))
    refine ⟨hat, hline.trans ?_⟩
    show r.restLine = r.line
    rw [h.restLine_eq, if_neg hinner]
  | case2 p r hnext => exact ⟨h, rfl⟩

theorem At.finish (h : r.At text) (p : Pending) :
    (r.finish p).2.At text ∧ (r.finish p).2.line = r.line + Statement.lineEnds (r.finish p).1 := by
  unfold Reader.finish
  split
  · rename_i htoken _
    exact h.advance_newline htoken
  · exact ⟨h, rfl⟩

theorem At.next (h : r.At text) :
    r.next.2.At text ∧ r.next.2.line = r.line + Statement.lineEnds r.next.1 := by
  unfold Reader.next
  split
  · exact ⟨h, rfl⟩
  · rename_i htoken
    exact h.advance_newline htoken
  · obtain ⟨hat, hline⟩ := h.expression .start
    rw [← hline]
    exact hat.finish _

/-! ## What a reader reads -/

/-- The token in hand and those of the text behind it. -/
def tokens (r : Reader) : List Token :=
  r.token :: if r.token = .eof then [] else Token.scan r.rest

/-- The cursor at the token in hand. -/
def cursor (r : Reader) : Cursor := ⟨r.tokens, r.line⟩

theorem tokens_of_ne_eof (h : r.token ≠ .eof) : r.tokens = r.token :: r.advance.tokens := by
  rw [tokens, if_neg h, Token.scan_eq_pull]
  rfl

theorem advance_tokens (p : Pending) (r : Reader) :
    p.advance r.tokens = ((r.expression p).1, (r.expression p).2.tokens) := by
  fun_induction r.expression p with
  | case1 p r q hnext _ ih =>
    rw [tokens_of_ne_eof (token_ne_eof hnext), Pending.advance, hnext]
    exact ih
  | case2 p r hnext => rw [tokens, Pending.advance, hnext]

/-- A reader reads what the tokens are read as. -/
theorem read_tokens (r : Reader) : Statement.read r.tokens = (r.next.1, r.next.2.tokens) := by
  unfold Reader.next
  split
  · rename_i htoken
    rw [tokens, htoken]
    rfl
  · rename_i htoken
    rw [tokens_of_ne_eof (ne_eof_of_newline htoken), htoken]
    rfl
  · rename_i heof hnewline
    have hadvance := advance_tokens .start r
    rw [tokens] at hadvance ⊢
    rw [Statement.read_of_inner ⟨hnewline, heof⟩, hadvance]
    generalize (r.expression .start).1 = p
    generalize (r.expression .start).2 = s
    unfold finish
    cases htoken : s.token with
    | newline =>
      have hs : s.tokens = .newline :: s.advance.tokens := by
        rw [tokens_of_ne_eof (ne_eof_of_newline htoken), htoken]
      cases hcomplete : p.complete? with
      | some e => simp only [hs, hcomplete]
      | none => simp only [hs, hcomplete]
    | _ =>
      rw [tokens, htoken]

/-- A reader reads what is read at its cursor, and goes on to where the cursor goes on to. -/
theorem At.cursor_next (h : r.At text) : r.cursor.next = (r.next.1, r.next.2.cursor) := by
  rw [Cursor.next_eq, cursor, cursor, read_tokens, h.next.2]

/-! ## Several statements -/

/-- The reader after some statements of a text, also after those that are at fault. -/
def after (text : String) (calls : Nat) : Reader :=
  (fun r : Reader => r.next.2)^[calls] (ofText text)

theorem at_after (text : String) (calls : Nat) : (after text calls).At text.toList :=
  Function.Iterate.rec (At text.toList) (at_ofText text) (fun _ hr => hr.next.1) calls

/-- Reader and cursor stay together. -/
theorem cursor_after (text : String) (calls : Nat) :
    (after text calls).cursor = Cursor.after text calls := by
  induction calls with
  | zero =>
    have htokens : (ofText text).tokens = Token.ofString text :=
      (Token.scan_eq_pull text.toList).symm
    exact congrArg (Cursor.mk · 1) htokens
  | succ calls ih =>
    rw [after, Cursor.after, Function.iterate_succ_apply', Function.iterate_succ_apply', ← after,
      ← Cursor.after, ← ih, (at_after text calls).cursor_next]

end Reader

/-- **Lines are counted by line ends.** Read any number of statements of a text, going on behind the
faults and at the end of the text. The token ahead stands somewhere in the text, and its line is one
more than the number of line ends in front of it. So the line goes up by one with every blank line
and every expression that is read, and it stays at a fault and at the end of the text. A reader that
takes one token at a time from the text, and looks at its count of the line ends before each of
them, reads the same and has the same line. -/
theorem line_counts_line_ends (text : String) (calls : Nat) :
    let c := Cursor.after text calls
    let r := Reader.after text calls
    (∃ front lexeme, text.toList = front ++ lexeme ++ r.rest ∧ r.token.Stands front lexeme r.rest ∧
      c.tokens = r.tokens ∧ c.line = 1 + front.count '\n') ∧
    (∀ s, c.next.1 = .ok s → s ≠ .endOfText → c.next.2.line = c.line + 1) ∧
    (c.next.1 = .ok .endOfText → c.next.2.line = c.line) ∧
    (∀ fault, c.next.1 = .error fault → c.next.2.line = c.line) ∧
    r.line = c.line ∧ r.next.1 = c.next.1 ∧ r.next.2.line = c.next.2.line := by
  intro c r
  have hat : r.At text.toList := Reader.at_after text calls
  have hcursor : c = r.cursor := (Reader.cursor_after text calls).symm
  have hnext : c.next = (r.next.1, r.next.2.cursor) := by rw [hcursor, hat.cursor_next]
  obtain ⟨front, lexeme, htext, -, hstands, hline⟩ := hat.stands
  refine ⟨⟨front, lexeme, htext, hstands, ?_, ?_⟩, ?_, ?_, ?_, ?_, ?_, ?_⟩
  · rw [hcursor]
    rfl
  · rw [Nat.add_comm, ← hline, hcursor]
    rfl
  · intro s hs hne
    exact Cursor.line_of_next_ok (Prod.ext hs rfl) hne
  · intro hs
    exact Cursor.line_of_next_endOfText (Prod.ext hs rfl)
  · intro fault hfault
    exact Cursor.line_of_next_error (Prod.ext hfault rfl)
  · rw [hcursor]
    rfl
  · rw [hnext]
  · rw [hnext]
    rfl

end LineCompiler
