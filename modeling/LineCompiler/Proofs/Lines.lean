import LineCompiler.Proofs.Recognition
import LineCompiler.Proofs.Runs

/-!
# Lines are read one by one

A line end is a token of its own that no other token and no expression reaches across. What a line
is read as does therefore not depend on the lines behind it.

* `Token.scan_lines`: a text made of whole lines has tokens of its own, whatever text follows.
* `Script.Extends`: a script goes on where another one ends. `Cursor.script_extends` says this of
  the script of a text and of the script of its first lines.
* `Cursor.script_shift`: the numbers of the lines do not matter to what is read.
-/

namespace LineCompiler

/-! ## The tokens of a line -/

namespace Token

theorem scan_of_nil {text : List Char} (h : text.dropWhile isBlank = []) : scan text = [eof] := by
  rw [scan]
  split <;> simp_all

theorem scan_of_cons {text rest : List Char} {c : Char}
    (h : text.dropWhile isBlank = c :: rest) :
    scan text = (first c rest).1 :: scan (first c rest).2 := by
  rw [scan]
  split <;> simp_all

theorem ofPair?_newline (c : Char) : ofPair? c '\n' = none := by
  unfold ofPair?
  split <;> simp_all

theorem newline_ofPair? (c : Char) : ofPair? '\n' c = none := by
  unfold ofPair?
  split <;> simp_all

theorem firstSymbol_append (c : Char) (rest q : List Char) :
    firstSymbol c (rest ++ '\n' :: q) =
      ((firstSymbol c rest).1, (firstSymbol c rest).2 ++ '\n' :: q) := by
  cases rest with
  | nil => simp [firstSymbol, ofPair?_newline]
  | cons next rest =>
    rw [List.cons_append, firstSymbol, firstSymbol]
    split <;> rfl

theorem takeWhile_append_newline {p : Char → Bool} (hp : p '\n' = false) (rest q : List Char) :
    (rest ++ '\n' :: q).takeWhile p = rest.takeWhile p := by
  induction rest with
  | nil => simp [hp]
  | cons c rest ih =>
    rw [List.cons_append, List.takeWhile_cons, List.takeWhile_cons, ih]

theorem dropWhile_append_newline {p : Char → Bool} (hp : p '\n' = false) (rest q : List Char) :
    (rest ++ '\n' :: q).dropWhile p = rest.dropWhile p ++ '\n' :: q := by
  induction rest with
  | nil => simp [hp]
  | cons c rest ih =>
    rw [List.cons_append, List.dropWhile_cons, List.dropWhile_cons, ih]
    split <;> rfl

/-- No token reaches across the end of its line. -/
theorem first_append (c : Char) (rest q : List Char) :
    first c (rest ++ '\n' :: q) = ((first c rest).1, (first c rest).2 ++ '\n' :: q) := by
  unfold first
  rw [takeWhile_append_newline (by decide), dropWhile_append_newline (by decide),
    takeWhile_append_newline (by decide), dropWhile_append_newline (by decide),
    firstSymbol_append]
  split
  · rfl
  · split <;> rfl

/-- Tokens other than the two ends. -/
def Inner (t : Token) : Prop := t ≠ newline ∧ t ≠ eof

theorem inner_ofChar {c : Char} (h : c ≠ '\n') : (ofChar c).Inner := by
  unfold ofChar
  split <;> simp_all [Inner]

theorem inner_first {c : Char} (h : c ≠ '\n') (rest : List Char) : (first c rest).1.Inner := by
  unfold first
  split
  · exact ⟨nofun, nofun⟩
  · split
    · exact ⟨nofun, nofun⟩
    · cases rest with
      | nil => exact inner_ofChar h
      | cons next rest =>
        rw [firstSymbol]
        split
        · rename_i token hpair
          unfold ofPair? at hpair
          split at hpair <;> cases hpair <;> exact ⟨nofun, nofun⟩
        · exact inner_ofChar h

theorem first_newline (q : List Char) : first '\n' q = (newline, q) := by
  have hfirst : first '\n' q = firstSymbol '\n' q := by
    unfold first
    rw [if_neg (by decide), if_neg (by decide)]
  rw [hfirst]
  cases q with
  | nil => rfl
  | cons next q =>
    rw [firstSymbol, newline_ofPair?]
    rfl

theorem suffix_firstSymbol (c : Char) (rest : List Char) : (firstSymbol c rest).2 <:+ rest := by
  cases rest with
  | nil => exact List.suffix_refl _
  | cons next rest =>
    rw [firstSymbol]
    split
    · exact List.suffix_cons _ _
    · exact List.suffix_refl _

theorem suffix_first (c : Char) (rest : List Char) : (first c rest).2 <:+ rest := by
  unfold first
  split
  · exact List.dropWhile_suffix _
  · split
    · exact List.dropWhile_suffix _
    · exact suffix_firstSymbol c rest

/-- A line has tokens of its own, whatever text follows, and also where the text ends with it. -/
theorem scan_line (line : List Char) (hline : '\n' ∉ line) :
    ∃ ts : List Token, (∀ t ∈ ts, t.Inner) ∧ scan line = ts ++ [eof] ∧
      ∀ q, scan (line ++ '\n' :: q) = ts ++ newline :: scan q := by
  induction hlength : line.length using Nat.strongRecOn generalizing line with
  | ind length ih =>
    cases hdrop : line.dropWhile isBlank with
    | nil =>
      refine ⟨[], by simp, scan_of_nil hdrop, fun q => ?_⟩
      have hend : (line ++ '\n' :: q).dropWhile isBlank = '\n' :: q := by
        rw [dropWhile_append_newline (by decide), hdrop, List.nil_append]
      rw [scan_of_cons hend, first_newline, List.nil_append]
    | cons c rest =>
      have hsuffix : c :: rest <:+ line := hdrop ▸ List.dropWhile_suffix _
      have hc : c ≠ '\n' := fun h => hline (h ▸ hsuffix.mem List.mem_cons_self)
      have hfirst := suffix_first c rest
      have hrest : '\n' ∉ (first c rest).2 := fun h =>
        hline (hsuffix.mem (List.mem_cons_of_mem c (hfirst.mem h)))
      have hshort : (first c rest).2.length < length := by
        have := hsuffix.length_le
        have := hfirst.length_le
        rw [List.length_cons] at *
        omega
      obtain ⟨ts, hts, heof, hscan⟩ := ih _ hshort (first c rest).2 hrest rfl
      refine ⟨(first c rest).1 :: ts, ?_, ?_, fun q => ?_⟩
      · intro t ht
        rcases List.mem_cons.mp ht with rfl | ht
        · exact inner_first hc rest
        · exact hts t ht
      · rw [scan_of_cons hdrop, heof, List.cons_append]
      · have hstart : (line ++ '\n' :: q).dropWhile isBlank = c :: (rest ++ '\n' :: q) := by
          rw [dropWhile_append_newline (by decide), hdrop, List.cons_append]
        rw [scan_of_cons hstart, first_append, hscan, List.cons_append]

/-- The tokens of this many whole lines. -/
inductive Lines : List Token → Nat → Prop
  | nil : Lines [] 0
  | cons {line ts : List Token} {n : Nat} (hline : ∀ t ∈ line, t.Inner) (h : Lines ts n) :
      Lines (line ++ newline :: ts) (n + 1)

/-- A text made of whole lines has tokens of its own, whatever text follows. -/
theorem scan_lines (text : List Char) :
    ∃ ts, Lines ts (text.count '\n' + 1) ∧ ∀ q, scan (text ++ '\n' :: q) = ts ++ scan q := by
  induction hlength : text.length using Nat.strongRecOn generalizing text with
  | ind length ih =>
    by_cases hmem : '\n' ∈ text
    · obtain ⟨line, rest, rfl, hline⟩ := List.eq_append_cons_of_mem hmem
      obtain ⟨us, hus, -, hscan⟩ := scan_line line hline
      have hshort : rest.length < length := by
        rw [← hlength, List.length_append, List.length_cons]
        omega
      obtain ⟨ts, hts, hscan'⟩ := ih _ hshort rest rfl
      refine ⟨us ++ newline :: ts, ?_, fun q => ?_⟩
      · rw [List.count_append, List.count_cons_self, List.count_eq_zero_of_not_mem hline,
          Nat.zero_add]
        exact .cons hus hts
      · rw [List.append_assoc, List.cons_append, hscan, hscan', List.append_assoc, List.cons_append]
    · obtain ⟨us, hus, -, hscan⟩ := scan_line text hmem
      refine ⟨us ++ [newline], ?_, fun q => ?_⟩
      · rw [List.count_eq_zero_of_not_mem hmem]
        exact .cons hus .nil
      · rw [hscan, List.append_assoc]
        rfl

end Token

/-! ## Reading a line -/

/-- Reading stops in front of a token that no unfinished statement can go on with. -/
theorem Pending.advance_append {stop : Token} (hstop : ∀ p : Pending, p.next? stop = none)
    (p : Pending) (line rest : List Token) :
    p.advance (line ++ stop :: rest) =
      ((p.advance line).1, (p.advance line).2 ++ stop :: rest) := by
  induction line generalizing p with
  | nil => simp only [List.nil_append, advance, hstop]
  | cons token line ih =>
    rw [List.cons_append, advance, advance]
    split
    · exact ih _
    · rfl

theorem Statement.read_of_inner {token : Token} (h : token.Inner) (rest : List Token) :
    read (token :: rest) =
      match Pending.start.advance (token :: rest) with
      | (p, .newline :: rest) =>
        match p.complete? with
        | some e => (.ok (expr e), rest)
        | none => (.error p.fault, .newline :: rest)
      | (p, rest) => (.error p.fault, rest) := by
  unfold read
  split
  · rename_i htokens
    cases htokens
  · rename_i htokens
    cases htokens
    exact absurd rfl h.2
  · rename_i htokens
    cases htokens
    exact absurd rfl h.1
  · rfl

/-- What a line is read as does not depend on what follows. Unless there is a fault, the whole line
is consumed. -/
theorem Statement.read_line {line : List Token} (hline : ∀ t ∈ line, t.Inner) :
    ∃ result, ∀ rest, ∃ left, read (line ++ .newline :: rest) = (result, left) ∧
      ∀ s, result = .ok s → s ≠ .endOfText ∧ left = rest := by
  cases line with
  | nil =>
    refine ⟨.ok .blank, fun rest => ⟨rest, rfl, ?_⟩⟩
    rintro s ⟨⟩
    exact ⟨nofun, rfl⟩
  | cons token line =>
    have htoken := hline token List.mem_cons_self
    obtain ⟨p, unread, hadvance⟩ : ∃ p unread,
        Pending.start.advance (token :: line) = (p, unread) := ⟨_, _, rfl⟩
    have hread (rest : List Token) := Statement.read_of_inner htoken (line ++ .newline :: rest)
    simp only [← List.cons_append, Pending.advance_append Pending.next?_newline, hadvance] at hread
    cases unread with
    | nil =>
      cases hcomplete : p.complete? with
      | some e =>
        refine ⟨.ok (.expr e), fun rest => ⟨rest, ?_, ?_⟩⟩
        · rw [hread]
          simp [hcomplete]
        · rintro s ⟨⟩
          exact ⟨nofun, rfl⟩
      | none =>
        refine ⟨.error p.fault, fun rest => ⟨.newline :: rest, ?_, nofun⟩⟩
        rw [hread]
        simp [hcomplete]
    | cons stuck unread =>
      obtain ⟨consumed, htokens, -⟩ := Pending.exists_reads_of_advance hadvance
      have hstuck : stuck.Inner := hline stuck (by simp [htokens])
      refine ⟨.error p.fault, fun rest => ⟨stuck :: unread ++ .newline :: rest, ?_, nofun⟩⟩
      rw [hread]
      cases stuck with
      | newline => exact absurd rfl hstuck.1
      | _ => rfl

namespace Cursor

variable {line : List Token}

/-- The same for a cursor: its line number goes up with the line end. -/
theorem next_line (hline : ∀ t ∈ line, t.Inner) (n : Nat) :
    (∃ s, s ≠ .endOfText ∧
      ∀ rest, next ⟨line ++ .newline :: rest, n⟩ = (.ok s, ⟨rest, n + 1⟩)) ∨
    ∃ fault, ∀ rest, ∃ left, next ⟨line ++ .newline :: rest, n⟩ = (.error fault, ⟨left, n⟩) := by
  obtain ⟨result, hread⟩ := Statement.read_line hline
  cases result with
  | ok s =>
    have hs : s ≠ .endOfText := by
      obtain ⟨_, -, hok⟩ := hread []
      exact (hok s rfl).1
    refine .inl ⟨s, hs, fun rest => ?_⟩
    obtain ⟨left, hleft, hok⟩ := hread rest
    obtain ⟨-, rfl⟩ := hok s rfl
    simp only [next, hleft]
  | error fault =>
    refine .inr ⟨fault, fun rest => ?_⟩
    obtain ⟨left, hleft, -⟩ := hread rest
    exact ⟨left, by simp only [next, hleft]⟩

theorem next_eof (n : Nat) : next ⟨[.eof], n⟩ = (.ok .endOfText, ⟨[.eof], n⟩) := rfl

/-- The same place with the lines before it numbered on from `k`. -/
def shift (k : Nat) (c : Cursor) : Cursor := { c with line := c.line + k }

theorem next_shift (k : Nat) (c : Cursor) :
    (c.shift k).next = (c.next.1, c.next.2.shift k) := by
  unfold next shift
  dsimp only
  split
  · rfl
  · simp only [Nat.add_right_comm]
  · rfl

end Cursor

/-! ## Scripts of several lines -/

namespace Script

/-- The second script does what the first one does and goes on with `rest` where that ends. The
places in the text behind the statements are left open. -/
inductive Extends (rest : Script) : Script → Script → Prop
  | ends (c : Cursor) : Extends rest (.ends c) rest
  | faulty {c d : Cursor} (fault : Fault) (hline : c.line = d.line) :
      Extends rest (.faulty fault c) (.faulty fault d)
  | statement {s t : Script} (line : Nat) (tree : Expr) (c d : Cursor) (h : Extends rest s t) :
      Extends rest (.statement line tree c s) (.statement line tree d t)

/-- The script with other line numbers. -/
def shift (k : Nat) : Script → Script
  | .ends c => .ends (c.shift k)
  | .faulty fault c => .faulty fault (c.shift k)
  | .statement line tree c rest => .statement (line + k) tree (c.shift k) (rest.shift k)

end Script

/-- The script of a text begins with the script of its first lines. -/
theorem Cursor.script_extends {ts : List Token} {k : Nat} (h : Token.Lines ts k) (n : Nat)
    (us : List Token) :
    Script.Extends (script ⟨us, n + k⟩) (script ⟨ts ++ [.eof], n⟩) (script ⟨ts ++ us, n⟩) := by
  induction h generalizing n with
  | nil =>
    rw [List.nil_append, script_of_endOfText (next_eof n)]
    exact .ends _
  | @cons line ts k hline _ ih =>
    rw [List.append_assoc, List.append_assoc, List.cons_append, List.cons_append,
      ← Nat.add_assoc, Nat.add_right_comm]
    rcases next_line hline n with ⟨s, hs, hnext⟩ | ⟨fault, hnext⟩
    · cases s with
      | endOfText => exact absurd rfl hs
      | blank =>
        rw [script_of_blank (hnext _), script_of_blank (hnext _)]
        exact ih (n + 1)
      | expr tree =>
        rw [script_of_expr (hnext _), script_of_expr (hnext _)]
        exact .statement _ _ _ _ (ih (n + 1))
    · obtain ⟨left, hleft⟩ := hnext (ts ++ [.eof])
      obtain ⟨left', hleft'⟩ := hnext (ts ++ us)
      rw [script_of_error hleft, script_of_error hleft']
      exact .faulty fault rfl

theorem Cursor.script_shift (k : Nat) (c : Cursor) : (c.shift k).script = c.script.shift k := by
  induction c using Cursor.script.induct with
  | case1 c d hnext =>
    have hshift : (c.shift k).next = (.ok .endOfText, d.shift k) := by rw [next_shift, hnext]
    rw [script_of_endOfText hnext, script_of_endOfText hshift, Script.shift]
  | case2 c d hnext hlt ih =>
    have hshift : (c.shift k).next = (.ok .blank, d.shift k) := by rw [next_shift, hnext]
    rw [script_of_blank hnext, script_of_blank hshift, ih]
  | case3 c tree d hnext hlt ih =>
    have hshift : (c.shift k).next = (.ok (.expr tree), d.shift k) := by rw [next_shift, hnext]
    rw [script_of_expr hnext, script_of_expr hshift, ih, Script.shift]
    rfl
  | case4 c fault d hnext =>
    have hshift : (c.shift k).next = (.error fault, d.shift k) := by rw [next_shift, hnext]
    rw [script_of_error hnext, script_of_error hshift, Script.shift]

end LineCompiler
