import LineCompiler.Proofs.Names
import LineCompiler.Proofs.Wrapping

/-!
# The values of written numbers

A number may be written with any number of digits. The scanner keeps the first 255 of them, and the
digits that are kept are read with wrapping arithmetic.

* `Token.decimal`: the value of a run of digits, without bounds. `Expr.literal_eq` says that
  wrapping after every digit comes to the same as wrapping this value once.
* `Token.scan_append`: a number that stands on its own in a text does not change the tokens in front
  of it, and `Token.scan_run` adds that it is one token, however long it is.
* `Derives.numerals`: the numbers of an expression are those of its tokens, in order.
-/

namespace LineCompiler

/-! ## Decimal values -/

/-- The value of a run of digits, where every digit counts ten times as much as the one behind
it. -/
def Token.decimal (run : List Char) : Int :=
  Nat.ofDigits 10 (run.reverse.map fun c => c.toNat - '0'.toNat)

theorem Token.decimal_concat (run : List Char) (c : Char) :
    decimal (run ++ [c]) = 10 * decimal run + (c.toNat - '0'.toNat : Nat) := by
  rw [decimal, List.reverse_concat, List.map_cons, Nat.ofDigits, add_comm, ← decimal]

theorem Token.ofDigitChars_eq_decimal (run : List Char) :
    (Nat.ofDigitChars 10 run 0 : Int) = decimal run := by
  induction run using List.reverseRecOn with
  | nil => rfl
  | append_singleton run c ih =>
    rw [Nat.ofDigitChars, List.foldl_concat, ← Nat.ofDigitChars, decimal_concat, ← ih]
    push_cast
    rfl

theorem Expr.literal_eq (digits : String) :
    literal digits = num (Int32.ofInt (Token.decimal digits.toList)) := by
  rw [literal, valueOfDigits_eq, ← Token.ofDigitChars_eq_decimal, Int32.ofInt_eq_ofNat]

/-! ## Numbers in a text -/

namespace Token

variable {before rest after run : List Char} {c d : Char}

/-- Where a run of some characters has ended, more text behind it does not change it. -/
theorem takeWhile_append_of_exists {p : Char → Bool} (h : ∃ c ∈ before, ¬ p c) :
    (before ++ rest).takeWhile p = before.takeWhile p ∧
      (before ++ rest).dropWhile p = before.dropWhile p ++ rest := by
  induction before with
  | nil => simp at h
  | cons c before ih =>
    by_cases hc : p c
    · have hlater : ∃ c ∈ before, ¬ p c := by
        obtain ⟨e, he, hp⟩ := h
        rcases List.mem_cons.mp he with rfl | he
        · exact absurd hc hp
        · exact ⟨e, he, hp⟩
      simp [hc, ih hlater]
    · simp [hc]

theorem ofPair?_of_isDigit (c : Char) (hd : d.isDigit) : ofPair? c d = none := by
  unfold ofPair?
  split <;> simp_all

/-- A digit that nothing reaches changes no token in front of it. -/
theorem first_append_of_closed (hclosed : Closed (c :: before) (d :: rest)) (hd : d.isDigit) :
    first c (before ++ d :: rest) = ((first c before).1, (first c before).2 ++ d :: rest) := by
  have hreach := hclosed (c :: before) [d] (List.suffix_refl _) ⟨rest, rfl⟩
  unfold first
  split
  · rename_i hc
    have hend : ∃ e ∈ before, ¬ e.isDigit := by
      by_contra hall
      push Not at hall
      have hnumber : IsNumber (c :: before ++ [d]) := by
        refine ⟨by simp, fun e he => ?_⟩
        simp only [List.mem_append, List.mem_cons, List.not_mem_nil, or_false] at he
        rcases he with (rfl | he) | rfl
        · exact hc
        · exact hall e he
        · exact hd
      simpa using hreach (.inl hnumber)
    rw [(takeWhile_append_of_exists hend).1, (takeWhile_append_of_exists hend).2]
  · split
    · rename_i hc
      have hend : ∃ e ∈ before, ¬ isWordChar e := by
        by_contra hall
        push Not at hall
        have hword : IsWord (c :: before ++ [d]) := by
          refine ⟨hc, fun e he => ?_⟩
          rcases List.mem_append.mp he with he | he
          · simpa [isWordChar] using hall e he
          · rw [List.mem_singleton.mp he]
            exact .inl (isAlphanum_of_isDigit hd)
        simpa using hreach (.inr hword)
      rw [(takeWhile_append_of_exists hend).1, (takeWhile_append_of_exists hend).2]
    · cases before with
      | nil => simp [firstSymbol, ofPair?_of_isDigit c hd]
      | cons next before =>
        rw [List.cons_append, firstSymbol, firstSymbol]
        split <;> rfl

/-- **Nothing is taken from a number that stands on its own.** The tokens in front of it are those
of the text in front of it. -/
theorem scan_append (hclosed : Closed before (d :: rest)) (hd : d.isDigit) :
    ∃ front, scan before = front ++ [eof] ∧
      scan (before ++ d :: rest) = front ++ scan (d :: rest) := by
  induction before using scan.induct with
  | case1 before hdrop =>
    refine ⟨[], scan_of_nil hdrop, ?_⟩
    have hblanks : ∀ c ∈ before, isBlank c := List.dropWhile_eq_nil_iff.mp hdrop
    exact scan_gap hblanks _
  | case2 before c tail hdrop hlt ih =>
    have hsuffix : c :: tail <:+ before := hdrop ▸ List.dropWhile_suffix _
    have hrest : (first c tail).2 <:+ before :=
      (suffix_first c tail).trans ((List.suffix_cons c tail).trans hsuffix)
    have hmono {part : List Char} (hpart : part <:+ before) : Closed part (d :: rest) :=
      fun l r hl => hclosed l r (hl.trans hpart)
    obtain ⟨front, hbefore, happend⟩ := ih (hmono hrest)
    have hdrop' : (before ++ d :: rest).dropWhile isBlank = c :: (tail ++ d :: rest) := by
      have hc : ∃ e ∈ before, ¬ isBlank e :=
        ⟨c, hsuffix.mem List.mem_cons_self, dropWhile_head isBlank before c (by rw [hdrop]; rfl)⟩
      rw [(takeWhile_append_of_exists hc).2, hdrop, List.cons_append]
    refine ⟨(first c tail).1 :: front, ?_, ?_⟩
    · rw [scan_of_cons hdrop, hbefore, List.cons_append]
    · rw [scan_of_cons hdrop', first_append_of_closed (hmono hsuffix) hd, happend, List.cons_append]

/-- A run of digits that stands on its own is one token, which keeps the first digits. -/
theorem scan_run (hrun : IsNumber run) (hclosed : Closed before (run ++ after))
    (hafter : ∀ c ∈ after.head?, ¬ c.isDigit) :
    ∃ front, scan before = front ++ [eof] ∧
      scan (before ++ run ++ after) = front ++ num (clip run) :: scan after := by
  have hend := Closed.of_number hrun hafter
  have hlexeme : IsLexeme [] run after (num (clip run)) :=
    (Closed.nil_left _).maximal (fun _ => .inl) hend hrun
  have hnumber : scan (run ++ after) = num (clip run) :: scan after := scan_lexeme hlexeme rfl
  obtain ⟨d, digits, rfl⟩ := List.exists_cons_of_ne_nil hrun.1
  obtain ⟨front, hbefore, happend⟩ := scan_append hclosed (hrun.2 d List.mem_cons_self)
  refine ⟨front, hbefore, ?_⟩
  rw [List.append_assoc, ← hnumber]
  exact happend

theorem isDigit_of_mem_scan {text : List Char} {digits : String} (h : num digits ∈ scan text) :
    ∀ c ∈ digits.toList, c.isDigit := by
  obtain ⟨pieces, blanks, hpieces⟩ := exists_decomposes [] text (.nil_left _)
  rw [hpieces.scan_eq] at h
  have hmem : num digits ∈ pieces.map Piece.token := by simpa using h
  obtain ⟨p, hp, htoken⟩ := List.mem_map.mp hmem
  obtain ⟨l, r, hsplit⟩ := List.append_of_mem hp
  have hfits := hpieces.fits l p r hsplit
  have hlexeme := hfits.isLexeme
  have hshows := hfits.shows
  rw [htoken] at hlexeme hshows
  have hdigits : digits = String.ofList (p.lexeme.take 255) := hshows
  intro c hc
  rw [hdigits, String.toList_ofList] at hc
  exact hlexeme.1.2 c (List.mem_of_mem_take hc)

/-! ## Numbers of a statement -/

/-- The numbers that the tokens of an expression stand for, where `ended` says whether an operand
has just ended. A step counts by 1, and a sign is taken between 0 and its operand. -/
def numerals (ended : Bool) : List Token → List Int
  | [] => []
  | num digits :: rest => decimal digits.toList :: numerals true rest
  | ident _ :: rest => numerals true rest
  | closeParen :: rest => numerals true rest
  | op _ :: rest => if ended then numerals false rest else 0 :: numerals false rest
  | step _ :: rest => 1 :: numerals false rest
  | _ :: rest => numerals false rest

theorem numerals_append_num (ended : Bool) (front : List Token) (digits : String)
    (rest : List Token) :
    numerals ended (front ++ num digits :: rest) =
      numerals ended front ++ decimal digits.toList :: numerals true rest := by
  induction front generalizing ended with
  | nil => rfl
  | cons t front ih =>
    cases t with
    | op =>
      rw [List.cons_append, numerals, numerals, ih]
      split <;> rfl
    | _ => simp [numerals, ih]

end Token

/-- The numbers of an expression, from left to right. -/
def Expr.numerals : Expr → List Int32
  | num value => [value]
  | var _ => []
  | binary _ left right => left.numerals ++ right.numerals
  | assign _ _ right => right.numerals

/-- **The numbers of an expression are those of its tokens**, and an operand has ended behind it. -/
theorem Derives.numerals {c : Category} {ts : List Token} {e : Expr} (h : Derives c ts e)
    (rest : List Token) :
    (Token.numerals false (ts ++ rest)).map Int32.ofInt =
      e.numerals ++ (Token.numerals true rest).map Int32.ofInt := by
  induction h generalizing rest with
  | lift _ _ ih => exact ih rest
  | store _ _ ihtarget ihvalue =>
    simp only [List.append_assoc, List.cons_append, ihtarget, Token.numerals, ihvalue,
      Expr.numerals, List.nil_append]
  | binary _ _ _ ihleft ihright =>
    rw [List.append_assoc, ihleft, List.cons_append, Token.numerals, if_pos rfl, ihright,
      Expr.numerals, List.append_assoc]
  | sign _ _ ih =>
    rw [List.cons_append, Token.numerals, if_neg Bool.false_ne_true, List.map_cons, ih]
    rfl
  | num digits =>
    rw [Expr.literal_eq]
    rfl
  | var name => rfl
  | step op name => rfl
  | paren _ ih =>
    simp only [List.append_assoc, List.cons_append, Token.numerals, ih, List.nil_append]

theorem Statement.numerals_of_read {tokens rest : List Token} {e : Expr}
    (h : read tokens = (.ok (.expr e), rest)) :
    ∃ line, tokens = line ++ .newline :: rest ∧
      e.numerals = (Token.numerals false line).map Int32.ofInt := by
  obtain ⟨line, htokens, hderives⟩ := derives_of_read h
  have hnumerals := hderives.numerals []
  refine ⟨line, htokens, ?_⟩
  simpa [Token.numerals] using hnumerals.symm

/-- The number at some place of a line is read between those in front of it and those behind it. -/
theorem Statement.numerals_of_read_num {front back rest : List Token} {digits : String} {e : Expr}
    (hfront : .newline ∉ front)
    (h : read (front ++ .num digits :: back) = (.ok (.expr e), rest)) :
    ∃ right, e.numerals = (Token.numerals false front).map Int32.ofInt ++
      Int32.ofInt (Token.decimal digits.toList) :: right := by
  obtain ⟨line, htokens, hnumerals⟩ := numerals_of_read h
  -- the line ends behind the number
  have hline : ∃ more, line = front ++ .num digits :: more := by
    rcases List.append_eq_append_iff.mp htokens with ⟨more, rfl, hmore⟩ | ⟨more, rfl, hmore⟩
    · rcases List.cons_eq_append_iff.mp hmore with ⟨-, hend⟩ | ⟨more, rfl, -⟩
      · cases hend
      · exact ⟨more, rfl⟩
    · rcases List.cons_eq_append_iff.mp hmore with ⟨-, hend⟩ | ⟨more, rfl, -⟩
      · cases hend
      · simp at hfront
  obtain ⟨more, rfl⟩ := hline
  rw [Token.numerals_append_num, List.map_append, List.map_cons] at hnumerals
  exact ⟨_, hnumerals⟩

/-- **A written number has the value of the digits that are kept.** Take any run of digits, anywhere
in a text, that no other digit extends and no word contains. It is one token behind those of the
text in front of it, and the number that is read from this token is the one of 32 bits that is
congruent to the decimal value of the first 255 digits. So where a statement is read from the line
with the run, it has this number behind the numbers that stand in front of the run. No character
that a number is read from lies below the digit `0`, and none above `9`. -/
theorem literal_wraps_kept_digits :
    (∀ before run after : List Char, Token.IsNumber run → Token.Closed before (run ++ after) →
      (∀ c ∈ after.head?, ¬ c.isDigit) →
      ∃ front digits value,
        Token.scan before = front ++ [.eof] ∧
        Token.scan (before ++ run ++ after) = front ++ .num digits :: Token.scan after ∧
        digits.toList = run.take 255 ∧
        Expr.literal digits = .num value ∧ Wraps (Token.decimal (run.take 255)) value ∧
        ∀ (c : Cursor) (tree : Expr),
          c.tokens = Token.scan (before ++ run ++ after) → '\n' ∉ before →
          c.next.1 = .ok (.expr tree) →
          ∃ left right, tree.numerals = left ++ value :: right ∧
            List.Forall₂ Wraps (Token.numerals false front) left) ∧
    ∀ text digits : String, .num digits ∈ Token.ofString text →
      ∀ c ∈ digits.toList, '0'.toNat ≤ c.toNat ∧ c.toNat ≤ '9'.toNat := by
  constructor
  · intro before run after hrun hclosed hafter
    obtain ⟨front, hbefore, hscan⟩ := Token.scan_run hrun hclosed hafter
    have hkept : (Token.clip run).toList = run.take 255 := String.toList_ofList
    have hwraps := wraps_ofInt (Token.decimal (Token.clip run).toList)
    rw [hkept] at hwraps
    refine ⟨front, Token.clip run, _, hbefore, hscan, hkept, hkept ▸ Expr.literal_eq _, hwraps, ?_⟩
    intro c tree htokens hline hnext
    have hfront : .newline ∉ front := by
      obtain ⟨ts, hinner, hts, -⟩ := Token.scan_line before hline
      obtain rfl : front = ts := List.append_cancel_right (hbefore.symm.trans hts)
      exact fun hmem => (hinner _ hmem).1 rfl
    have hread := c.read_eq_next
    rw [htokens, hscan, hnext] at hread
    obtain ⟨right, hnumerals⟩ := Statement.numerals_of_read_num hfront hread
    rw [hkept] at hnumerals
    exact ⟨_, right, hnumerals, forall₂_wraps _⟩
  · intro text digits h c hc
    exact Char.isDigit_iff_toNat.mp (Token.isDigit_of_mem_scan h c hc)

/-- A run of 256 digits, of which the last one is not kept. -/
theorem literal_wraps_kept_digits_long_run :
    let before := "x1".toList ++ " = - (".toList
    let run := List.replicate 255 '1' ++ ['2']
    let after := " + y)\n".toList
    let c : Cursor := { tokens := Token.scan (before ++ run ++ after) }
    let tree : Expr := .assign .set "x1"
      (.binary .sub (.num 0) (.binary .add (.num (-954437177)) (.var "y")))
    c.next.1 = .ok (.expr tree) ∧
      (∃ front digits value,
        Token.scan before = front ++ [.eof] ∧
        Token.scan (before ++ run ++ after) = front ++ .num digits :: Token.scan after ∧
        digits.toList = run.take 255 ∧
        Expr.literal digits = .num value ∧ Wraps (Token.decimal (run.take 255)) value ∧
        ∃ left right, tree.numerals = left ++ value :: right ∧
          List.Forall₂ Wraps (Token.numerals false front) left) ∧
      ∀ c ∈ "12".toList, '0'.toNat ≤ c.toNat ∧ c.toNat ≤ '9'.toNat := by
  have hfront : Token.scan ("x1".toList ++ " = - (".toList) =
      [.ident "x1", .assign .set, .op .sub, .openParen] ++ [.eof] := by cbv
  have hback : Token.scan " + y)\n".toList =
      [.op .add, .ident "y", .closeParen, .newline, .eof] := by cbv
  have htokens : Token.ofString "12" = [.num "12", .eof] := by cbv
  intro before run after c tree
  have hrun : Token.IsNumber run := by
    refine ⟨List.append_ne_nil_of_right_ne_nil _ (List.cons_ne_nil _ _), fun d hd => ?_⟩
    rcases List.mem_append.mp hd with hd | hd
    · rw [List.eq_of_mem_replicate hd]
      rfl
    · rw [List.mem_singleton.mp hd]
      rfl
  have hclosed : Token.Closed before (run ++ after) := by
    apply Token.Closed.append
    · exact Token.Closed.of_head (by simp)
    · exact Token.Closed.of_symbols (by simp)
  have hafter : ∀ d ∈ after.head?, ¬ d.isDigit := by simp [after]
  have hnext : c.next.1 = .ok (.expr tree) := by
    have hliteral : Expr.literal (Token.clip run) = .num (-954437177) := by
      rw [Expr.literal_eq, Token.clip, String.toList_ofList]
      exact congrArg Expr.num (by decide +kernel)
    have hread (digits : String) :
        (Cursor.mk [.ident "x1", .assign .set, .op .sub, .openParen, .num digits, .op .add,
          .ident "y", .closeParen, .newline, .eof] 1).next.1 =
          .ok (.expr (.assign .set "x1"
            (.binary .sub (.num 0) (.binary .add (.literal digits) (.var "y"))))) := rfl
    obtain ⟨front, hbefore, hscan⟩ := Token.scan_run hrun hclosed hafter
    obtain rfl := List.append_cancel_right (hfront.symm.trans hbefore)
    rw [hback] at hscan
    have hread := hread (Token.clip run)
    rw [hliteral] at hread
    rw [← hread]
    exact congrArg (fun tokens => (Cursor.mk tokens 1).next.1) hscan
  obtain ⟨front, digits, value, hbefore, hscan, hkept, hliteral, hwraps, hread⟩ :=
    literal_wraps_kept_digits.1 before run after hrun hclosed hafter
  refine ⟨hnext, ⟨front, digits, value, hbefore, hscan, hkept, hliteral, hwraps, ?_⟩, ?_⟩
  · exact hread c tree rfl (by simp [before]) hnext
  · exact literal_wraps_kept_digits.2 "12" "12" (htokens ▸ List.mem_cons_self)

end LineCompiler
