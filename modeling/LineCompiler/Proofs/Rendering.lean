import LineCompiler.Proofs.Names

/-!
# Tokens written out

`Token.render` writes tokens one after the other with blanks between them, and `ofString_render`
reads the same tokens from that text. The blanks are what keeps neighbours apart: without them `+`
and `=` would be one operator, and a word with a number behind it one longer word.

* `Token.WellFormed`: the tokens that a text can have, apart from its end.
* `Token.scan_spelling`: the spelling of a token is scanned as that token in front of a blank or of
  the end of the text.
* `Token.scan_render`: so are several tokens, by induction with the text behind them kept general.
-/

namespace LineCompiler

namespace Token

/-- The tokens that can be written. A number has 1 to 255 digits and a name is legal; a character on
its own is neither a blank nor one that another token starts with. -/
def WellFormed : Token → Prop
  | num digits => IsNumber digits.toList ∧ digits.length ≤ 255
  | ident name => IsName name
  | unknown c => ¬ c.isAlphanum ∧ c ∉ " \t\n+-*/&|^=()".toList
  | eof => False
  | _ => True

/-- How a token is written. -/
def spelling : Token → String
  | newline => "\n"
  | token => token.text

/-- The tokens one after the other, with `gap i` between those at the places `i` and `i + 1`. -/
def render (gap : Nat → String) : List Token → String
  | [] => ""
  | [token] => token.spelling
  | token :: next :: rest =>
    token.spelling ++ gap 0 ++ render (fun i => gap (i + 1)) (next :: rest)

/-- Spaces and tabs. -/
def IsGap (text : String) : Prop := ∀ c ∈ text.toList, c = ' ' ∨ c = '\t'

theorem IsGap.isBlank {text : String} (h : IsGap text) : ∀ c ∈ text.toList, isBlank c :=
  fun c hc => isBlank_iff.mpr (h c hc)

/-- The text starts with a blank, or there is none. -/
def Parted (text : List Char) : Prop := ∀ c ∈ text.head?, isBlank c

variable {after : List Char}

theorem Parted.ends (h : Parted after) : Ends after := by
  intro c hc
  rcases isBlank_iff.mp (h c hc) with rfl | rfl
  · decide
  · decide

theorem parted_gap {gap : String} (hgap : IsGap gap) (hne : gap ≠ "") (rest : List Char) :
    Parted (gap.toList ++ rest) := by
  obtain ⟨c, cs, hcs⟩ := List.exists_cons_of_ne_nil (mt String.toList_eq_nil_iff.mp hne)
  have hc : isBlank c := hgap.isBlank c (by rw [hcs]; exact List.mem_cons_self)
  rw [hcs]
  rintro _ ⟨⟩
  exact hc

/-- **A token is scanned from its spelling**, if a blank follows or nothing at all. -/
theorem scan_spelling {token : Token} (h : token.WellFormed) (hafter : Parted after) :
    scan (token.spelling.toList ++ after) = token :: scan after := by
  cases token with
  | num digits => exact scan_digits h.1 h.2 hafter.ends
  | ident name => exact scan_word h.isWord h.length_le hafter.ends
  | op o => exact scan_operator o fun c hc => .inl (hafter c hc)
  | assign o => exact scan_assign o after
  | step o =>
    have hlexeme : IsLexeme [] o.symbol.toList after (step o) := rfl
    have hshows : Shows o.symbol.toList (step o) := by cases o <;> rfl
    exact scan_lexeme hlexeme hshows
  | openParen => exact scan_openParen after
  | closeParen => exact scan_closeParen after
  | newline =>
    have hlexeme : IsLexeme [] ['\n'] after newline := rfl
    exact scan_lexeme hlexeme rfl
  | eof => exact h.elim
  | unknown c =>
    have hlexeme : IsLexeme [] [c] after (unknown c) := ⟨rfl, h⟩
    have hspelling : (unknown c).spelling.toList = [c] := by simp [spelling, text]
    rw [hspelling]
    exact scan_lexeme hlexeme (by simp [Shows, text])

/-- The tokens are scanned in turn, and scanning goes on behind them. -/
theorem scan_render {tokens : List Token} (htokens : ∀ t ∈ tokens, t.WellFormed)
    {gap : Nat → String}
    (hgap : ∀ i, i + 1 < tokens.length → IsGap (gap i) ∧ gap i ≠ "") (hafter : Parted after) :
    scan ((render gap tokens).toList ++ after) = tokens ++ scan after := by
  induction tokens generalizing gap with
  | nil => rfl
  | cons token rest ih =>
    have htoken := htokens token List.mem_cons_self
    cases rest with
    | nil => exact scan_spelling htoken hafter
    | cons next rest =>
      obtain ⟨hblank, hne⟩ := hgap 0 (by simp)
      have hgaps (i : Nat) (hi : i + 1 < (next :: rest).length) :
          IsGap (gap (i + 1)) ∧ gap (i + 1) ≠ "" := hgap (i + 1) (Nat.succ_lt_succ hi)
      have hrest := ih (fun t ht => htokens t (List.mem_cons_of_mem _ ht)) hgaps
      rw [render, String.toList_append, String.toList_append, List.append_assoc, List.append_assoc,
        scan_spelling htoken (parted_gap hblank hne _), scan_gap hblank.isBlank, hrest]
      rfl

end Token

/-- **Reading tokens undoes writing them.** Write well-formed tokens one after the other, with at
least one space or tab between each two of them and any number of these at both ends. The tokens of
that text are the same ones again, and the end of the text. -/
theorem ofString_render (tokens : List Token) (gap : Nat → String) (before after : String)
    (htokens : ∀ t ∈ tokens, t.WellFormed)
    (hgap : ∀ i, i + 1 < tokens.length → Token.IsGap (gap i) ∧ gap i ≠ "")
    (hbefore : Token.IsGap before) (hafter : Token.IsGap after) :
    Token.ofString (before ++ Token.render gap tokens ++ after) = tokens ++ [.eof] := by
  have hparted : Token.Parted after.toList :=
    fun c hc => hafter.isBlank c (List.mem_of_mem_head? hc)
  have hend : Token.scan after.toList = [.eof] :=
    Token.scan_of_nil (List.dropWhile_eq_nil_iff.mpr hafter.isBlank)
  rw [Token.ofString, String.toList_append, String.toList_append, List.append_assoc,
    Token.scan_gap hbefore.isBlank, Token.scan_render htokens hgap hparted, hend]

/-- Neighbours that would be one token without the blanks, and characters of no token. -/
theorem ofString_render_neighbours :
    let tokens : List Token := [.op .add, .assign .set, .step .decrement, .op .sub, .num "007",
      .ident "x_1", .ident "y", .newline, .unknown '_', .unknown 'λ']
    let gap (i : Nat) : String := if i = 2 then " \t" else " "
    Token.render gap tokens = "+ = -- \t- 007 x_1 y \n _ λ" ∧
      (∀ t ∈ tokens, t.WellFormed) ∧
      (∀ i, i + 1 < tokens.length → Token.IsGap (gap i) ∧ gap i ≠ "") ∧
      Token.ofString ("\t" ++ Token.render gap tokens ++ "") = tokens ++ [.eof] := by
  intro tokens gap
  have htokens : ∀ t ∈ tokens, t.WellFormed := by
    have hnumber : Token.WellFormed (.num "007") := ⟨by simp [Token.IsNumber], by decide⟩
    have hx : Token.WellFormed (.ident "x_1") := ⟨by simp [Token.IsWord], by decide, by decide⟩
    have hy : Token.WellFormed (.ident "y") := ⟨by simp [Token.IsWord], by decide, by decide⟩
    have hunderscore : Token.WellFormed (.unknown '_') := ⟨by decide, by decide⟩
    have hlambda : Token.WellFormed (.unknown 'λ') := ⟨by decide, by decide⟩
    simp only [tokens, List.forall_mem_cons]
    exact ⟨trivial, trivial, trivial, trivial, hnumber, hx, hy, trivial, hunderscore, hlambda,
      List.forall_mem_nil _⟩
  have hgap : ∀ i, i + 1 < tokens.length → Token.IsGap (gap i) ∧ gap i ≠ "" := by
    intro i _
    by_cases hi : i = 2
    · simp [gap, hi, Token.IsGap]
    · simp [gap, hi, Token.IsGap]
  have hbefore : Token.IsGap "\t" := by simp [Token.IsGap]
  have hafter : Token.IsGap "" := by simp [Token.IsGap]
  exact ⟨by decide, htokens, hgap, ofString_render tokens gap "\t" "" htokens hgap hbefore hafter⟩

end LineCompiler
