import LineCompiler.Proofs.Lines

/-!
# Lexemes

The lexeme of a token is what stands for it in the text. This module says what the lexemes of each
token are, without scanning, and shows that the tokens of a text are those of its lexemes.

* `Token.IsLexeme before lexeme after token`: between the texts `before` and `after`, the characters
  `lexeme` are a lexeme of the token. Numbers and words are maximal in the text around them.
* `Token.Closed before after`: no number and no word reaches from one text into the other. This
  holds behind every token and is what the step lemma `Token.isLexeme_first` hands on.
* `Token.scan_of_isLexeme`: a lexeme is scanned as its token, whatever blanks stand in front of it.
* `ofString_iff_decomposes`: the tokens of a text are those of its one decomposition into lexemes.
-/

namespace LineCompiler

namespace Token

/-! ## Numbers and words in a text -/

/-- A run of digits. -/
def IsNumber (run : List Char) : Prop := run ≠ [] ∧ ∀ c ∈ run, c.isDigit

/-- A run of letters, digits and underscores that starts with a letter. -/
def IsWord : List Char → Prop
  | [] => False
  | c :: rest => c.isAlpha ∧ ∀ d ∈ rest, d.isAlphanum ∨ d = '_'

/-- Between the texts `before` and `after`, a run of this kind that cannot be made longer on either
side. -/
def Maximal (kind : List Char → Prop) (before run after : List Char) : Prop :=
  kind run ∧ ∀ l r, l <:+ before → r <+: after → kind (l ++ run ++ r) → l = [] ∧ r = []

/-- No number and no word reaches from the first text into the second. -/
def Closed (before after : List Char) : Prop :=
  ∀ l r, l <:+ before → r <+: after → IsNumber (l ++ r) ∨ IsWord (l ++ r) → l = [] ∨ r = []

theorem not_isDigit_of_isAlpha {c : Char} (h : c.isAlpha) : ¬ c.isDigit := by
  intro hdigit
  simp only [Char.isAlpha, Char.isUpper, Char.isLower, Char.isDigit, Bool.or_eq_true,
    Bool.and_eq_true, decide_eq_true_eq, ge_iff_le, UInt32.le_iff_toNat_le] at h hdigit
  have : '9'.val.toNat = 57 := rfl
  have : 'A'.val.toNat = 65 := rfl
  have : 'a'.val.toNat = 97 := rfl
  omega

theorem isAlphanum_of_isDigit {c : Char} (h : c.isDigit) : c.isAlphanum := by
  simp [Char.isAlphanum, h]

theorem isAlphanum_of_isAlpha {c : Char} (h : c.isAlpha) : c.isAlphanum := by
  simp [Char.isAlphanum, h]

theorem IsWord.of_mem {run : List Char} (h : IsWord run) {c : Char} (hc : c ∈ run) :
    c.isAlphanum ∨ c = '_' := by
  cases run with
  | nil => cases h
  | cons first rest =>
    rcases List.mem_cons.mp hc with rfl | hc
    · exact .inl (isAlphanum_of_isAlpha h.1)
    · exact h.2 c hc

variable {before lexeme after : List Char}

/-- A number or a word has no character outside of words. -/
theorem isAlphanum_of_mem {run : List Char} (h : IsNumber run ∨ IsWord run) {c : Char}
    (hc : c ∈ run) : c.isAlphanum ∨ c = '_' := by
  rcases h with h | h
  · exact .inl (isAlphanum_of_isDigit (h.2 c hc))
  · exact h.of_mem hc

/-- A number or a word starts with a letter or a digit. -/
theorem isAlphanum_of_cons {run : List Char} {c : Char}
    (h : IsNumber (c :: run) ∨ IsWord (c :: run)) : c.isAlphanum := by
  rcases h with h | h
  · exact isAlphanum_of_isDigit (h.2 c List.mem_cons_self)
  · exact isAlphanum_of_isAlpha h.1

namespace Closed

theorem nil_left (after : List Char) : Closed [] after := by
  intro l r hl _ _
  exact .inl (List.suffix_nil.mp hl)

/-- Nothing reaches into a text that starts outside of words. -/
theorem of_head (h : ∀ c ∈ after.head?, ¬ (c.isAlphanum ∨ c = '_')) : Closed before after := by
  intro l r _ hr hkind
  by_contra hne
  rw [not_or] at hne
  obtain ⟨c, rest, rfl⟩ := List.exists_cons_of_ne_nil hne.2
  obtain ⟨tail, rfl⟩ := hr
  exact h c (by simp) (isAlphanum_of_mem hkind (by simp))

/-- A number ends where no digit follows. -/
theorem of_number (hnumber : IsNumber lexeme) (h : ∀ c ∈ after.head?, ¬ c.isDigit) :
    Closed lexeme after := by
  intro l r hl hr hkind
  by_contra hne
  rw [not_or] at hne
  obtain ⟨c, rest, rfl⟩ := List.exists_cons_of_ne_nil hne.2
  obtain ⟨d, run, rfl⟩ := List.exists_cons_of_ne_nil hne.1
  rcases hkind with hkind | hkind
  · obtain ⟨tail, rfl⟩ := hr
    exact h c (by simp) (hkind.2 c (by simp))
  · exact not_isDigit_of_isAlpha hkind.1 (hnumber.2 d (hl.mem List.mem_cons_self))

/-- Nothing starts in a text without letters and digits. -/
theorem of_symbols (h : ∀ c ∈ lexeme, ¬ c.isAlphanum) : Closed lexeme after := by
  intro l r hl _ hkind
  by_contra hne
  rw [not_or] at hne
  obtain ⟨d, run, rfl⟩ := List.exists_cons_of_ne_nil hne.1
  exact h d (hl.mem List.mem_cons_self) (isAlphanum_of_cons hkind)

/-- Two texts, neither of which anything reaches out of. -/
theorem append (hbefore : Closed before (lexeme ++ after)) (h : Closed lexeme after) :
    Closed (before ++ lexeme) after := by
  intro l r hl hr hkind
  rcases List.suffix_or_suffix_of_suffix hl (List.suffix_append before lexeme) with hshort | hlong
  · exact h l r hshort hr hkind
  · obtain ⟨outer, rfl⟩ := hlong
    have houter : outer <:+ before := List.suffix_append_self_iff.mp hl
    rw [List.append_assoc] at hkind
    rcases hbefore outer (lexeme ++ r) houter ((List.prefix_append_right_inj _).mpr hr) hkind with
      rfl | hnil
    · exact h lexeme r (List.suffix_refl _) hr hkind
    · exact .inr (List.append_eq_nil_iff.mp hnil).2

/-- A run that nothing reaches into or out of is maximal. -/
theorem maximal {kind : List Char → Prop} (hkind : ∀ run, kind run → IsNumber run ∨ IsWord run)
    (hbefore : Closed before (lexeme ++ after)) (h : Closed lexeme after) (hlexeme : kind lexeme) :
    Maximal kind before lexeme after := by
  have hne : lexeme ≠ [] := by
    rintro rfl
    rcases hkind [] hlexeme with hnumber | hword
    · exact hnumber.1 rfl
    · exact hword
  refine ⟨hlexeme, fun l r hl hr hlonger => ?_⟩
  have hlonger := hkind _ hlonger
  constructor
  · rw [List.append_assoc] at hlonger
    rcases hbefore l (lexeme ++ r) hl ((List.prefix_append_right_inj _).mpr hr) hlonger with
      hnil | hnil
    · exact hnil
    · exact absurd (List.append_eq_nil_iff.mp hnil).1 hne
  · rcases hbefore.append h (l ++ lexeme) r (List.suffix_append_self_iff.mpr hl) hr hlonger with
      hnil | hnil
    · exact absurd (List.append_eq_nil_iff.mp hnil).2 hne
    · exact hnil

end Closed

/-! ## The lexemes of a token -/

/-- Between the texts `before` and `after`, these characters are a lexeme of the token. The end of
the text has none. -/
def IsLexeme (before lexeme after : List Char) : Token → Prop
  | num _ => Maximal IsNumber before lexeme after
  | ident _ => Maximal IsWord before lexeme after
  | op o => lexeme = o.symbol.toList ∧
      (o = .add ∨ o = .sub → ∀ c ∈ after.head?, [c] ≠ lexeme ∧ c ≠ '=')
  | assign o => lexeme = o.symbol.toList
  | step o => lexeme = o.symbol.toList
  | openParen => lexeme = ['(']
  | closeParen => lexeme = [')']
  | newline => lexeme = ['\n']
  | eof => False
  | unknown c => lexeme = [c] ∧ ¬ c.isAlphanum ∧ c ∉ " \t\n+-*/&|^=()".toList

/-- What a token shows of its lexeme: a line end shows nothing, and of a long lexeme only the first
characters are kept. -/
def Shows (lexeme : List Char) (token : Token) : Prop :=
  token.text = if token = newline then "" else String.ofList (lexeme.take 255)

theorem IsLexeme.ne_nil {token : Token} (h : IsLexeme before lexeme after token) : lexeme ≠ [] := by
  rintro rfl
  cases token with
  | num => exact h.1.1 rfl
  | ident => exact h.1
  | op o => cases o <;> cases h.1
  | assign o => cases o <;> cases h
  | step o => cases o <;> cases h
  | unknown => cases h.1
  | _ => cases h

/-! ## Scanned tokens have lexemes -/

theorem dropWhile_head (p : Char → Bool) (text : List Char) :
    ∀ c ∈ (text.dropWhile p).head?, ¬ p c := by
  intro c hc
  have h := List.head?_dropWhile_not p text
  rw [Option.mem_def.mp hc] at h
  exact Bool.eq_false_iff.mp h

/-- A single character, where no pair is taken. -/
theorem isLexeme_ofChar {c : Char} (hc : ¬ c.isAlphanum) (hblank : ¬ isBlank c)
    (hpair : ∀ next ∈ after.head?, ofPair? c next = none) :
    IsLexeme before [c] after (ofChar c) ∧ Shows [c] (ofChar c) := by
  have hsign (next : Char) (hnext : next ∈ after.head?) (hc : c = '+' ∨ c = '-') :
      [next] ≠ [c] ∧ next ≠ '=' := by
    have hnone := hpair next hnext
    constructor
    · intro heq
      cases heq
      rcases hc with rfl | rfl <;> cases hnone
    · rintro rfl
      rcases hc with rfl | rfl <;> cases hnone
  -- the other operators take no account of what follows
  have hother {o : BinOp} (ho : ¬ (o = .add ∨ o = .sub)) :
      IsLexeme before o.symbol.toList after (op o) := ⟨rfl, fun h => absurd h ho⟩
  unfold ofChar
  split
  · exact ⟨⟨rfl, fun _ next hnext => hsign next hnext (.inl rfl)⟩, rfl⟩
  · exact ⟨⟨rfl, fun _ next hnext => hsign next hnext (.inr rfl)⟩, rfl⟩
  · exact ⟨hother (o := .mul) (by decide), rfl⟩
  · exact ⟨hother (o := .div) (by decide), rfl⟩
  · exact ⟨hother (o := .and) (by decide), rfl⟩
  · exact ⟨hother (o := .or) (by decide), rfl⟩
  · exact ⟨hother (o := .xor) (by decide), rfl⟩
  · exact ⟨rfl, rfl⟩
  · exact ⟨rfl, rfl⟩
  · exact ⟨rfl, rfl⟩
  · exact ⟨rfl, rfl⟩
  · refine ⟨⟨rfl, hc, ?_⟩, ?_⟩
    · simp only [isBlank, Bool.or_eq_true, beq_iff_eq, not_or] at hblank
      simp only [String.reduceToList, List.mem_cons, List.not_mem_nil, or_false]
      tauto
    · simp [Shows, text]

theorem isLexeme_ofPair {c next : Char} {token : Token} (h : ofPair? c next = some token) :
    (∀ d ∈ [c, next], ¬ d.isAlphanum) ∧
      IsLexeme before [c, next] after token ∧ Shows [c, next] token := by
  have hsymbols (h : ¬ c.isAlphanum ∧ ¬ next.isAlphanum) : ∀ d ∈ [c, next], ¬ d.isAlphanum := by
    simp [h]
  unfold ofPair? at h
  split at h
  · cases h
    exact ⟨hsymbols (by decide), rfl, rfl⟩
  · cases h
    exact ⟨hsymbols (by decide), rfl, rfl⟩
  · cases h
    exact ⟨hsymbols (by decide), rfl, rfl⟩
  · cases h
    exact ⟨hsymbols (by decide), rfl, rfl⟩
  · cases h

theorem isLexeme_firstSymbol {c : Char} (hc : ¬ c.isAlphanum) (hblank : ¬ isBlank c)
    (rest : List Char) :
    ∃ lexeme, c :: rest = lexeme ++ (firstSymbol c rest).2 ∧ (∀ d ∈ lexeme, ¬ d.isAlphanum) ∧
      IsLexeme before lexeme (firstSymbol c rest).2 (firstSymbol c rest).1 ∧
      Shows lexeme (firstSymbol c rest).1 := by
  have hsingle : ∀ d ∈ [c], ¬ d.isAlphanum := by
    intro d hd
    rw [List.mem_singleton.mp hd]
    exact hc
  cases rest with
  | nil => exact ⟨[c], rfl, hsingle, isLexeme_ofChar hc hblank nofun⟩
  | cons next rest =>
    rw [firstSymbol]
    cases hpair : ofPair? c next with
    | some token => exact ⟨[c, next], rfl, isLexeme_ofPair hpair⟩
    | none =>
      refine ⟨[c], rfl, hsingle, isLexeme_ofChar hc hblank ?_⟩
      rintro _ ⟨⟩
      exact hpair

/-- **Every token has a lexeme.** What is taken from the start of a text into which nothing reaches
is a lexeme of its token, and nothing reaches out of it. -/
theorem isLexeme_first {c : Char} {rest : List Char} (hclosed : Closed before (c :: rest))
    (hblank : ¬ isBlank c) :
    ∃ lexeme, c :: rest = lexeme ++ (first c rest).2 ∧ Closed lexeme (first c rest).2 ∧
      IsLexeme before lexeme (first c rest).2 (first c rest).1 ∧ Shows lexeme (first c rest).1 := by
  unfold first
  split
  · rename_i hdigit
    have hsplit : c :: rest = c :: rest.takeWhile Char.isDigit ++ rest.dropWhile Char.isDigit := by
      rw [List.cons_append, List.takeWhile_append_dropWhile]
    have hnumber : IsNumber (c :: rest.takeWhile Char.isDigit) := by
      refine ⟨List.cons_ne_nil _ _, fun d hd => ?_⟩
      rcases List.mem_cons.mp hd with rfl | hd
      · exact hdigit
      · exact List.mem_takeWhile_imp hd
    have hend := Closed.of_number hnumber (dropWhile_head Char.isDigit rest)
    refine ⟨_, hsplit, hend, ?_, rfl⟩
    rw [hsplit] at hclosed
    exact hclosed.maximal (fun _ => .inl) hend hnumber
  · split
    · rename_i halpha
      have hsplit : c :: rest = c :: rest.takeWhile isWordChar ++ rest.dropWhile isWordChar := by
        rw [List.cons_append, List.takeWhile_append_dropWhile]
      have hword : IsWord (c :: rest.takeWhile isWordChar) := by
        refine ⟨halpha, fun d hd => ?_⟩
        simpa [isWordChar] using List.mem_takeWhile_imp hd
      have hend : Closed (c :: rest.takeWhile isWordChar) (rest.dropWhile isWordChar) := by
        refine Closed.of_head fun d hd => ?_
        simpa [isWordChar] using dropWhile_head isWordChar rest d hd
      refine ⟨_, hsplit, hend, ?_, rfl⟩
      rw [hsplit] at hclosed
      exact hclosed.maximal (fun _ => .inr) hend hword
    · rename_i hdigit halpha
      have hc : ¬ c.isAlphanum := by simp [Char.isAlphanum, hdigit, halpha]
      obtain ⟨lexeme, hsplit, hsymbols, hlexeme⟩ := isLexeme_firstSymbol hc hblank rest
      exact ⟨lexeme, hsplit, .of_symbols hsymbols, hlexeme⟩

/-! ## Lexemes are scanned as their tokens -/

/-- No longer run of the kind follows. -/
theorem Maximal.not_append {kind : List Char → Prop} (h : Maximal kind before lexeme after)
    {c : Char} (hc : c ∈ after.head?) : ¬ kind (lexeme ++ [c]) := by
  intro hlonger
  have hprefix : [c] <+: after := by
    obtain ⟨rest, rfl⟩ := List.head?_eq_some_iff.mp (Option.mem_def.mp hc)
    exact ⟨rest, rfl⟩
  exact List.cons_ne_nil c [] (h.2 [] [c] List.nil_suffix hprefix hlonger).2

/-- A run that ends where its characters end is taken whole. -/
theorem takeWhile_append {p : Char → Bool} {run : List Char} (hrun : ∀ c ∈ run, p c)
    (hafter : ∀ c ∈ after.head?, ¬ p c) :
    (run ++ after).takeWhile p = run ∧ (run ++ after).dropWhile p = after := by
  rw [List.takeWhile_append_of_pos hrun, List.dropWhile_append_of_pos hrun]
  cases after with
  | nil => simp
  | cons c rest =>
    have hc : p c = false := Bool.eq_false_iff.mpr (hafter c rfl)
    simp [hc]

theorem first_of_number {c : Char} {run : List Char}
    (h : Maximal IsNumber before (c :: run) after) :
    first c (run ++ after) = (num (clip (c :: run)), after) := by
  have hdigits := h.1.2
  have hafter : ∀ d ∈ after.head?, ¬ d.isDigit := by
    intro d hd hdigit
    apply h.not_append hd
    refine ⟨by simp, fun e he => ?_⟩
    rcases List.mem_append.mp he with he | he
    · exact hdigits e he
    · rw [List.mem_singleton.mp he]
      exact hdigit
  have hrun : ∀ d ∈ run, d.isDigit := fun d hd => hdigits d (List.mem_cons_of_mem c hd)
  obtain ⟨htake, hdrop⟩ := takeWhile_append hrun hafter
  rw [first, if_pos (hdigits c List.mem_cons_self), htake, hdrop]

theorem first_of_word {c : Char} {run : List Char} (h : Maximal IsWord before (c :: run) after) :
    first c (run ++ after) = (ident (clip (c :: run)), after) := by
  have hafter : ∀ d ∈ after.head?, ¬ isWordChar d := by
    intro d hd hword
    apply h.not_append hd
    refine ⟨h.1.1, fun e he => ?_⟩
    rcases List.mem_append.mp he with he | he
    · exact h.1.2 e he
    · rw [List.mem_singleton.mp he]
      simpa [isWordChar] using hword
  have hrun : ∀ d ∈ run, isWordChar d := by
    intro d hd
    simpa [isWordChar] using h.1.2 d hd
  obtain ⟨htake, hdrop⟩ := takeWhile_append hrun hafter
  rw [first, if_neg (not_isDigit_of_isAlpha h.1.1), if_pos h.1.1, htake, hdrop]

theorem first_eq_firstSymbol {c : Char} (hc : ¬ c.isAlphanum) (rest : List Char) :
    first c rest = firstSymbol c rest := by
  rw [first, if_neg (fun h => hc (isAlphanum_of_isDigit h)),
    if_neg (fun h => hc (isAlphanum_of_isAlpha h))]

theorem first_of_pair {c next : Char} {token : Token} (hc : ¬ c.isAlphanum)
    (h : ofPair? c next = some token) (after : List Char) :
    first c (next :: after) = (token, after) := by
  rw [first_eq_firstSymbol hc, firstSymbol, h]

/-- A single character, where no pair follows. -/
theorem first_of_single {c : Char} (hc : ¬ c.isAlphanum)
    (h : c = '+' ∨ c = '-' → ∀ next ∈ after.head?, next ≠ c ∧ next ≠ '=') :
    first c after = (ofChar c, after) := by
  rw [first_eq_firstSymbol hc]
  cases after with
  | nil => rfl
  | cons next rest =>
    have hpair : ofPair? c next = none := by
      unfold ofPair?
      split
      · exact absurd rfl (h (.inl rfl) '+' rfl).1
      · exact absurd rfl (h (.inr rfl) '-' rfl).1
      · exact absurd rfl (h (.inl rfl) '=' rfl).2
      · exact absurd rfl (h (.inr rfl) '=' rfl).2
      · rfl
    rw [firstSymbol, hpair]

theorem ofChar_eq_unknown {c : Char} (h : c ∉ " \t\n+-*/&|^=()".toList) : ofChar c = unknown c := by
  unfold ofChar
  split <;> simp_all

theorem not_isBlank_of_isAlphanum {c : Char} (h : c.isAlphanum) : ¬ isBlank c := by
  intro hblank
  simp only [isBlank, Bool.or_eq_true, beq_iff_eq] at hblank
  rcases hblank with rfl | rfl
  · cases h
  · cases h

/-- A lexeme starts with a character other than a blank, and scanning from there takes its token. -/
theorem first_of_isLexeme {token : Token} (h : IsLexeme before lexeme after token)
    (hshows : Shows lexeme token) :
    ∃ c run, lexeme = c :: run ∧ ¬ isBlank c ∧ first c (run ++ after) = (token, after) := by
  -- the characters that are tokens whatever follows
  have hsingle {c : Char} (hc : ¬ c.isAlphanum ∧ ¬ isBlank c ∧ ¬ (c = '+' ∨ c = '-')) :
      ∃ d run, [c] = d :: run ∧ ¬ isBlank d ∧ first d (run ++ after) = (ofChar c, after) :=
    ⟨c, [], rfl, hc.2.1, first_of_single hc.1 fun h => absurd h hc.2.2⟩
  have hpair {c d : Char} {token : Token} (hc : ¬ c.isAlphanum ∧ ¬ isBlank c)
      (hpair : ofPair? c d = some token) :
      ∃ e run, [c, d] = e :: run ∧ ¬ isBlank e ∧ first e (run ++ after) = (token, after) :=
    ⟨c, [d], rfl, hc.2, first_of_pair hc.1 hpair after⟩
  cases token with
  | num digits =>
    obtain ⟨c, run, rfl⟩ := List.exists_cons_of_ne_nil h.1.1
    have hdigit := h.1.2 c List.mem_cons_self
    refine ⟨c, run, rfl, not_isBlank_of_isAlphanum (isAlphanum_of_isDigit hdigit), ?_⟩
    rw [first_of_number h]
    exact congrArg (fun digits => (num digits, after)) hshows.symm
  | ident name =>
    obtain ⟨c, run, rfl⟩ := List.exists_cons_of_ne_nil h.ne_nil
    refine ⟨c, run, rfl, not_isBlank_of_isAlphanum (isAlphanum_of_isAlpha h.1.1), ?_⟩
    rw [first_of_word h]
    exact congrArg (fun name => (ident name, after)) hshows.symm
  | op o =>
    obtain ⟨rfl, hfollow⟩ := h
    have hsign {c : Char} (hc : o.symbol.toList = [c]) (ho : o = .add ∨ o = .sub) :
        ∀ next ∈ after.head?, next ≠ c ∧ next ≠ '=' := by
      intro next hnext
      obtain ⟨hne, heq⟩ := hfollow ho next hnext
      refine ⟨fun h => hne ?_, heq⟩
      rw [hc, h]
    cases o with
    | add =>
      exact ⟨'+', [], rfl, by decide, first_of_single (by decide) fun _ => hsign rfl (.inl rfl)⟩
    | sub =>
      exact ⟨'-', [], rfl, by decide, first_of_single (by decide) fun _ => hsign rfl (.inr rfl)⟩
    | mul => exact hsingle (c := '*') (by decide)
    | div => exact hsingle (c := '/') (by decide)
    | and => exact hsingle (c := '&') (by decide)
    | or => exact hsingle (c := '|') (by decide)
    | xor => exact hsingle (c := '^') (by decide)
  | assign o =>
    cases h
    cases o with
    | set => exact hsingle (c := '=') (by decide)
    | add => exact hpair (c := '+') (d := '=') (by decide) rfl
    | sub => exact hpair (c := '-') (d := '=') (by decide) rfl
  | step o =>
    cases h
    cases o with
    | increment => exact hpair (c := '+') (d := '+') (by decide) rfl
    | decrement => exact hpair (c := '-') (d := '-') (by decide) rfl
  | openParen =>
    cases h
    exact hsingle (c := '(') (by decide)
  | closeParen =>
    cases h
    exact hsingle (c := ')') (by decide)
  | newline =>
    cases h
    exact hsingle (c := '\n') (by decide)
  | eof => cases h
  | unknown c =>
    obtain ⟨rfl, hc, hmem⟩ := h
    have hother := hmem
    simp only [String.reduceToList, List.mem_cons, List.not_mem_nil, or_false, not_or] at hother
    have hblank : ¬ isBlank c := by simp [isBlank, hother]
    have hsign : ¬ (c = '+' ∨ c = '-') := by simp [hother]
    rw [← ofChar_eq_unknown hmem]
    exact hsingle ⟨hc, hblank, hsign⟩

/-- **A lexeme is scanned as its token**, behind any blanks. -/
theorem scan_of_isLexeme {token : Token} (h : IsLexeme before lexeme after token)
    (hshows : Shows lexeme token) {blanks : List Char} (hblanks : ∀ c ∈ blanks, isBlank c) :
    scan (blanks ++ lexeme ++ after) = token :: scan after := by
  obtain ⟨c, run, rfl, hc, hfirst⟩ := first_of_isLexeme h hshows
  have hdrop : (blanks ++ c :: run ++ after).dropWhile isBlank = c :: (run ++ after) := by
    rw [List.append_assoc, List.dropWhile_append_of_pos hblanks, List.cons_append,
      List.dropWhile_cons_of_neg hc]
  rw [scan_of_cons hdrop, hfirst]

/-! ## Decompositions -/

/-- A piece of a text: a lexeme with the blanks in front of it, and the token that it stands for. -/
structure Piece where
  blanks : List Char
  lexeme : List Char
  token : Token

namespace Piece

def chars (p : Piece) : List Char := p.blanks ++ p.lexeme

/-- What a piece has to be between the texts `before` and `after`. -/
structure Fits (before after : List Char) (p : Piece) : Prop where
  blank : ∀ c ∈ p.blanks, c = ' ' ∨ c = '\t'
  nonempty : p.lexeme ≠ []
  isLexeme : IsLexeme (before ++ p.blanks) p.lexeme after p.token
  shows : Shows p.lexeme p.token

end Piece

/-- Behind the text `before`, the text is made of these pieces and of the blanks at its end. -/
structure Decomposes (before text : List Char) (pieces : List Piece) (blanks : List Char) :
    Prop where
  text_eq : text = pieces.flatMap Piece.chars ++ blanks
  blank : ∀ c ∈ blanks, c = ' ' ∨ c = '\t'
  fits : ∀ l p r, pieces = l ++ p :: r →
    p.Fits (before ++ l.flatMap Piece.chars) (r.flatMap Piece.chars ++ blanks)

theorem isBlank_iff {c : Char} : isBlank c ↔ c = ' ' ∨ c = '\t' := by
  simp [isBlank]

namespace Decomposes

variable {text blanks : List Char} {p : Piece} {pieces : List Piece}

theorem cons (hp : p.Fits before text) (h : Decomposes (before ++ p.chars) text pieces blanks) :
    Decomposes before (p.chars ++ text) (p :: pieces) blanks where
  text_eq := by rw [h.text_eq, List.flatMap_cons, List.append_assoc]
  blank := h.blank
  fits l q r hsplit := by
    rcases List.cons_eq_append_iff.mp hsplit with ⟨rfl, hcons⟩ | ⟨l', rfl, hrest⟩
    · cases hcons
      rw [List.flatMap_nil, List.append_nil, ← h.text_eq]
      exact hp
    · rw [List.flatMap_cons, ← List.append_assoc]
      exact h.fits l' q r hrest

theorem uncons (h : Decomposes before text (p :: pieces) blanks) :
    ∃ rest, text = p.chars ++ rest ∧ p.Fits before rest ∧
      Decomposes (before ++ p.chars) rest pieces blanks := by
  refine ⟨pieces.flatMap Piece.chars ++ blanks, ?_, ?_, rfl, h.blank, ?_⟩
  · rw [h.text_eq, List.flatMap_cons, List.append_assoc]
  · have hfits := h.fits [] p pieces rfl
    rwa [List.flatMap_nil, List.append_nil] at hfits
  · intro l q r hsplit
    have hfits := h.fits (p :: l) q r (by rw [hsplit, List.cons_append])
    rwa [List.flatMap_cons, ← List.append_assoc] at hfits

/-- The lexemes of a decomposition are scanned one after the other. -/
theorem scan_eq (h : Decomposes before text pieces blanks) :
    scan text = pieces.map Piece.token ++ [eof] := by
  induction pieces generalizing before text with
  | nil =>
    have htext : text = blanks := h.text_eq
    apply scan_of_nil
    rw [List.dropWhile_eq_nil_iff, htext]
    exact fun c hc => isBlank_iff.mpr (h.blank c hc)
  | cons p pieces ih =>
    obtain ⟨rest, rfl, hp, hrest⟩ := h.uncons
    have hblanks : ∀ c ∈ p.blanks, isBlank c := fun c hc => isBlank_iff.mpr (hp.blank c hc)
    rw [Piece.chars, scan_of_isLexeme hp.isLexeme hp.shows hblanks, ih hrest, List.map_cons,
      List.cons_append]

end Decomposes

/-- A text into which nothing reaches has a decomposition. -/
theorem exists_decomposes (before text : List Char) (hclosed : Closed before text) :
    ∃ pieces blanks, Decomposes before text pieces blanks := by
  induction hlength : text.length using Nat.strongRecOn generalizing before text with
  | ind length ih =>
    have hsplit := List.takeWhile_append_dropWhile (p := isBlank) (l := text)
    have hblanks : ∀ c ∈ text.takeWhile isBlank, isBlank c := fun c => List.mem_takeWhile_imp
    generalize text.takeWhile isBlank = blanks at hsplit hblanks
    have hblank : ∀ c ∈ blanks, c = ' ' ∨ c = '\t' := fun c hc => isBlank_iff.mp (hblanks c hc)
    cases hdrop : text.dropWhile isBlank with
    | nil =>
      rw [hdrop, List.append_nil] at hsplit
      exact ⟨[], blanks, hsplit.symm, hblank, fun l p r h => by simp at h⟩
    | cons c rest =>
      have hc : ¬ isBlank c := dropWhile_head isBlank text c (by rw [hdrop]; rfl)
      rw [hdrop] at hsplit
      subst hsplit
      -- nothing reaches across the blanks, and nothing out of the lexeme
      have hgap : Closed (before ++ blanks) (c :: rest) := by
        apply hclosed.append
        apply Closed.of_symbols
        intro d hd halphanum
        exact not_isBlank_of_isAlphanum halphanum (hblanks d hd)
      obtain ⟨lexeme, hlexeme, hend, hfits, hshows⟩ := isLexeme_first hgap hc
      have hshort : (first c rest).2.length < length := by
        have hle := length_first_le c rest
        rw [← hlength, List.length_append, List.length_cons]
        omega
      rw [hlexeme] at hgap ⊢
      have hnext := hgap.append hend
      rw [List.append_assoc] at hnext
      obtain ⟨pieces, trailing, hrest⟩ := ih _ hshort _ _ hnext rfl
      have hpiece : Piece.Fits before (first c rest).2 ⟨blanks, lexeme, (first c rest).1⟩ :=
        ⟨hblank, hfits.ne_nil, hfits, hshows⟩
      refine ⟨⟨blanks, lexeme, (first c rest).1⟩ :: pieces, trailing, ?_⟩
      rw [← List.append_assoc]
      exact Decomposes.cons hpiece hrest

end Token

/-- **The tokens of a text are those of its lexemes.** A text is made of lexemes with blanks in
front of them and at the end, and its tokens are those of the lexemes, in order, with the end of the
text behind them. Nothing else is made of lexemes in this way, so a text has no other tokens. -/
theorem ofString_iff_decomposes (text : String) (tokens : List Token) :
    Token.ofString text = tokens ↔
      ∃ pieces blanks, Token.Decomposes [] text.toList pieces blanks ∧
        tokens = pieces.map Token.Piece.token ++ [.eof] := by
  constructor
  · rintro rfl
    obtain ⟨pieces, blanks, h⟩ := Token.exists_decomposes [] text.toList (.nil_left _)
    exact ⟨pieces, blanks, h, h.scan_eq⟩
  · rintro ⟨pieces, blanks, h, rfl⟩
    exact h.scan_eq

end LineCompiler
