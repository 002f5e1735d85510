import LineCompiler.Proofs.Jobs
import LineCompiler.Proofs.SourceText

/-!
# Where names come from

Every name that a compilation meets has been written somewhere in its text, and the scanner cuts it
to the length that words may have.

* `Token.isName_of_mem_scan`: the words among the tokens of a text are legal names.
* `Statement.names_of_read`: a statement is read with no other names than those on its line.
* `Cursor.wellNamed_script`: so all names of a script are legal, and so are those that are left for
  later runs.
-/

namespace LineCompiler

/-! ## Words of a text -/

namespace Token

/-- A legal name is a word of 1 to 255 characters. -/
structure IsName (name : String) : Prop where
  isWord : IsWord name.toList
  length_pos : 1 ≤ name.length
  length_le : name.length ≤ 255

theorem isName_clip {c : Char} (hc : c.isAlpha) (rest : List Char) :
    IsName (clip (c :: rest.takeWhile isWordChar)) where
  isWord := by
    rw [clip, String.toList_ofList]
    refine ⟨hc, fun d hd => ?_⟩
    have hword : isWordChar d := List.mem_takeWhile_imp (List.mem_of_mem_take hd)
    simpa [isWordChar] using hword
  length_pos := by
    rw [clip, String.length_ofList, List.length_take, List.length_cons, maxLength]
    omega
  length_le := by
    rw [clip, String.length_ofList, List.length_take, maxLength]
    omega

theorem firstSymbol_ne_ident (c : Char) (rest : List Char) (name : String) :
    (firstSymbol c rest).1 ≠ ident name := by
  have hsingle : ofChar c ≠ ident name := by
    unfold ofChar
    split <;> exact Token.noConfusion
  cases rest with
  | nil => exact hsingle
  | cons next rest =>
    rw [firstSymbol]
    split
    · rename_i token hpair
      unfold ofPair? at hpair
      split at hpair <;> cases hpair <;> exact Token.noConfusion
    · exact hsingle

theorem isName_of_first {c : Char} {rest : List Char} {name : String}
    (h : (first c rest).1 = ident name) : IsName name := by
  unfold first at h
  split at h
  · cases h
  · split at h
    · rename_i hc
      cases h
      exact isName_clip hc rest
    · exact absurd h (firstSymbol_ne_ident c rest name)

theorem isName_of_mem_scan {text : List Char} {name : String} (h : ident name ∈ scan text) :
    IsName name := by
  induction text using scan.induct with
  | case1 text hdrop =>
    rw [scan_of_nil hdrop] at h
    simp at h
  | case2 text c rest hdrop hlt ih =>
    rw [scan_of_cons hdrop] at h
    rcases List.mem_cons.mp h with hfirst | hrest
    · exact isName_of_first hfirst.symm
    · exact ih hrest

end Token

/-! ## Names of a statement -/

theorem Derives.ident_mem {c : Category} {ts : List Token} {e : Expr} (h : Derives c ts e) :
    ∀ name ∈ e.names, .ident name ∈ ts := by
  induction h with
  | lift _ _ ih => exact ih
  | store _ _ ihtarget ihvalue =>
    intro name hname
    rw [List.mem_append, List.mem_cons]
    rcases List.mem_cons.mp hname with rfl | hname
    · exact .inl (ihtarget _ List.mem_cons_self)
    · exact .inr (.inr (ihvalue name hname))
  | binary _ _ _ ihleft ihright =>
    intro name hname
    rw [List.mem_append, List.mem_cons]
    rcases List.mem_append.mp hname with hname | hname
    · exact .inl (ihleft name hname)
    · exact .inr (.inr (ihright name hname))
  | sign _ _ ih =>
    intro name hname
    exact List.mem_cons_of_mem _ (ih name hname)
  | num digits =>
    intro name hname
    cases hname
  | var name =>
    intro other hother
    rw [List.mem_singleton.mp hother]
    exact List.mem_cons_self
  | step op name =>
    intro other hother
    rw [List.mem_singleton.mp hother]
    exact List.mem_cons_of_mem _ List.mem_cons_self
  | paren _ ih =>
    intro name hname
    exact List.mem_cons_of_mem _ (List.mem_append_left _ (ih name hname))

/-- An expression is computed with no other variables than its own. -/
theorem Expr.name_mem_of_actions {e : Expr} {a : Action} {name : String}
    (hname : a.name? = some name) (ha : a ∈ e.actions []) : name ∈ e.names := by
  have hne {b : Action} (hb : b.name? = none) : a ≠ b := by
    rintro rfl
    cases hname.symm.trans hb
  induction e with
  | num value => exact absurd (List.mem_singleton.mp ha) (hne rfl)
  | var other =>
    rw [List.mem_singleton.mp ha] at hname
    cases hname
    exact List.mem_cons_self
  | binary op left right ihleft ihright =>
    have hparts : a ∈ left.actions [] ∨ a ∈ right.actions [] := by
      rw [actions] at ha
      split at ha
      · rw [left.actions_eq_append, right.actions_eq_append] at ha
        simpa [hne (b := .enterDivisor) rfl, hne (b := .leaveDivisor) rfl,
          hne (b := .combine op) rfl] using ha
      · rw [left.actions_eq_append, right.actions_eq_append] at ha
        simpa [hne (b := .combine op) rfl] using ha
    exact List.mem_append.mpr (hparts.imp ihleft ihright)
  | assign op other right ih =>
    have hparts : a = .load other ∨ a = .store other ∨ a ∈ right.actions [] := by
      rw [actions] at ha
      split at ha
      · rw [right.actions_eq_append, List.mem_append, List.mem_singleton] at ha
        exact .inr ha.symm
      · rename_i op' _
        rw [right.actions_eq_append] at ha
        simpa [hne (b := .combine op') rfl, or_comm] using ha
    rcases hparts with rfl | rfl | ha
    · cases hname
      exact List.mem_cons_self
    · cases hname
      exact List.mem_cons_self
    · exact List.mem_cons_of_mem _ (ih ha)

namespace Statement

/-- Reading only takes tokens off the front. -/
theorem suffix_read (tokens : List Token) : (read tokens).2 <:+ tokens := by
  unfold read
  split
  · exact List.suffix_refl _
  · exact List.suffix_refl _
  · exact List.suffix_cons _ _
  · split
    · rename_i hadvance
      obtain ⟨ts, htokens, -⟩ := Pending.exists_reads_of_advance hadvance
      rw [htokens]
      split
      · exact (List.suffix_cons _ _).trans (List.suffix_append _ _)
      · exact List.suffix_append _ _
    · rename_i hadvance
      obtain ⟨ts, htokens, -⟩ := Pending.exists_reads_of_advance hadvance
      rw [htokens]
      exact List.suffix_append _ _

theorem ident_mem_of_read {tokens rest : List Token} {e : Expr}
    (h : read tokens = (.ok (.expr e), rest)) : ∀ name ∈ e.names, .ident name ∈ tokens := by
  obtain ⟨ts, rfl, hderives⟩ := derives_of_read h
  intro name hname
  exact List.mem_append_left _ (hderives.ident_mem name hname)

end Statement

/-! ## Names of a script -/

/-- All names from this place on are legal. -/
def Cursor.WellNamed (c : Cursor) : Prop := ∀ name, .ident name ∈ c.tokens → Token.IsName name

/-- All names of the statements are legal, and so are those that follow them. -/
def Script.WellNamed : Script → Prop
  | .ends c => c.WellNamed
  | .faulty _ c => c.WellNamed
  | .statement _ tree c rest =>
    (∀ name ∈ tree.names, Token.IsName name) ∧ c.WellNamed ∧ rest.WellNamed

namespace Cursor

variable {c d : Cursor}

theorem wellNamed_ofString (text : String) (line : Nat) : WellNamed ⟨Token.ofString text, line⟩ :=
  fun _ hname => Token.isName_of_mem_scan hname

theorem read_eq_next (c : Cursor) :
    Statement.read c.tokens = (c.next.1, c.next.2.tokens) := by
  unfold next
  split
  · rename_i hread
    exact hread
  · rename_i hread
    exact hread
  · rename_i hread
    exact hread

theorem WellNamed.next (h : c.WellNamed) {result : Except Fault Statement}
    (hnext : c.next = (result, d)) : d.WellNamed := by
  intro name hname
  have hsuffix := Statement.suffix_read c.tokens
  rw [read_eq_next, hnext] at hsuffix
  exact h name (hsuffix.mem hname)

theorem WellNamed.tree (h : c.WellNamed) {tree : Expr} (hnext : c.next = (.ok (.expr tree), d)) :
    ∀ name ∈ tree.names, Token.IsName name := by
  have hread := c.read_eq_next
  rw [hnext] at hread
  intro name hname
  exact h name (Statement.ident_mem_of_read hread name hname)

theorem wellNamed_script (h : c.WellNamed) : c.script.WellNamed := by
  induction c using Cursor.script.induct with
  | case1 c d hnext =>
    rw [script_of_endOfText hnext]
    exact h.next hnext
  | case2 c d hnext hlt ih =>
    rw [script_of_blank hnext]
    exact ih (h.next hnext)
  | case3 c tree d hnext hlt ih =>
    rw [script_of_expr hnext]
    exact ⟨h.tree hnext, h.next hnext, ih (h.next hnext)⟩
  | case4 c fault d hnext =>
    rw [script_of_error hnext]
    exact h.next hnext

end Cursor

end LineCompiler
