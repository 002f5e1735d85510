import LineCompiler.Proofs.Walks

/-!
# Printing along the left operands

The prefix form of an expression is defined by the list of its words. This module compares it with
two printers.

* `Expr.recursiveForm` puts the form of an expression together from the forms of its parts.
* `Expr.print` spends no recursion on left operands. `Expr.descend` follows them down, writing the
  operators on the way and stacking the right operands, which `Expr.replay` prints from the top of
  the stack.
* `Expr.recursiveForm_descend` is the invariant of the descent: what has been written, the operand
  at hand and the stack make up the whole text at any time.
* `printers_agree` says that all three come to the same text.
-/

namespace LineCompiler

namespace Expr

/-! ## The printers -/

/-- The prefix form, by recursion on the tree. -/
def recursiveForm : Expr → String
  | num value => toString value
  | var name => name
  | binary op left right =>
    op.symbol ++ " " ++ left.recursiveForm ++ " " ++ right.recursiveForm
  | assign op name right => op.symbol ++ " " ++ name ++ " " ++ right.recursiveForm

/-- How far an expression is printed: the text so far, the operand to go on with, and the right
operands that have been put off, the last one first. -/
structure Descent where
  text : String
  operand : Expr
  rights : List Expr

/-- Follows the left operands down to the first one, writing the operators and stacking the right
operands. -/
def descend (text : String) (rights : List Expr) : Expr → Descent
  | binary op left right => descend (text ++ (op.symbol ++ " ")) (right :: rights) left
  | e => ⟨text, e, rights⟩

example : descend "" [] (binary .sub (binary .mul (num 5) (num 2)) (var "x")) =
    ⟨"- * ", num 5, [num 2, var "x"]⟩ := rfl

/-- The number of nodes that a stack adds to the first operand: those of its operands, and one for
the operator of each. -/
def stackNodes (rights : List Expr) : Nat := (rights.map fun right => right.nodes + 1).sum

theorem stackNodes_map_snd (links : List (BinOp × Expr)) :
    stackNodes (links.map Prod.snd) = linkNodes links := by
  induction links with
  | nil => rfl
  | cons link links ih =>
    rw [linkNodes, ← ih, stackNodes, List.map_cons, List.map_cons, List.sum_cons, ← stackNodes]

/-- The descent comes to the first operand, and stacks those of the links behind it. -/
theorem descend_eq_spine (text : String) (links : List (BinOp × Expr)) (e : Expr) :
    (e.descend text (links.map Prod.snd)).operand = (e.spine links).1 ∧
      (e.descend text (links.map Prod.snd)).rights = (e.spine links).2.map Prod.snd := by
  induction e generalizing text links with
  | num | var | assign => exact ⟨rfl, rfl⟩
  | binary op left right ihl _ => exact ihl _ ((op, right) :: links)

theorem nodes_descend_lt (text : String) (op : BinOp) (left right : Expr) :
    ((binary op left right).descend text []).operand.nodes < (binary op left right).nodes := by
  have hspine := ((binary op left right).descend_eq_spine text []).1
  rw [List.map_nil] at hspine
  rw [hspine]
  exact nodes_spine_lt op left right

theorem stackNodes_descend_lt (text : String) (op : BinOp) (left right : Expr) :
    stackNodes ((binary op left right).descend text []).rights < (binary op left right).nodes := by
  have hspine := ((binary op left right).descend_eq_spine text []).2
  rw [List.map_nil] at hspine
  rw [hspine, stackNodes_map_snd]
  exact linkNodes_spine_lt op left right

theorem nodes_lt_stackNodes (right : Expr) (rest : List Expr) :
    right.nodes < stackNodes (right :: rest) := by
  rw [stackNodes, List.map_cons, List.sum_cons]
  omega

theorem stackNodes_lt_cons (right : Expr) (rest : List Expr) :
    stackNodes rest < stackNodes (right :: rest) := by
  rw [stackNodes, stackNodes, List.map_cons, List.sum_cons]
  omega

mutual

/-- Adds the prefix form of an expression to a text. -/
def print (text : String) : Expr → String
  | num value => text ++ toString value
  | var name => text ++ name
  | binary op left right =>
    let d := (binary op left right).descend text []
    replay (print d.text d.operand) d.rights
  | assign op name right => print (text ++ (op.symbol ++ " " ++ name ++ " ")) right
termination_by e => e.nodes
decreasing_by
  · exact nodes_descend_lt _ op left right
  · exact stackNodes_descend_lt _ op left right
  · exact Nat.lt_succ_self _

/-- Adds the operands of a stack to a text, from the top and with a space in front of each. -/
def replay (text : String) : List Expr → String
  | [] => text
  | right :: rest => replay (print (text ++ " ") right) rest
termination_by rights => stackNodes rights
decreasing_by
  · exact nodes_lt_stackNodes right rest
  · exact stackNodes_lt_cons right rest

end

/-! ## Printing by recursion -/

/-- What the operands of a stack add to a text. -/
def stackForm : List Expr → String
  | [] => ""
  | right :: rest => " " ++ right.recursiveForm ++ stackForm rest

/-- **The descent loses nothing.** It makes no difference to the whole text how far the left
operands have been followed. -/
theorem recursiveForm_descend (text : String) (rights : List Expr) (e : Expr) :
    (e.descend text rights).text ++ (e.descend text rights).operand.recursiveForm ++
        stackForm (e.descend text rights).rights =
      text ++ e.recursiveForm ++ stackForm rights := by
  induction e generalizing text rights with
  | num | var | assign => rfl
  | binary op left right ihl _ =>
    rw [descend, ihl, stackForm, recursiveForm]
    simp only [String.append_assoc]

mutual

theorem print_eq_append (text : String) (e : Expr) : print text e = text ++ e.recursiveForm := by
  match e with
  | num value => rw [print, recursiveForm]
  | var name => rw [print, recursiveForm]
  | binary op left right =>
    rw [print, print_eq_append, replay_eq_append, recursiveForm_descend, stackForm,
      String.append_empty]
  | assign op name right =>
    rw [print, print_eq_append _ right, recursiveForm]
    simp only [String.append_assoc]
termination_by e.nodes
decreasing_by
  · exact nodes_descend_lt _ op left right
  · exact stackNodes_descend_lt _ op left right
  · exact Nat.lt_succ_self _

theorem replay_eq_append (text : String) (rights : List Expr) :
    replay text rights = text ++ stackForm rights := by
  match rights with
  | [] => rw [replay, stackForm, String.append_empty]
  | right :: rest =>
    rw [replay, print_eq_append _ right, replay_eq_append _ rest, stackForm]
    simp only [String.append_assoc]
termination_by stackNodes rights
decreasing_by
  · exact nodes_lt_stackNodes right rest
  · exact stackNodes_lt_cons right rest

end

/-! ## Printing by words -/

theorem words_ne_nil (e : Expr) (rest : List String) : e.words rest ≠ [] := by
  cases e <;> exact List.cons_ne_nil _ _

theorem prefixForm_eq_recursiveForm (e : Expr) : e.prefixForm = e.recursiveForm := by
  induction e with
  | num | var => exact String.intercalate_singleton
  | binary op left right ihl ihr =>
    rw [prefixForm, words, words_eq_append left,
      String.intercalate_cons_of_ne_nil
        (List.append_ne_nil_of_left_ne_nil (left.words_ne_nil []) _),
      String.intercalate_append_of_ne_nil (left.words_ne_nil []) (right.words_ne_nil []),
      ← prefixForm, ← prefixForm, ihl, ihr, recursiveForm]
    simp only [String.append_assoc]
  | assign op name right ih =>
    rw [prefixForm, words, String.intercalate_cons_cons,
      String.intercalate_cons_of_ne_nil (right.words_ne_nil []), ← prefixForm, ih, recursiveForm]
    simp only [String.append_assoc]

end Expr

/-- **The printers agree.** The prefix form of any expression, whatever the names in it, is what
plain recursion puts together: the operator, a space, the left side, a space and the right side.
Printing it along the left operands adds the same to any text. -/
theorem printers_agree (e : Expr) :
    e.prefixForm = e.recursiveForm ∧ ∀ text, e.print text = text ++ e.recursiveForm :=
  ⟨e.prefixForm_eq_recursiveForm, fun text => Expr.print_eq_append text e⟩

end LineCompiler
