import LineCompiler.Proofs.Variables

/-!
# A table and its history

Operations on a table, one after the other, make a history of what was asked and what was answered.
The history alone says in which slot a name lives (`Table.firstSlot`) and which value it has
(`Table.currentValue`). A name that is declared again leaves a variable in the table that no name
finds, and `table_follows_history` shows that the table does as its history says all the same.

* `Table.Acts` is everything that an operation can do to a table, and `Table.acts_perform` shows
  that it does just that.
* `Table.Agrees.acts` is the step lemma: a table that agrees with its history still does so after an
  operation. `Table.agrees_after` follows it through any number of them.
* `Table.Agrees.obeys` says what the next operation answers and what it leaves alone.
-/

namespace LineCompiler.Table

/-! ## Operations -/

inductive Op where
  | declare (name : String) (value : Int32)
  | write (name : String) (value : Int32)
  | read (name : String)
  | lookup (name : String)
  | value (slot : Nat)
  | address (slot : Nat)
  deriving DecidableEq, Repr

inductive Answer where
  /-- A variable was declared or written. -/
  | slot (slot : Nat)
  /-- A variable was read. -/
  | binding (slot : Nat) (value : Int32)
  | place (slot? : Option Nat)
  | value (value? : Option Int32)
  | address (address : Nat)
  | fault (fault : Fault)
  deriving DecidableEq, Repr

/-- The answer of an operation that may fail. Failing, it leaves the table as it is. -/
def settle {α : Type} (t : Table) (answer : α → Answer) : Except Fault (α × Table) → Answer × Table
  | .ok (a, t') => (answer a, t')
  | .error fault => (.fault fault, t)

/-- The answer of an operation and the table after it. -/
def perform (t : Table) : Op → Answer × Table
  | .declare name value => t.settle .slot (t.declare name value)
  | .write name value => t.settle .slot (t.write name value)
  | .read name => t.settle (fun p => .binding p.1 p.2) (t.read name)
  | .lookup name => (.place (t.slot? name), t)
  | .value slot => (.value (t.value? slot), t)
  | .address slot => (.address (t.address slot), t)

/-- The table after these operations. -/
def after (t : Table) (ops : List Op) : Table := ops.foldl (fun t op => (t.perform op).2) t

/-- An operation and its answer. -/
structure Use where
  op : Op
  answer : Answer
  deriving DecidableEq, Repr

/-- The uses of the table in these operations. -/
def history (t : Table) : List Op → List Use
  | [] => []
  | op :: ops => ⟨op, (t.perform op).1⟩ :: (t.perform op).2.history ops

/-! ## What a history says -/

/-- The slot in which the name was declared, written or read. -/
def Use.slot? (use : Use) (name : String) : Option Nat :=
  match use.op, use.answer with
  | .declare n _, .slot slot => if n = name then some slot else none
  | .write n _, .slot slot => if n = name then some slot else none
  | .read n, .binding slot _ => if n = name then some slot else none
  | _, _ => none

/-- The value that was written to the name. -/
def Use.written? (use : Use) (name : String) : Option Int32 :=
  match use.op, use.answer with
  | .write n value, .slot _ => if n = name then some value else none
  | _, _ => none

/-- The value with which the name is declared, if this use declares it without writing to it. -/
def Use.initial? (use : Use) (name : String) : Option Int32 :=
  match use.op, use.answer with
  | .declare n value, .slot _ => if n = name then some value else none
  | .read n, .binding _ _ => if n = name then some 0 else none
  | _, _ => none

/-- The slot of a name: the one in which it was first declared, as its first use that did not fail
is its declaration. -/
def firstSlot (past : List Use) (name : String) : Option Nat := past.findSome? (·.slot? name)

/-- The value of a name: the one last written to it or else the one it was first declared with. -/
def currentValue (past : List Use) (name : String) : Option Int32 :=
  (past.reverse.findSome? (·.written? name)).or (past.findSome? (·.initial? name))

theorem firstSlot_concat (past : List Use) (use : Use) (name : String) :
    firstSlot (past ++ [use]) name = (firstSlot past name).or (use.slot? name) := by
  simp [firstSlot, List.findSome?_append]

theorem currentValue_concat (past : List Use) (use : Use) (name : String) :
    currentValue (past ++ [use]) name =
      (use.written? name).or ((currentValue past name).or (use.initial? name)) := by
  simp only [currentValue, List.reverse_append, List.reverse_singleton, List.findSome?_append,
    List.findSome?_singleton, Option.or_assoc]

/-! ## What an operation can do -/

/-- What an operation can do to the table: it leaves the table as it is, gives the first slot of a
name another value, or adds a variable. -/
inductive Acts (t : Table) : Op → Answer → Table → Prop
  | declare {name value} (hroom : t.size < t.config.capacity) :
    Acts t (.declare name value) (.slot t.size) (t.extend name value)
  | declareFull {name value} (hfull : t.config.capacity ≤ t.size) :
    Acts t (.declare name value) (.fault (.tableFull t.config.capacity)) t
  | write {name value slot} (hslot : t.slot? name = some slot) :
    Acts t (.write name value) (.slot slot) (t.assign slot value)
  | writeNew {name value} (hslot : t.slot? name = none) (hroom : t.size < t.config.capacity) :
    Acts t (.write name value) (.slot t.size) (t.extend name value)
  | writeFull {name value} (hslot : t.slot? name = none) (hfull : t.config.capacity ≤ t.size) :
    Acts t (.write name value) (.fault (.tableFull t.config.capacity)) t
  | read {name slot value} (hslot : t.slot? name = some slot)
      (hvalue : t.value? slot = some value) :
    Acts t (.read name) (.binding slot value) t
  | readNew {name} (hslot : t.slot? name = none) (hroom : t.size < t.config.capacity)
      (hread : t.config.declareOnRead = true) :
    Acts t (.read name) (.binding t.size 0) (t.extend name 0)
  | readFull {name} (hslot : t.slot? name = none) (hfull : t.config.capacity ≤ t.size) :
    Acts t (.read name) (.fault (.tableFull t.config.capacity)) t
  | readUndefined {name} (hslot : t.slot? name = none) (hroom : t.size < t.config.capacity)
      (hread : t.config.declareOnRead = false) :
    Acts t (.read name) (.fault (.undefined name)) t
  | lookup {name} : Acts t (.lookup name) (.place (t.slot? name)) t
  | value {slot} : Acts t (.value slot) (.value (t.value? slot)) t
  | address {slot} : Acts t (.address slot) (.address (t.address slot)) t

theorem acts_perform (t : Table) (op : Op) : t.Acts op (t.perform op).1 (t.perform op).2 := by
  cases op with
  | declare name value =>
    rw [perform]
    cases hdeclare : t.declare name value with
    | ok p =>
      obtain ⟨hroom, hslot, htable⟩ := declare_eq_ok.mp hdeclare
      rw [settle, hslot, htable]
      exact .declare hroom
    | error fault =>
      obtain ⟨hfull, rfl⟩ := declare_eq_error.mp hdeclare
      exact .declareFull hfull
  | write name value =>
    rw [perform]
    cases hwrite : t.write name value with
    | ok p =>
      rcases write_eq_ok.mp hwrite with ⟨hslot, htable⟩ | ⟨hnone, hroom, hslot, htable⟩
      · rw [settle, htable]
        exact .write hslot
      · rw [settle, hslot, htable]
        exact .writeNew hnone hroom
    | error fault =>
      obtain ⟨hnone, hfull, rfl⟩ := write_eq_error.mp hwrite
      exact .writeFull hnone hfull
  | read name =>
    rw [perform]
    cases hread : t.read name with
    | ok p =>
      rcases read_eq_ok.mp hread with
        ⟨hslot, hvalue, htable⟩ | ⟨hnone, hroom, honRead, hslot, hvalue, htable⟩
      · rw [settle, htable]
        exact .read hslot hvalue
      · rw [settle, hslot, hvalue, htable]
        exact .readNew hnone hroom honRead
    | error fault =>
      obtain ⟨hnone, ⟨hfull, rfl⟩ | ⟨hroom, honRead, rfl⟩⟩ := read_eq_error.mp hread
      · exact .readFull hnone hfull
      · exact .readUndefined hnone hroom honRead
  | lookup name => exact .lookup
  | value slot => exact .value
  | address slot => exact .address

variable {t t' : Table} {op : Op} {answer : Answer} {name : String} {slot : Nat} {value : Int32}

theorem Acts.config_eq (h : t.Acts op answer t') : t'.config = t.config := by
  cases h <;> rfl

theorem Acts.names_mono (h : t.Acts op answer t') : t.names <+: t'.names := by
  cases h with
  | declare | writeNew | readNew => exact ⟨_, names_extend.symm⟩
  | write => rw [names_assign]
  | _ => exact List.prefix_refl _

/-- Only a write changes a value, and only in the first slot of its name. -/
theorem Acts.value?_eq (h : t.Acts op answer t') {s : Nat} (hs : s < t.size)
    (hother : ∀ name value, op = .write name value → t.slot? name ≠ some s) :
    t'.value? s = t.value? s := by
  cases h with
  | declare | writeNew | readNew => rw [value?_extend, if_neg (Nat.ne_of_lt hs)]
  | @write name value slot hslot =>
    have hne : ¬ (s = slot ∧ s < t.size) := by
      rintro ⟨rfl, -⟩
      exact hother name value rfl hslot
    rw [value?_assign, if_neg hne]
  | _ => rfl

/-- A fault leaves the table as it is, and the table is full or the name unknown. -/
theorem Acts.fault {f : Fault} (h : t.Acts op (.fault f) t') :
    t' = t ∧ ((f = .tableFull t.config.capacity ∧ t.config.capacity ≤ t.size) ∨
      ∃ name, op = .read name ∧ f = .undefined name ∧ t.size < t.config.capacity ∧
        t.config.declareOnRead = false) := by
  cases h with
  | declareFull hfull | writeFull _ hfull | readFull _ hfull => exact ⟨rfl, .inl ⟨rfl, hfull⟩⟩
  | @readUndefined name _ hroom hread => exact ⟨rfl, .inr ⟨name, rfl, rfl, hroom, hread⟩⟩

/-! ## The value of a name -/

/-- The value in the slot of a name. -/
def current? (t : Table) (name : String) : Option Int32 := (t.slot? name).bind t.value?

theorem current?_eq_none_iff : t.current? name = none ↔ t.slot? name = none := by
  rw [current?, Option.bind_eq_none_iff]
  constructor
  · intro h
    by_contra hne
    obtain ⟨slot, hslot⟩ := Option.ne_none_iff_exists'.mp hne
    obtain ⟨value, hvalue⟩ := exists_value?_of_slot? hslot
    rw [h slot hslot] at hvalue
    cases hvalue
  · intro h slot hslot
    rw [h] at hslot
    cases hslot

theorem current?_extend (n : String) :
    (t.extend name value).current? n =
      (t.current? n).or (if name = n then some value else none) := by
  rw [current?, slot?_extend, current?]
  cases hslot : t.slot? n with
  | some s =>
    obtain ⟨v, hv⟩ := exists_value?_of_slot? hslot
    have hs := lt_size_of_slot? hslot
    rw [Option.some_or, Option.bind_some, Option.bind_some, value?_extend,
      if_neg (Nat.ne_of_lt hs), hv, Option.some_or]
  | none =>
    by_cases hn : name = n
    · simp [hn, value?_extend]
    · simp [hn]

theorem current?_assign (hslot : t.slot? name = some slot) (n : String) :
    (t.assign slot value).current? n = if name = n then some value else t.current? n := by
  rw [current?, slot?_assign]
  by_cases hn : name = n
  · rw [if_pos hn, ← hn, hslot, Option.bind_some, value?_assign,
      if_pos ⟨rfl, lt_size_of_slot? hslot⟩]
  · rw [if_neg hn, current?]
    cases hs : t.slot? n with
    | none => rfl
    | some s =>
      have hne : ¬ (s = slot ∧ s < t.size) := by
        rintro ⟨rfl, -⟩
        exact hn (slot?_inj hslot hs)
      rw [Option.bind_some, value?_assign, if_neg hne, Option.bind_some]

/-! ## Tables that agree with their history -/

/-- A table is as its history says. -/
structure Agrees (past : List Use) (t : Table) : Prop where
  size_le : t.size ≤ t.config.capacity
  slot : ∀ name, t.slot? name = firstSlot past name
  value : ∀ name, t.current? name = currentValue past name

namespace Agrees

variable {past : List Use} {use : Use}

/-- A use that leaves the table as it is and tells nothing new about a name. -/
theorem same (h : Agrees past t) (hslot : ∀ n s, use.slot? n = some s → t.slot? n = some s)
    (hwritten : ∀ n, use.written? n = none)
    (hinitial : ∀ n, use.initial? n = none ∨ t.slot? n ≠ none) : Agrees (past ++ [use]) t where
  size_le := h.size_le
  slot n := by
    rw [firstSlot_concat, ← h.slot]
    cases huse : use.slot? n with
    | none => rw [Option.or_none]
    | some s => rw [hslot n s huse, Option.some_or]
  value n := by
    rw [currentValue_concat, hwritten, Option.none_or, ← h.value]
    rcases hinitial n with hnone | hknown
    · rw [hnone, Option.or_none]
    · obtain ⟨v, hv⟩ := Option.ne_none_iff_exists'.mp (mt current?_eq_none_iff.mp hknown)
      rw [hv, Option.some_or]

/-- A use that adds a variable. -/
theorem extend (h : Agrees past t) (hroom : t.size < t.config.capacity)
    (hslot : ∀ n, use.slot? n = if name = n then some t.size else none)
    (hvalue : ∀ n, currentValue (past ++ [use]) n =
      (currentValue past n).or (if name = n then some value else none)) :
    Agrees (past ++ [use]) (t.extend name value) where
  size_le := by
    rw [size_extend]
    exact hroom
  slot n := by rw [slot?_extend, firstSlot_concat, hslot, h.slot]
  value n := by rw [current?_extend, hvalue, h.value]

/-- A use that writes to a known name. -/
theorem assign (h : Agrees past t) (hslot : t.slot? name = some slot) :
    Agrees (past ++ [⟨.write name value, .slot slot⟩]) (t.assign slot value) where
  size_le := by
    rw [size_assign]
    exact h.size_le
  slot n := by
    rw [slot?_assign, firstSlot_concat, ← h.slot]
    by_cases hn : name = n
    · rw [← hn, hslot, Option.some_or]
    · simp [Use.slot?, hn]
  value n := by
    rw [current?_assign hslot, currentValue_concat, ← h.value]
    by_cases hn : name = n
    · simp [Use.written?, hn]
    · simp [Use.written?, Use.initial?, hn]

/-- **One operation.** A table that agrees with its history agrees with it after any operation. -/
theorem acts (h : Agrees past t) (hacts : t.Acts op answer t') :
    Agrees (past ++ [⟨op, answer⟩]) t' := by
  cases hacts with
  | declare hroom =>
    refine h.extend hroom (fun n => rfl) (fun n => ?_)
    rw [currentValue_concat]
    rfl
  | @writeNew name value hslot hroom =>
    refine h.extend hroom (fun n => rfl) (fun n => ?_)
    rw [currentValue_concat, ← h.value]
    by_cases hn : name = n
    · simp [Use.written?, ← hn, current?_eq_none_iff.mpr hslot]
    · simp [Use.written?, Use.initial?, hn]
  | readNew hslot hroom hread =>
    refine h.extend hroom (fun n => rfl) (fun n => ?_)
    rw [currentValue_concat]
    rfl
  | write hslot => exact h.assign hslot
  | @read name slot value hslot hvalue =>
    have hknown (n : String) : name = n → t.slot? n = some slot := fun hn => hn ▸ hslot
    apply h.same
    · intro n s huse
      by_cases hn : name = n
      · simp only [Use.slot?, if_pos hn] at huse
        rw [hknown n hn, huse]
      · simp [Use.slot?, hn] at huse
    · exact fun n => rfl
    · intro n
      by_cases hn : name = n
      · exact .inr (by simp [hknown n hn])
      · exact .inl (if_neg hn)
  | _ =>
    exact h.same nofun (fun n => rfl) (fun n => .inl rfl)

end Agrees

/-- **Any number of operations.** -/
theorem agrees_after {past : List Use} (h : Agrees past t) (ops : List Op) :
    Agrees (past ++ t.history ops) (t.after ops) := by
  induction ops generalizing t past with
  | nil =>
    rw [history, List.append_nil]
    exact h
  | cons op ops ih =>
    have hnext := ih (h.acts (t.acts_perform op))
    rwa [List.append_assoc] at hnext

theorem agrees_empty (config : Config) : Agrees [] { config } where
  size_le := Nat.zero_le _
  slot _ := rfl
  value _ := rfl

theorem config_after (t : Table) (ops : List Op) : (t.after ops).config = t.config := by
  induction ops generalizing t with
  | nil => rfl
  | cons op ops ih => exact (ih (t.perform op).2).trans (t.acts_perform op).config_eq

/-! ## What a table does after its history -/

/-- What the tables after this one keep: the variables and their names, and the slot of a name. -/
structure Keeps (t t' : Table) : Prop where
  size_le : t.size ≤ t'.size
  names : t.names <+: t'.names
  slot : ∀ name slot, t.slot? name = some slot → t'.slot? name = some slot

theorem keeps_after (t : Table) (ops : List Op) : Keeps t (t.after ops) := by
  have hnames : t.names <+: (t.after ops).names := by
    induction ops generalizing t with
    | nil => exact List.prefix_refl _
    | cons op ops ih => exact (t.acts_perform op).names_mono.trans (ih _)
  refine ⟨?_, hnames, fun name slot => slot?_mono hnames⟩
  have hlength := hnames.length_le
  rwa [names, names, List.length_map, List.length_map] at hlength

/-- The answer of an operation that needs a new slot. -/
def inNewSlot (t : Table) (answer : Answer) : Answer :=
  if t.size < t.config.capacity then answer else .fault (.tableFull t.config.capacity)

theorem inNewSlot_of_room (hroom : t.size < t.config.capacity) : t.inNewSlot answer = answer :=
  if_pos hroom

theorem inNewSlot_of_full (hfull : t.config.capacity ≤ t.size) :
    t.inNewSlot answer = .fault (.tableFull t.config.capacity) :=
  if_neg (Nat.not_lt.mpr hfull)

/-- What the table answers after a history. A known name is read and written in its slot, and it is
read with its value; any other name needs a new slot. -/
def Answers (past : List Use) (t : Table) (answer : Answer) : Op → Prop
  | .declare _ _ => answer = t.inNewSlot (.slot t.size)
  | .write name _ =>
    (∃ slot, firstSlot past name = some slot ∧ answer = .slot slot) ∨
    (firstSlot past name = none ∧ answer = t.inNewSlot (.slot t.size))
  | .read name =>
    (∃ slot value, firstSlot past name = some slot ∧ currentValue past name = some value ∧
      answer = .binding slot value) ∨
    (firstSlot past name = none ∧ answer = t.inNewSlot
      (if t.config.declareOnRead then .binding t.size 0 else .fault (.undefined name)))
  | .lookup name => answer = .place (firstSlot past name)
  | .value slot => answer = .value (t.value? slot)
  | .address slot => answer = .address (slot * t.config.wordSize % 2 ^ 64)

theorem Agrees.answers {past : List Use} (h : Agrees past t) (hacts : t.Acts op answer t') :
    Answers past t answer op := by
  cases hacts with
  | declare hroom => exact (inNewSlot_of_room hroom).symm
  | declareFull hfull => exact (inNewSlot_of_full hfull).symm
  | write hslot => exact .inl ⟨_, (h.slot _).symm.trans hslot, rfl⟩
  | writeNew hslot hroom =>
    exact .inr ⟨(h.slot _).symm.trans hslot, (inNewSlot_of_room hroom).symm⟩
  | writeFull hslot hfull =>
    exact .inr ⟨(h.slot _).symm.trans hslot, (inNewSlot_of_full hfull).symm⟩
  | @read name slot value hslot hvalue =>
    have hcurrent : currentValue past name = some value := by
      rw [← h.value, current?, hslot, Option.bind_some, hvalue]
    exact .inl ⟨slot, value, (h.slot name).symm.trans hslot, hcurrent, rfl⟩
  | readNew hslot hroom hread =>
    refine .inr ⟨(h.slot _).symm.trans hslot, ?_⟩
    rw [inNewSlot_of_room hroom, if_pos hread]
  | readFull hslot hfull =>
    exact .inr ⟨(h.slot _).symm.trans hslot, (inNewSlot_of_full hfull).symm⟩
  | @readUndefined name hslot hroom hread =>
    refine .inr ⟨(h.slot name).symm.trans hslot, ?_⟩
    rw [inNewSlot_of_room hroom, hread]
    rfl
  | lookup => exact congrArg Answer.place (h.slot _)
  | value => rfl
  | address => exact congrArg Answer.address (address_eq_mod _ _)

/-- What an operation may do after a history. -/
structure Obeys (past : List Use) (t : Table) (op : Op) (answer : Answer) (t' : Table) : Prop where
  answers : Answers past t answer op
  /-- A declaration adds a variable, whether or not the name is known. -/
  declared : ∀ name value, op = .declare name value → t.size < t.config.capacity →
    t' = t.extend name value
  /-- Only the slot of a written name changes its value. -/
  others : ∀ slot < t.size,
    (∀ name value, op = .write name value → firstSlot past name ≠ some slot) →
      t'.value? slot = t.value? slot
  /-- A fault changes nothing. The table is full, or else a name is read that is unknown and that
  reading does not declare. -/
  fault : ∀ fault, answer = .fault fault → t' = t ∧
    ((fault = .tableFull t.config.capacity ∧ t.size = t.config.capacity) ∨
      ∃ name, op = .read name ∧ fault = .undefined name ∧ t.size < t.config.capacity ∧
        t.config.declareOnRead = false)

theorem Agrees.obeys {past : List Use} (h : Agrees past t) (hacts : t.Acts op answer t') :
    Obeys past t op answer t' where
  answers := h.answers hacts
  declared := by
    rintro name value rfl hroom
    cases hacts with
    | declare => rfl
    | declareFull hfull => omega
  others slot hslot hother := by
    apply hacts.value?_eq hslot
    intro name value hop
    rw [h.slot]
    exact hother name value hop
  fault := by
    rintro fault rfl
    obtain ⟨htable, ⟨hfault, hfull⟩ | hundefined⟩ := hacts.fault
    · exact ⟨htable, .inl ⟨hfault, Nat.le_antisymm h.size_le hfull⟩⟩
    · exact ⟨htable, .inr hundefined⟩

end LineCompiler.Table

namespace LineCompiler

/-- **A table follows its history.** After any operations on an empty table, a name lives in the
slot in which it was first declared and has the value last written to it, or else the value of that
declaration; later operations take none of this back, and the next one answers as the history says,
changes no other slot and nothing at all if it fails. -/
theorem table_follows_history (config : Config) (ops : List Table.Op) :
    let t := Table.after { config } ops
    let past := Table.history { config } ops
    t.config = config ∧ Table.Agrees past t ∧ (∀ more, Table.Keeps t (t.after more)) ∧
      ∀ op, Table.Obeys past t op (t.perform op).1 (t.perform op).2 := by
  intro t past
  have hagrees : Table.Agrees past t := Table.agrees_after (Table.agrees_empty config) ops
  refine ⟨Table.config_after _ ops, hagrees, t.keeps_after, fun op => ?_⟩
  exact hagrees.obeys (t.acts_perform op)

/-- Declared again, a name keeps its slot and its value. -/
example :
    (Table.history { config := { capacity := 3 } }
      [.declare "x" 1, .declare "x" 2, .read "x", .write "x" 7, .declare "x" 9, .read "x",
        .value 1, .declare "y" 0]).map Table.Use.answer =
      [.slot 0, .slot 1, .binding 0 1, .slot 0, .slot 2, .binding 0 7, .value (some 2),
        .fault (.tableFull 3)] := by
  decide

end LineCompiler
