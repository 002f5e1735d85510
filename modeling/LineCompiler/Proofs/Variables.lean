import Mathlib
import LineCompiler.Table

/-!
# What the table operations do

An operation on the table leaves it as it is, gives a slot another value (`Table.assign`), or adds a
variable behind the others (`Table.extend`). `Table.declare_eq_ok`, `Table.read_eq_ok` and
`Table.write_eq_ok` say which of these happens and when, and `Table.declare_eq_error`,
`Table.read_eq_error` and `Table.write_eq_error` when an operation fails instead, so that nothing
else has to look into the operations.
-/

namespace LineCompiler.Table

/-- The names of the variables in slot order. -/
def names (t : Table) : List String := t.vars.map Var.name

/-- The table with one more variable. -/
def extend (t : Table) (name : String) (value : Int32) : Table :=
  { t with vars := t.vars ++ [⟨name, value⟩] }

/-- The table with another value in a slot. -/
def assign (t : Table) (slot : Nat) (value : Int32) : Table :=
  { t with vars := t.vars.modify slot fun var => { var with value } }

variable {t t' : Table} {name : String} {slot : Nat} {value : Int32}

/-! ## Slots and values -/

theorem slot?_eq_idxOf? (t : Table) (name : String) : t.slot? name = t.names.idxOf? name := by
  rw [slot?, find?, ← List.findIdx?_eq_map_findFinIdx?_val, names, List.idxOf?, List.findIdx?_map]
  rfl

theorem length_names (t : Table) : t.names.length = t.size := List.length_map _

@[simp] theorem config_extend : (t.extend name value).config = t.config := rfl

@[simp] theorem config_assign : (t.assign slot value).config = t.config := rfl

@[simp] theorem address_extend (s : Nat) : (t.extend name value).address s = t.address s := rfl

@[simp] theorem address_assign (s : Nat) : (t.assign slot value).address s = t.address s := rfl

@[simp] theorem size_extend : (t.extend name value).size = t.size + 1 := by
  simp [extend, size]

@[simp] theorem size_assign : (t.assign slot value).size = t.size := by
  simp [assign, size]

@[simp] theorem names_extend : (t.extend name value).names = t.names ++ [name] := by
  simp [extend, names]

@[simp] theorem names_assign : (t.assign slot value).names = t.names := by
  refine List.ext_getElem? fun i => ?_
  simp only [assign, names, List.getElem?_map, List.getElem?_modify]
  cases t.vars[i]? with
  | none => rfl
  | some var =>
    by_cases h : slot = i
    · simp [h]
    · simp [h]

theorem value?_eq_none_iff : t.value? slot = none ↔ t.size ≤ slot := by
  rw [value?, Option.map_eq_none_iff, List.getElem?_eq_none_iff, size]

theorem value?_extend (s : Nat) :
    (t.extend name value).value? s = if s = t.size then some value else t.value? s := by
  by_cases hs : s = t.size
  · rw [if_pos hs, hs]
    simp [extend, value?, size]
  · rw [if_neg hs]
    by_cases hlt : s < t.size
    · rw [extend, value?, value?, List.getElem?_append_left hlt]
    · have hle : t.size ≤ s := by omega
      rw [value?_eq_none_iff.mpr hle, value?_eq_none_iff, size_extend]
      omega

theorem value?_assign (s : Nat) :
    (t.assign slot value).value? s =
      if s = slot ∧ s < t.size then some value else t.value? s := by
  simp only [assign, value?, List.getElem?_modify]
  by_cases hs : slot = s
  · by_cases hlt : s < t.vars.length
    · simp [hs, hlt, size]
    · simp [hs, hlt, size]
  · have hne : ¬ s = slot := fun h => hs h.symm
    simp [hs, hne]

theorem lt_size_of_slot? (h : t.slot? name = some slot) : slot < t.size := by
  obtain ⟨place, -, rfl⟩ := Option.map_eq_some_iff.mp h
  exact place.isLt

theorem slot?_eq_findIdx? (t : Table) (name : String) :
    t.slot? name = t.names.findIdx? (· == name) := slot?_eq_idxOf? t name

/-- A name stays in its slot when variables are added. -/
theorem slot?_mono (h : t.names <+: t'.names) (hslot : t.slot? name = some slot) :
    t'.slot? name = some slot := by
  obtain ⟨more, hnames⟩ := h
  rw [slot?_eq_findIdx?] at hslot ⊢
  rw [← hnames, List.findIdx?_append, hslot, Option.some_or]

theorem slot?_extend (n : String) :
    (t.extend name value).slot? n = (t.slot? n).or (if name = n then some t.size else none) := by
  rw [slot?_eq_findIdx?, slot?_eq_findIdx?, names_extend, List.findIdx?_append]
  by_cases hn : name = n
  · simp [hn, names, size]
  · simp [hn]

theorem slot?_assign (n : String) : (t.assign slot value).slot? n = t.slot? n := by
  rw [slot?_eq_idxOf?, slot?_eq_idxOf?, names_assign]

theorem slot?_inj {n : String} (h : t.slot? name = some slot) (h' : t.slot? n = some slot) :
    name = n := by
  rw [slot?_eq_findIdx?] at h h'
  obtain ⟨hlt, hname, -⟩ := List.findIdx?_eq_some_iff_getElem.mp h
  obtain ⟨_, hn, -⟩ := List.findIdx?_eq_some_iff_getElem.mp h'
  exact (beq_iff_eq.mp hname).symm.trans (beq_iff_eq.mp hn)

theorem exists_value?_of_slot? (h : t.slot? name = some slot) :
    ∃ value, t.value? slot = some value := by
  apply Option.ne_none_iff_exists'.mp
  intro hnone
  have := value?_eq_none_iff.mp hnone
  have := lt_size_of_slot? h
  omega

/-! ## Addresses -/

theorem address_eq_mod (t : Table) (slot : Nat) :
    t.address slot = slot * t.config.wordSize % 2 ^ 64 := rfl

/-- The memory cell that a slot stands for. -/
def cell (t : Table) (slot : Nat) : Nat := slot * t.config.wordSize

/-- No variable has a cell that an address is too short for. -/
def Addressable (t : Table) : Prop := ∀ slot < t.size, t.cell slot < 2 ^ 64

@[simp] theorem cell_extend (s : Nat) : (t.extend name value).cell s = t.cell s := rfl

@[simp] theorem cell_assign (s : Nat) : (t.assign slot value).cell s = t.cell s := rfl

theorem cell_inj (hspaced : 1 ≤ t.config.wordSize) {a b : Nat} : t.cell a = t.cell b ↔ a = b :=
  Nat.mul_left_inj (Nat.one_le_iff_ne_zero.mp hspaced)

theorem Addressable.address_eq (h : t.Addressable) (hslot : slot < t.size) :
    t.address slot = t.cell slot := by
  rw [address_eq_mod]
  exact Nat.mod_eq_of_lt (h slot hslot)

theorem Addressable.of_extend (h : (t.extend name value).Addressable) : t.Addressable := by
  intro slot hslot
  exact h slot (by rw [size_extend]; omega)

theorem addressable_assign : (t.assign slot value).Addressable ↔ t.Addressable := by
  rw [Addressable, Addressable, size_assign]
  rfl

/-! ## Operations -/

theorem declare_eq_ok :
    t.declare name value = .ok (slot, t') ↔
      t.size < t.config.capacity ∧ slot = t.size ∧ t' = t.extend name value := by
  unfold declare isFull
  split
  · rename_i hfull
    simp only [decide_eq_true_eq] at hfull
    simp [Nat.not_lt.mpr hfull]
  · rename_i hfull
    simp only [decide_eq_true_eq, Nat.not_le] at hfull
    simp [hfull, extend, eq_comm]

theorem declare_eq_error {fault : Fault} :
    t.declare name value = .error fault ↔
      t.config.capacity ≤ t.size ∧ fault = .tableFull t.config.capacity := by
  unfold declare isFull
  split
  · rename_i hfull
    simp only [decide_eq_true_eq] at hfull
    simp [hfull, eq_comm]
  · rename_i hfull
    simp only [decide_eq_true_eq] at hfull
    simp [hfull]

theorem slot?_of_find? {place : Fin t.vars.length} (h : t.find? name = some place) :
    t.slot? name = some place.val := by
  rw [slot?, h]
  rfl

theorem slot?_of_find?_none (h : t.find? name = none) : t.slot? name = none := by
  rw [slot?, h]
  rfl

theorem value?_of_lt (place : Fin t.vars.length) :
    t.value? place.val = some (t.vars.get place).value := by
  simp [value?]

theorem read_eq_ok :
    t.read name = .ok ((slot, value), t') ↔
      (t.slot? name = some slot ∧ t.value? slot = some value ∧ t' = t) ∨
      (t.slot? name = none ∧ t.size < t.config.capacity ∧ t.config.declareOnRead = true ∧
        slot = t.size ∧ value = 0 ∧ t' = t.extend name 0) := by
  unfold read
  split
  · rename_i place hfind
    rw [slot?_of_find? hfind]
    constructor
    · intro h
      cases h
      exact .inl ⟨rfl, value?_of_lt place, rfl⟩
    · rintro (⟨hslot, hvalue, rfl⟩ | ⟨hslot, -⟩)
      · cases hslot
        rw [value?_of_lt] at hvalue
        cases hvalue
        rfl
      · cases hslot
  · rename_i hfind
    rw [slot?_of_find?_none hfind]
    by_cases hfull : t.isFull
    · have hle : t.config.capacity ≤ t.size := by simpa [isFull] using hfull
      simp [hfull, Nat.not_lt.mpr hle]
    · have hlt : t.size < t.config.capacity := by simpa [isFull] using hfull
      have hdeclare : t.declare name 0 = .ok (t.size, t.extend name 0) :=
        declare_eq_ok.mpr ⟨hlt, rfl, rfl⟩
      by_cases hread : t.config.declareOnRead
      · simp [hfull, hread, hdeclare, hlt, Except.map, eq_comm, and_assoc]
      · simp [hfull, hread]

theorem read_eq_error {fault : Fault} :
    t.read name = .error fault ↔
      t.slot? name = none ∧
      ((t.config.capacity ≤ t.size ∧ fault = .tableFull t.config.capacity) ∨
        (t.size < t.config.capacity ∧ t.config.declareOnRead = false ∧
          fault = .undefined name)) := by
  unfold read
  split
  · rename_i place hfind
    simp [slot?_of_find? hfind]
  · rename_i hfind
    rw [slot?_of_find?_none hfind]
    by_cases hfull : t.isFull
    · have hle : t.config.capacity ≤ t.size := by simpa [isFull] using hfull
      simp [hfull, hle, Nat.not_lt.mpr hle, eq_comm (a := fault)]
    · have hlt : t.size < t.config.capacity := by simpa [isFull] using hfull
      have hdeclare : t.declare name 0 = .ok (t.size, t.extend name 0) :=
        declare_eq_ok.mpr ⟨hlt, rfl, rfl⟩
      by_cases hread : t.config.declareOnRead
      · simp [hfull, hread, hdeclare, Nat.not_le.mpr hlt, Except.map]
      · simp [hfull, hread, hlt, Nat.not_le.mpr hlt, eq_comm (a := fault)]

theorem write_eq_ok :
    t.write name value = .ok (slot, t') ↔
      (t.slot? name = some slot ∧ t' = t.assign slot value) ∨
      (t.slot? name = none ∧ t.size < t.config.capacity ∧ slot = t.size ∧
        t' = t.extend name value) := by
  unfold write
  split
  · rename_i place hfind
    rw [slot?_of_find? hfind]
    have hset : t.vars.set place { t.vars[place] with value } =
        t.vars.modify place fun var => { var with value } := by
      refine List.ext_getElem? fun i => ?_
      rw [List.getElem?_set, List.getElem?_modify]
      split
      · rename_i hi
        subst hi
        simp
      · simp
    rw [hset]
    constructor
    · intro h
      cases h
      exact .inl ⟨rfl, rfl⟩
    · rintro (⟨hslot, rfl⟩ | ⟨hslot, -⟩)
      · cases hslot
        rfl
      · cases hslot
  · rename_i hfind
    rw [slot?_of_find?_none hfind, declare_eq_ok]
    simp

theorem write_eq_error {fault : Fault} :
    t.write name value = .error fault ↔
      t.slot? name = none ∧ t.config.capacity ≤ t.size ∧ fault = .tableFull t.config.capacity := by
  unfold write
  split
  · rename_i place hfind
    simp [slot?_of_find? hfind]
  · rename_i hfind
    simp [slot?_of_find?_none hfind, declare_eq_error]

end LineCompiler.Table
