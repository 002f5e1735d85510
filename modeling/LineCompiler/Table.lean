import LineCompiler.Config
import LineCompiler.Fault

/-!
# The table of variables

Variables stand in the order of their declaration. The place of a variable is its slot; a slot is
never given up, and a name stands for the first variable that bears it. The table holds at most
`capacity` variables, and an operation that fails gives no table back, so the one at hand stays
as it is. The memory for all of them is set aside in the beginning.
-/

namespace LineCompiler

structure Var where
  name : String
  value : Int32
  deriving DecidableEq, Repr

structure Table where
  config : Config := {}
  vars : List Var := []
  deriving DecidableEq, Repr

namespace Table

/-- The number of bytes that a variable takes up in a table. -/
def varBytes : Nat := 32

/-- An empty table, if the memory that it may need can be asked for: less than half of all that can
be addressed. -/
def new? (config : Config) : Option Table :=
  if config.capacity * varBytes < UInt64.size / 2 then some { config } else none

def size (t : Table) : Nat := t.vars.length

def isEmpty (t : Table) : Bool := t.vars.isEmpty

def isFull (t : Table) : Bool := t.config.capacity ≤ t.size

/-- The place of the first variable called `name`. -/
def find? (t : Table) (name : String) : Option (Fin t.vars.length) :=
  t.vars.findFinIdx? (·.name == name)

def slot? (t : Table) (name : String) : Option Nat := (t.find? name).map Fin.val

def value? (t : Table) (slot : Nat) : Option Int32 := t.vars[slot]?.map Var.value

/-- Where the variable of a slot lives in memory. An address has 64 bits, and the product loses the
bits above them. -/
def address (t : Table) (slot : Nat) : Nat := slot * t.config.wordSize % UInt64.size

/-- Adds a variable, even if its name is taken, and gives its slot. -/
def declare (t : Table) (name : String) (value : Int32) : Except Fault (Nat × Table) :=
  if t.isFull then
    .error (.tableFull t.config.capacity)
  else
    .ok (t.size, { t with vars := t.vars ++ [⟨name, value⟩] })

/-- The slot and value of a name. An unknown name is declared where the configuration says so; a
full table is the fault of a failed read even where it does not. -/
def read (t : Table) (name : String) : Except Fault ((Nat × Int32) × Table) :=
  match t.find? name with
  | some slot => .ok ((slot, t.vars[slot].value), t)
  | none =>
    if t.isFull then
      .error (.tableFull t.config.capacity)
    else if t.config.declareOnRead then
      (t.declare name 0).map fun (slot, t) => ((slot, 0), t)
    else
      .error (.undefined name)

/-- Sets the value of a name and gives its slot. An unknown name is declared. -/
def write (t : Table) (name : String) (value : Int32) : Except Fault (Nat × Table) :=
  match t.find? name with
  | some slot => .ok (slot, { t with vars := t.vars.set slot { t.vars[slot] with value } })
  | none => t.declare name value

end Table

end LineCompiler
