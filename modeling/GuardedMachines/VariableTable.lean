import GuardedMachines.Variable

/-!
A table gives every name one variable. Names are interned on first use and
numbered from one in that order; a later request for a known name returns the
variable already made, or fails if it asks for another domain.
-/

namespace GuardedMachines

structure VariableTable where
  vars : List Variable

namespace VariableTable

def empty : VariableTable := ⟨[]⟩

def size (table : VariableTable) : Nat := table.vars.length

def isEmpty (table : VariableTable) : Bool := table.size == 0

def get? (table : VariableTable) (name : String) : Option Variable :=
  table.vars.find? fun v => v.name == name

def nextId (table : VariableTable) : VarId := ⟨table.size + 1, Nat.succ_pos _⟩

def intern (table : VariableTable) (name : String) (domain : Domain) :
    Except VariableError (Variable × VariableTable) :=
  match table.get? name with
  | some v => if v.domain = domain then .ok (v, table) else .error (.domainMismatch name v.domain)
  | none =>
    let v : Variable := ⟨table.nextId, name, domain⟩
    .ok (v, ⟨table.vars ++ [v]⟩)

def boolean (table : VariableTable) (name : String) :
    Except VariableError (Variable × VariableTable) :=
  table.intern name .boolean

def enumerated (table : VariableTable) (name : String) (names : List String) :
    Except VariableError (Variable × VariableTable) :=
  table.intern name (.enumerated names)

/-- The variable of a name, interned as a Boolean if the name is new. -/
def getOrBoolean (table : VariableTable) (name : String) : Variable × VariableTable :=
  match table.get? name with
  | some v => (v, table)
  | none =>
    let v : Variable := ⟨table.nextId, name, .boolean⟩
    (v, ⟨table.vars ++ [v]⟩)

def labels (table : VariableTable) : List String := table.vars.map Variable.label

def text (table : VariableTable) : String :=
  "[" ++ ", ".intercalate table.labels ++ "]"

end VariableTable

end GuardedMachines
