import GuardedMachines.Misuse

/-!
Variables range over a finite domain of named values. A variable is identified
by its number alone: two variables with one identifier count as the same
variable, whatever their names, and variables are ordered by identifier.
-/

namespace GuardedMachines

structure VarId where
  number : Nat
  positive : 0 < number
deriving DecidableEq

namespace VarId

def ofNat (number : Nat) : Except Misuse VarId :=
  if positive : 0 < number then .ok ⟨number, positive⟩ else .error .zeroIdentifier

def text (id : VarId) : String := "v" ++ toString id.number

end VarId

inductive Domain where
  | boolean
  | enumerated (names : List String)
deriving DecidableEq

/-- The position of a value in its domain; it may lie outside of it. -/
structure Value where
  index : Nat
deriving DecidableEq

namespace Value

def ofBool (b : Bool) : Value := ⟨b.toNat⟩

instance : Ord Value := ⟨fun x y => compare x.index y.index⟩

end Value

namespace Domain

def names : Domain → List String
  | boolean => ["false", "true"]
  | enumerated names => names

def isBoolean : Domain → Bool
  | boolean => true
  | enumerated _ => false

def size (domain : Domain) : Nat := domain.names.length

def isEmpty (domain : Domain) : Bool := domain.size == 0

def value? (domain : Domain) (name : String) : Option Value :=
  (domain.names.idxOf? name).map Value.mk

def valueName? (domain : Domain) (value : Value) : Option String :=
  domain.names[value.index]?

def text (domain : Domain) : String :=
  "\x7b" ++ ", ".intercalate domain.names ++ "\x7d"

end Domain

inductive VariableError where
  | domainMismatch (name : String) (existing : Domain)
  | unknownValue (variableName valueName : String)
deriving DecidableEq

def VariableError.message : VariableError → String
  | domainMismatch name existing =>
    "variable '" ++ name ++ "' is already declared with domain " ++ existing.text
  | unknownValue variableName valueName =>
    "value '" ++ valueName ++ "' is not in the domain of variable '" ++ variableName ++ "'"

structure Variable where
  id : VarId
  name : String
  domain : Domain
deriving DecidableEq

namespace Variable

instance : BEq Variable := ⟨fun v w => v.id == w.id⟩

instance : Ord Variable := ⟨fun v w => compare v.id.number w.id.number⟩

def isBoolean (v : Variable) : Bool := v.domain.isBoolean

def value (v : Variable) (name : String) : Except VariableError Value :=
  match v.domain.value? name with
  | some value => .ok value
  | none => .error (.unknownValue v.name name)

def valueName (v : Variable) (value : Value) : String :=
  (v.domain.valueName? value).getD "?"

/-- The name together with the identifier. -/
def label (v : Variable) : String := v.name ++ "#" ++ toString v.id.number

end Variable

end GuardedMachines
