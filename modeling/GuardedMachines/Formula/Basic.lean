import GuardedMachines.Ascending
import GuardedMachines.Valuation

/-!
Guard conditions are formulas over Boolean variables. A guard may be absent,
which means that it always holds. A formula has one meaning, its value under an
assignment of all identifiers; evaluation under a valuation is that value.
-/

namespace GuardedMachines

inductive Formula where
  | atom (v : Variable)
  | neg (f : Formula)
  | conj (p q : Formula)
  | disj (p q : Formula)
deriving BEq, DecidableEq

namespace Formula

def ofVariable (v : Variable) : Except Misuse Formula :=
  if v.isBoolean then .ok (atom v) else .error (.notBoolean v.name)

def holds (assignment : VarId → Bool) : Formula → Bool
  | atom v => assignment v.id
  | neg f => !f.holds assignment
  | conj p q => p.holds assignment && q.holds assignment
  | disj p q => p.holds assignment || q.holds assignment

def eval (f : Formula) (valuation : Valuation) : Bool := f.holds valuation.assignment

def addVars : Formula → List Variable → List Variable
  | atom v, acc => Ascending.insert v acc
  | neg f, acc => f.addVars acc
  | conj p q, acc => q.addVars (p.addVars acc)
  | disj p q, acc => q.addVars (p.addVars acc)

/-- The variables of a formula by identifier, each once. -/
def vars (f : Formula) : List Variable := f.addVars []

/-- Both guards together. -/
def conjunction : Option Formula → Option Formula → Option Formula
  | some p, some q => some (conj p q)
  | some p, none => some p
  | none, q => q

end Formula

end GuardedMachines
