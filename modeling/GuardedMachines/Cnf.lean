import GuardedMachines.Formula.Text
import GuardedMachines.Trace

/-!
Conjunctive normal form. Negations are pushed to the atoms and disjunction is
distributed over conjunction; no variable is added. A conjunction gives the
clauses of its left operand followed by those of the right one, a disjunction
joins every clause on the left with every clause on the right, row by row.
Literals are neither reordered nor merged, and a clause that repeats an earlier
one is dropped.
-/

namespace GuardedMachines

structure Clause where
  literals : List Literal
deriving BEq

namespace Clause

def size (c : Clause) : Nat := c.literals.length

def isEmpty (c : Clause) : Bool := c.literals.isEmpty

def holds (assignment : VarId → Bool) (c : Clause) : Bool :=
  c.literals.any (Literal.holds assignment)

def eval (c : Clause) (valuation : Valuation) : Bool := c.holds valuation.assignment

def render (c : Clause) : List Char :=
  Spelling.parenthesized
    ((Spelling.spaced Spelling.disj).intercalate (c.literals.map Literal.render))

def text (c : Clause) : String := String.ofList c.render

end Clause

structure Cnf where
  clauses : List Clause
deriving BEq

namespace Cnf

/-- The clauses of a formula, or of its negation, before repetitions are dropped. -/
def distribute : Formula → Bool → List (List Literal)
  | .atom v, positive => [[⟨v, positive⟩]]
  | .neg f, positive => distribute f (!positive)
  | .conj p q, true => distribute p true ++ distribute q true
  | .disj p q, false => distribute p false ++ distribute q false
  | .disj p q, true =>
    (distribute p true).flatMap fun a => (distribute q true).map fun b => a ++ b
  | .conj p q, false =>
    (distribute p false).flatMap fun a => (distribute q false).map fun b => a ++ b

def ofFormula (f : Formula) : Cnf := ⟨((distribute f true).map Clause.mk).eraseDups⟩

def ofGuard : Option Formula → Cnf
  | some f => ofFormula f
  | none => ⟨[]⟩

def size (cnf : Cnf) : Nat := cnf.clauses.length

def isEmpty (cnf : Cnf) : Bool := cnf.clauses.isEmpty

/-- The variables of all literals by identifier, each once. -/
def vars (cnf : Cnf) : List Variable :=
  Ascending.ofList (cnf.clauses.flatMap fun c => c.literals.map Literal.var)

def holds (assignment : VarId → Bool) (cnf : Cnf) : Bool :=
  cnf.clauses.all (Clause.holds assignment)

def eval (cnf : Cnf) (valuation : Valuation) : Bool := cnf.holds valuation.assignment

def render (cnf : Cnf) : List Char :=
  (Spelling.spaced Spelling.conj).intercalate (cnf.clauses.map Clause.render)

def text (cnf : Cnf) : String := String.ofList cnf.render

/-- Converting a formula leaves one record. -/
def ofFormulaTraced (f : Formula) : Traced Cnf :=
  let cnf := ofFormula f
  ⟨cnf, [.debug fun _ =>
    "cnf: " ++ toString cnf.size ++ " clauses (" ++
      toString ((distribute f true).length - cnf.size) ++ " duplicates dropped) for '" ++
      f.text ++ "'"]⟩

def ofGuardTraced : Option Formula → Traced Cnf
  | some f => ofFormulaTraced f
  | none => pure ⟨[]⟩

@[simp] theorem value_ofFormulaTraced (f : Formula) :
    (ofFormulaTraced f).value = ofFormula f := rfl

@[simp] theorem value_ofGuardTraced (guard : Option Formula) :
    (ofGuardTraced guard).value = ofGuard guard := by
  cases guard <;> rfl

end Cnf

end GuardedMachines
