import GuardedMachines.Formula.Basic

/-!
Partial assignment of a formula. Variables with an explicit entry in the
valuation are replaced by their values and the connectives above them are
simplified; what is left is a constant or a formula over the other variables.
-/

namespace GuardedMachines

inductive Residual where
  | constant (b : Bool)
  | formula (f : Formula)

namespace Residual

def neg : Residual → Residual
  | constant b => constant (!b)
  | formula f => formula f.neg

def conj : Residual → Residual → Residual
  | constant false, _ => constant false
  | _, constant false => constant false
  | constant true, r => r
  | r, constant true => r
  | formula p, formula q => formula (p.conj q)

def disj : Residual → Residual → Residual
  | constant true, _ => constant true
  | _, constant true => constant true
  | constant false, r => r
  | r, constant false => r
  | formula p, formula q => formula (p.disj q)

end Residual

def Formula.assign (valuation : Valuation) : Formula → Residual
  | atom v =>
    match valuation.lookup v with
    | some b => .constant b
    | none => .formula (atom v)
  | neg f => (f.assign valuation).neg
  | conj p q => (p.assign valuation).conj (q.assign valuation)
  | disj p q => (p.assign valuation).disj (q.assign valuation)

end GuardedMachines
