import GuardedMachines.Formula.Basic
import GuardedMachines.Spelling

/-!
The canonical text of a formula. A negation stands in parentheses, and so does
its operand unless that is an atom; a disjunction below a conjunction stands in
parentheses; nothing else does, so chains of one connective lose their grouping.
-/

namespace GuardedMachines.Formula

/-- The written operand of a negation. -/
def belowNeg (f : Formula) (written : List Char) : List Char :=
  match f with
  | atom _ => written
  | _ => Spelling.parenthesized written

/-- The written operand of a conjunction. -/
def belowConj (f : Formula) (written : List Char) : List Char :=
  match f with
  | disj _ _ => Spelling.parenthesized written
  | _ => written

def render : Formula → List Char
  | atom v => v.name.toList
  | neg f => Spelling.parenthesized (Spelling.neg ++ ' ' :: f.belowNeg f.render)
  | conj p q => p.belowConj p.render ++ Spelling.spaced Spelling.conj ++ q.belowConj q.render
  | disj p q => p.render ++ Spelling.spaced Spelling.disj ++ q.render

def text (f : Formula) : String := String.ofList f.render

end GuardedMachines.Formula
