/-!
A chain of operands of one connective becomes a balanced tree. Neighbours are
joined pairwise, level by level; the order of the operands is kept.
-/

namespace GuardedMachines.Condition

variable {α : Type}

/-- One level: an operand without a neighbour is carried over. -/
def joinPairs (join : α → α → α) : List α → List α
  | p :: q :: rest => join p q :: joinPairs join rest
  | operands => operands

/-- The tree over the operands before the last one and the last one. As many
levels as there are operands always leave a single tree. -/
def balanced (join : α → α → α) (before : List α) (last : α) : α :=
  let operands := before ++ [last]
  (Nat.repeat (joinPairs join) operands.length operands).headD last

end GuardedMachines.Condition
