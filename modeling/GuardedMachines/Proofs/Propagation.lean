import GuardedMachines.Proofs.Guard
import GuardedMachines.Verification.CoherentWriting

/-!
What a guard says one step later. The writes of a transition override a
valuation, in the order of its actions. Assigning the written values to a guard
leaves a residual, and the residual says about the values before the step what
the guard says about the values after it.
-/

namespace GuardedMachines

namespace Residual

def holds (a : VarId → Bool) : Residual → Bool
  | constant b => b
  | formula f => f.holds a

theorem holds_neg (a : VarId → Bool) (r : Residual) : r.neg.holds a = !r.holds a := by
  cases r <;> rfl

theorem holds_conj (a : VarId → Bool) (r s : Residual) :
    (r.conj s).holds a = (r.holds a && s.holds a) := by
  rcases r with (_ | _) | p <;> rcases s with (_ | _) | q <;> simp [conj, holds, Formula.holds]

theorem holds_disj (a : VarId → Bool) (r s : Residual) :
    (r.disj s).holds a = (r.holds a || s.holds a) := by
  rcases r with (_ | _) | p <;> rcases s with (_ | _) | q <;> simp [disj, holds, Formula.holds]

end Residual

/-- The residual has the value that the formula has once the entries of the valuation
are put over the assignment. -/
theorem Formula.holds_assign (valuation : Valuation) (a : VarId → Bool) (f : Formula) :
    (f.assign valuation).holds a = f.holds fun id => (valuation.lookupId id).getD (a id) := by
  induction f with
  | atom v =>
    rw [assign, Valuation.lookup, holds]
    cases valuation.lookupId v.id <;> rfl
  | neg f ih => rw [assign, Residual.holds_neg, ih, holds]
  | conj p q ihp ihq => rw [assign, Residual.holds_conj, ihp, ihq, holds]
  | disj p q ihp ihq => rw [assign, Residual.holds_disj, ihp, ihq, holds]

namespace ActionSet

def override (actions : ActionSet) (valuation : Valuation) : Valuation :=
  actions.writes.foldl
    (fun valuation (v, x) => if v.isBoolean then valuation.set v (x == .ofBool true) else valuation)
    valuation

/-- What the writes do not set keeps its value. -/
theorem lookupId_override (actions : ActionSet) (valuation : Valuation) (id : VarId) :
    (actions.override valuation).lookupId id =
      ((actions.override .empty).lookupId id).or (valuation.lookupId id) := by
  unfold override
  induction actions.writes using List.reverseRecOn with
  | nil => rfl
  | append_singleton writes write ih =>
    obtain ⟨v, x⟩ := write
    simp only [List.foldl_append, List.foldl_cons, List.foldl_nil]
    cases v.isBoolean with
    | false => exact ih
    | true =>
      simp only [if_true, Valuation.lookupId_set]
      by_cases hid : v.id = id
      · simp [hid]
      · simp only [hid, if_false]
        exact ih

theorem assignment_override (actions : ActionSet) (valuation : Valuation) (id : VarId) :
    (actions.override valuation).assignment id =
      ((actions.override .empty).lookupId id).getD (valuation.assignment id) := by
  unfold Valuation.assignment
  rw [lookupId_override]
  cases (actions.override .empty).lookupId id <;> rfl

end ActionSet

namespace Verification.CoherentWriting

theorem eval_override (t u : Transition) (valuation : Valuation) :
    Guard.eval u.guard (t.actions.override valuation) =
      (guardAfter t u).elim false fun guard => Guard.eval guard valuation := by
  unfold guardAfter
  cases u.guard with
  | none => rfl
  | some f =>
    have hassign := f.holds_assign (t.actions.override .empty) valuation.assignment
    have hafter : Guard.eval (some f) (t.actions.override valuation) =
        (f.assign (t.actions.override .empty)).holds valuation.assignment := by
      rw [hassign, Guard.eval, Formula.eval]
      congr 1
      funext id
      exact t.actions.assignment_override valuation id
    have hwritten : writtenValuation t.actions = t.actions.override .empty := rfl
    dsimp only
    rw [hafter, hwritten]
    cases f.assign (t.actions.override .empty) with
    | constant b => cases b <;> rfl
    | formula g => rfl

end Verification.CoherentWriting

end GuardedMachines
