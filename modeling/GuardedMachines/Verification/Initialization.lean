import GuardedMachines.Verification.Check

/-!
Every machine has an initial state, and the transitions that leave it fire
unconditionally: they have no guard and wait for no event.
-/

namespace GuardedMachines.Verification.Initialization

def checkTransition (push : Violation → Check) (machine : String) (t : Transition) : Check :=
  let site : Site := ⟨machine, t⟩
  Check.andThen
    (if t.guard.isSome then push (.guardedInitialization site) else .pass)
    (if t.events.isEmpty then .pass else push (.triggeredInitialization site))

def check (push : Violation → Check) (model : Model) : Check :=
  .forEach model.machines fun m =>
    match m.state? initialState with
    | none => push (.missingInitialState m.name)
    | some initial => .forEach initial.transitions (checkTransition push m.name)

end GuardedMachines.Verification.Initialization
