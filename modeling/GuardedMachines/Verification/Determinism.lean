import GuardedMachines.Verification.Check

/-!
Two transitions that leave one state and share an event are exclusive: no
valuation satisfies both guards, unless they have the same effect.
-/

namespace GuardedMachines.Verification.Determinism

def probe (machine state : String) (t u : Transition) : Probe := fun oracle => do
  Traced.note (.debug fun _ => machine ++ ": " ++ t.text ++ " against " ++ u.text)
  let cnf ← Cnf.ofGuardTraced (Formula.conjunction t.guard u.guard)
  match ← oracle.solve cnf with
  | .unsatisfiable => return []
  | .satisfiable witness =>
    if t.sameEffect u then
      Traced.note (.debug fun _ => "identical effects, not an error")
      return []
    let models ← oracle.countModels cnf
    return [.nonDeterminism machine state t u witness models witness.literals.length]

def check (push : Violation → Check) (oracle : Oracle) (model : Model) : Check :=
  .forEach model.machines fun m =>
    .forEach m.states fun s =>
      .forEach (withRest s.transitions) fun (t, later) =>
        .forEach later fun u =>
          if t.events.intersects u.events then (probe m.name s.name t u).check push oracle
          else .pass

end GuardedMachines.Verification.Determinism
