import GuardedMachines.Activation
import GuardedMachines.Formula.Residual
import GuardedMachines.Verification.Check

/-!
No variable gets two values at once. A transition does not write two values to
one variable, two transitions of different machines that fire in the same step
do not write different values, and neither does a transition that fires because
of what the one before it did.
-/

namespace GuardedMachines.Verification.CoherentWriting

/-- The variables to which two sets of actions write different values. -/
def conflicts (a b : ActionSet) : List Variable :=
  Ascending.ofList
    ((a.writes.filter fun (v, x) => b.writes.any fun (w, y) => v == w && x != y).map Prod.fst)

/-- The Boolean variables written, with their new values. -/
def writtenValuation (actions : ActionSet) : Valuation :=
  actions.writes.foldl
    (fun valuation (v, x) =>
      if v.isBoolean then valuation.set v (x == .ofBool true) else valuation)
    .empty

/-- Whether two guards hold together, with what is reported if they do. -/
def jointProbe (record : Record) (g h : Option Formula) (report : Witness → List Violation) :
    Probe := fun oracle => do
  Traced.note record
  let cnf ← Cnf.ofGuardTraced (Formula.conjunction g h)
  match ← oracle.solve cnf with
  | .unsatisfiable => return []
  | .satisfiable witness => return report witness

def sameStep (first second : Site) : Probe :=
  let (t, u) := (first.transition, second.transition)
  jointProbe (.debug fun _ => "same step: " ++ t.text ++ " against " ++ u.text) t.guard u.guard
    fun witness =>
      (conflicts t.actions u.actions).map fun v => .simultaneousWrites v first second witness

/-- The second guard in terms of the values before the first transition fires;
nothing if it cannot hold. -/
def guardAfter (t u : Transition) : Option (Option Formula) :=
  match u.guard with
  | none => some none
  | some guard =>
    match guard.assign (writtenValuation t.actions) with
    | .constant true => some none
    | .constant false => none
    | .formula f => some (some f)

def propagation (first second : Site) (guard : Option Formula) : Probe :=
  let (t, u) := (first.transition, second.transition)
  jointProbe (.debug fun _ => "propagation: " ++ t.text ++ " then " ++ u.text) t.guard guard
    fun witness =>
      (conflicts t.actions u.actions).map fun v => .propagatedWrites v first second witness

def sites (m : Machine) : List Site := m.transitions.map fun t => ⟨m.name, t⟩

/-- The transitions that may fire one step after one of the machine: those that
leave its destination and those of the machines that it can make react. -/
def followers (reacting : List Machine) (m : Machine) (t : Transition) : List Site :=
  let own := ((m.state? t.destination).map State.transitions).getD []
  own.map (fun u => ⟨m.name, u⟩) ++ reacting.flatMap sites

/-- The machines other than `m` that it can make react, in model order. -/
def reacting (model : Model) (activation : Activation) (m : Machine) : List Machine :=
  ((activation.successors m.name).filter fun name => name != m.name).filterMap model.machine?

section

variable (push : Violation → Check) (oracle : Oracle)

def checkWithin (site : Site) : Check :=
  .forEach (conflicts site.transition.actions site.transition.actions) fun v =>
    push (.conflictingWrites v site)

def checkSameStep (first : Site) (later : List Machine) : Check :=
  .forEach later fun n =>
    .forEach n.transitions fun u =>
      if !first.transition.events.intersects u.events then .pass
      else if (conflicts first.transition.actions u.actions).isEmpty then .pass
      else (sameStep first ⟨n.name, u⟩).check push oracle

def checkPropagation (first : Site) (followers : List Site) : Check :=
  .forEach followers fun second =>
    let (t, u) := (first.transition, second.transition)
    if !u.events.intersects t.actions.produced then .pass
    else if (conflicts t.actions u.actions).isEmpty then .pass
    else
      match guardAfter t u with
      | none => .pass
      | some guard => (propagation first second guard).check push oracle

def checkTransition (reacting later : List Machine) (m : Machine) (t : Transition) : Check :=
  let site : Site := ⟨m.name, t⟩
  (checkWithin push site).andThen <| (checkSameStep push oracle site later).andThen <|
    if t.actions.produced.isEmpty then .pass
    else checkPropagation push oracle site (followers reacting m t)

/-- The check, given for each machine the machines that may react to it. -/
def checkWith (reacting : Machine → List Machine) (model : Model) : Check :=
  .forEach (withRest model.machines) fun (m, later) =>
    .forEach m.transitions (checkTransition push oracle (reacting m) later m)

def check (model : Model) : Check :=
  let activation := Activation.ofModel model
  checkWith push oracle (reacting model activation) model

end

end GuardedMachines.Verification.CoherentWriting
