import GuardedMachines.Verification.Check

/-!
No guard on the way from the initial state is always true: such a condition
could be left out. States are explored breadth first along the transitions,
whatever their guards and events.
-/

namespace GuardedMachines.Verification.Tautology

def leaving (m : Machine) (state : String) : List Transition :=
  ((m.state? state).map State.transitions).getD []

def probe (machine : String) (t : Transition) (guard : Formula) : Probe := fun oracle => do
  let cnf ← Cnf.ofFormulaTraced guard.neg
  if ← oracle.isSatisfiable cnf then return []
  Traced.note (.debug fun _ => "tautology: " ++ guard.text)
  return [.tautologicalGuard ⟨machine, t⟩]

def checkGuard (push : Violation → Check) (oracle : Oracle) (machine : String) (t : Transition) :
    Check :=
  match t.guard with
  | none => .pass
  | some guard => (probe machine t guard).check push oracle

/-- The transitions that leave a state, whose destinations are put into the queue when they are
seen for the first time; `next` goes on from there. -/
def visit (push : Violation → Check) (oracle : Oracle) (machine : String)
    (next : List String → List String → Check) :
    List Transition → List String → List String → Check
  | [], seen, queue => next seen queue
  | t :: rest, seen, queue =>
    let found := if seen.contains t.destination then [] else [t.destination]
    (checkGuard push oracle machine t).andThen
      (visit push oracle machine next rest (seen ++ found) (queue ++ found))

/-- Takes states from the queue until it is empty, at most as many as the fuel. -/
def explore (push : Violation → Check) (oracle : Oracle) (m : Machine) :
    Nat → List String → List String → Check
  | fuel + 1, seen, state :: queue =>
    visit push oracle m.name (explore push oracle m fuel) (leaving m state) seen queue
  | _, _, _ => .pass

def start (m : Machine) : List String :=
  if (m.state? initialState).isSome then [initialState] else []

/-- Each state that is seen but the initial one is the destination of a transition, which bounds
their number. -/
def checkMachine (push : Violation → Check) (oracle : Oracle) (m : Machine) : Check :=
  explore push oracle m (m.transitions.length + 1) (start m) (start m)

def check (push : Violation → Check) (oracle : Oracle) (model : Model) : Check :=
  .forEach model.machines (checkMachine push oracle)

end GuardedMachines.Verification.Tautology
