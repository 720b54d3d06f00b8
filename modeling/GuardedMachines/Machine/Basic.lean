import GuardedMachines.Formula.Text
import GuardedMachines.Machine.Event

/-!
A machine is a list of named states, each with the transitions that leave it.
States and transitions keep the order in which they were added, and a transition
brings the states it names into being, the destination first.
-/

namespace GuardedMachines

structure Transition where
  source : String
  destination : String
  events : EventSet
  guard : Option Formula
  actions : ActionSet
deriving DecidableEq

namespace Transition

/-- Same destination and same actions. -/
def sameEffect (t u : Transition) : Bool :=
  t.destination == u.destination && t.actions == u.actions

/-- The variables of the guard, then those whose changes trigger the transition. -/
def reads (t : Transition) : List Variable :=
  (t.guard.map Formula.vars).getD [] ++ t.events.members.filterMap Event.changed?

def writes (t : Transition) : List (Variable × Value) := t.actions.writes

def listens (t : Transition) : List String := t.events.members.filterMap Event.synchronized?

def emits (t : Transition) : List String := t.actions.members.filterMap Action.emitted?

def text (t : Transition) : String :=
  let guardText :=
    match t.guard with
    | some guard => " if " ++ guard.text
    | none => ""
  let actionText := if t.actions.isEmpty then "" else " do " ++ t.actions.text
  t.source ++ " -> " ++ t.destination ++ " on " ++ t.events.text ++ guardText ++ actionText

end Transition

structure State where
  name : String
  transitions : List Transition
deriving DecidableEq

inductive ModelError where
  | duplicateMachine (machine : String)
  | duplicateState (machine state : String)
deriving DecidableEq

def ModelError.message : ModelError → String
  | duplicateMachine machine => "state machine '" ++ machine ++ "' already exists"
  | duplicateState machine state =>
    "state '" ++ state ++ "' already exists in state machine '" ++ machine ++ "'"

structure Machine where
  name : String
  states : List State
deriving DecidableEq

namespace Machine

def new (name : String) : Machine := ⟨name, []⟩

def state? (m : Machine) (name : String) : Option State :=
  m.states.find? fun s => s.name == name

def transitions (m : Machine) : List Transition := m.states.flatMap State.transitions

def ensureState (m : Machine) (name : String) : Machine :=
  if (m.state? name).isSome then m else { m with states := m.states ++ [⟨name, []⟩] }

def addState (m : Machine) (name : String) : Except ModelError Machine :=
  if (m.state? name).isSome then .error (.duplicateState m.name name) else .ok (m.ensureState name)

def addTransition (m : Machine) (t : Transition) : Machine :=
  let m := (m.ensureState t.destination).ensureState t.source
  { m with
    states := m.states.map fun s =>
      if s.name == t.source then { s with transitions := s.transitions ++ [t] } else s }

end Machine

end GuardedMachines
