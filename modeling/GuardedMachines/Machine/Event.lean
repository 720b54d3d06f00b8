import GuardedMachines.Ascending
import GuardedMachines.Variable

/-!
What triggers a transition and what it does when it fires. An event comes from
outside, from another machine by synchronization, or from the change of a
variable to a value. An action assigns a value to a variable or emits a
synchronization. Sets of either are kept in order: external events first, then
synchronizations, then changes; assignments before emissions; then by name, or
by variable and value.
-/

namespace GuardedMachines

inductive Event where
  | external (name : String)
  | synchronization (name : String)
  | change (v : Variable) (value : Value)
deriving BEq, DecidableEq

namespace Event

def kind : Event → Nat
  | external _ => 0
  | synchronization _ => 1
  | change _ _ => 2

def name : Event → String
  | external name => name
  | synchronization name => name
  | change _ _ => ""

/-- The variable and the value of a change, as numbers. -/
def subject : Event → Nat × Nat
  | change v value => (v.id.number, value.index)
  | _ => (0, 0)

instance : Ord Event :=
  ⟨compareLex (compareOn kind) (compareLex (compareOn name)
    (compareLex (compareOn fun e => e.subject.1) (compareOn fun e => e.subject.2)))⟩

def changed? : Event → Option Variable
  | change v _ => some v
  | _ => none

def synchronized? : Event → Option String
  | synchronization name => some name
  | _ => none

def text : Event → String
  | external name => name
  | synchronization name => "syn:" ++ name
  | change v value => v.name ++ " = " ++ v.valueName value

end Event

inductive Action where
  | assign (v : Variable) (value : Value)
  | emit (name : String)
deriving BEq, DecidableEq

namespace Action

def kind : Action → Nat
  | assign _ _ => 0
  | emit _ => 1

def name : Action → String
  | assign _ _ => ""
  | emit name => name

/-- The variable and the value of an assignment, as numbers. -/
def subject : Action → Nat × Nat
  | assign v value => (v.id.number, value.index)
  | emit _ => (0, 0)

instance : Ord Action :=
  ⟨compareLex (compareOn kind) (compareLex (compareOn name)
    (compareLex (compareOn fun a => a.subject.1) (compareOn fun a => a.subject.2)))⟩

def written? : Action → Option (Variable × Value)
  | assign v value => some (v, value)
  | emit _ => none

def emitted? : Action → Option String
  | assign _ _ => none
  | emit name => some name

/-- The event that machines see once the action was taken. -/
def produced : Action → Event
  | assign v value => .change v value
  | emit name => .synchronization name

def text : Action → String
  | assign v value => v.name ++ " := " ++ v.valueName value
  | emit name => "emit " ++ name

end Action

def setText (members : List String) : String :=
  "\x7b" ++ ", ".intercalate members ++ "\x7d"

structure EventSet where
  members : List Event
deriving BEq, DecidableEq

namespace EventSet

def empty : EventSet := ⟨[]⟩

def ofList (events : List Event) : EventSet := ⟨Ascending.ofList events⟩

def insert (s : EventSet) (e : Event) : EventSet := ⟨Ascending.insert e s.members⟩

def contains (s : EventSet) (e : Event) : Bool := Ascending.contains s.members e

def intersects (s t : EventSet) : Bool := s.members.any t.contains

def size (s : EventSet) : Nat := s.members.length

def isEmpty (s : EventSet) : Bool := s.members.isEmpty

def text (s : EventSet) : String := setText (s.members.map Event.text)

end EventSet

structure ActionSet where
  members : List Action
deriving BEq, DecidableEq

namespace ActionSet

def empty : ActionSet := ⟨[]⟩

def ofList (actions : List Action) : ActionSet := ⟨Ascending.ofList actions⟩

def insert (s : ActionSet) (a : Action) : ActionSet := ⟨Ascending.insert a s.members⟩

def contains (s : ActionSet) (a : Action) : Bool := Ascending.contains s.members a

def size (s : ActionSet) : Nat := s.members.length

def isEmpty (s : ActionSet) : Bool := s.members.isEmpty

def writes (s : ActionSet) : List (Variable × Value) := s.members.filterMap Action.written?

def produced (s : ActionSet) : EventSet := .ofList (s.members.map Action.produced)

def text (s : ActionSet) : String := setText (s.members.map Action.text)

end ActionSet

end GuardedMachines
