import GuardedMachines.Model
import GuardedMachines.Trace

/-!
Which machines read and write which variables. Variables and machines are
listed in the order in which a walk over the model meets them first.
-/

namespace GuardedMachines

/-- Keys with the machines registered under them, both in order of first entry. -/
abbrev Register (κ : Type) := List (κ × List String)

namespace Register

variable {κ : Type} [BEq κ]

def add (key : κ) (machine : String) : Register κ → Register κ
  | [] => [(key, [machine])]
  | (k, machines) :: rest =>
    if k == key then
      (k, if machines.contains machine then machines else machines ++ [machine]) :: rest
    else (k, machines) :: add key machine rest

def ofList (entries : List (κ × String)) : Register κ :=
  entries.foldl (fun register (key, machine) => register.add key machine) []

def machines? (register : Register κ) (key : κ) : Option (List String) :=
  (register.find? fun entry => entry.1 == key).map Prod.snd

end Register

/-- What the transitions of the machines give, each item with the name of its machine. -/
def Model.collect {α : Type} (model : Model) (items : Transition → List α) : List (α × String) :=
  model.machines.flatMap fun m => m.transitions.flatMap fun t => (items t).map fun a => (a, m.name)

structure Usage where
  readers : Register Variable
  writers : Register Variable

namespace Usage

def ofModel (model : Model) : Usage :=
  ⟨.ofList (model.collect Transition.reads),
    .ofList (model.collect fun t => t.writes.map Prod.fst)⟩

def isRead (usage : Usage) (v : Variable) : Bool := (usage.readers.machines? v).isSome

def isWritten (usage : Usage) (v : Variable) : Bool := (usage.writers.machines? v).isSome

/-- Collecting the usage leaves one record. -/
def record (usage : Usage) (model : Model) : Record :=
  .debug fun _ => model.name ++ ": " ++ toString usage.readers.length ++ " variables read, " ++
    toString usage.writers.length ++ " written"

end Usage

end GuardedMachines
