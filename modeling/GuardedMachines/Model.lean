import GuardedMachines.Machine.Basic

/-!
A model is a list of machines with different names. Two models whose machine
names are disjoint compose to a model with the machines of both.
-/

namespace GuardedMachines

structure Model where
  name : String
  machines : List Machine
deriving DecidableEq

namespace Model

def new (name : String) : Model := ⟨name, []⟩

def machine? (model : Model) (name : String) : Option Machine :=
  model.machines.find? fun m => m.name == name

def addMachine (model : Model) (name : String) : Except ModelError Model :=
  if (model.machine? name).isSome then .error (.duplicateMachine name)
  else .ok { model with machines := model.machines ++ [.new name] }

/-- Puts a machine in the place of the one with its name. -/
def setMachine (model : Model) (machine : Machine) : Model :=
  { model with
    machines := model.machines.map fun m => if m.name == machine.name then machine else m }

def machineNames (model : Model) : List String := model.machines.map Machine.name

/-- Fails at the first machine of the second model whose name the first one has. -/
def compose (primary proof : Model) : Except ModelError Model :=
  match proof.machines.find? fun m => (primary.machine? m.name).isSome with
  | some m => .error (.duplicateMachine m.name)
  | none => .ok ⟨primary.name ++ "+" ++ proof.name, primary.machines ++ proof.machines⟩

end Model

end GuardedMachines
