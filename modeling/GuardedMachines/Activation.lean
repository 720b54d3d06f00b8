import GuardedMachines.Usage

/-!
Which machines can make which machines react. A machine is linked to another
one by every variable that it writes and the other reads, and by every
synchronization that it emits and the other listens to.
-/

namespace GuardedMachines

inductive Link where
  | written (v : Variable)
  | synchronization (name : String)
deriving DecidableEq

def Link.text : Link → String
  | written v => v.name
  | synchronization name => "syn:" ++ name

structure Arc where
  source : String
  target : String
  link : Link

structure Activation where
  machines : List String
  arcs : List Arc

namespace Activation

/-- The arcs from the machines under a key to the machines that react to it. -/
def arcsOf {κ : Type} [BEq κ] (sources targets : Register κ) (link : κ → Link) : List Arc :=
  sources.flatMap fun (key, machines) =>
    machines.flatMap fun source =>
      ((targets.machines? key).getD []).map fun target => ⟨source, target, link key⟩

def ofModel (model : Model) : Activation :=
  let usage := Usage.ofModel model
  let emitters := Register.ofList (model.collect Transition.emits)
  let listeners := Register.ofList (model.collect Transition.listens)
  ⟨model.machineNames,
    arcsOf usage.writers usage.readers .written ++
      arcsOf emitters listeners .synchronization⟩

/-- The machines that a machine can make react, in model order. -/
def successors (activation : Activation) (machine : String) : List String :=
  activation.machines.filter fun target =>
    activation.arcs.any fun arc => arc.source == machine && arc.target == target

def links (activation : Activation) (source target : String) : List Link :=
  (activation.arcs.filter fun arc => arc.source == source && arc.target == target).map Arc.link

/-- Building the activation collects the usage first. -/
def records (activation : Activation) (model : Model) : List Record :=
  [(Usage.ofModel model).record model,
    .debug fun _ => "activation graph of " ++ model.name ++ ": " ++
      toString activation.machines.length ++ " machines, " ++
      toString activation.arcs.length ++ " links"]

end Activation

end GuardedMachines
