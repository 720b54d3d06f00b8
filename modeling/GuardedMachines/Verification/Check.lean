import GuardedMachines.Verification.Violation

/-!
A property is checked in loops over the places of a model. A probe asks the oracle
about one place. What is found there is reported violation by violation, and after
each of them the mode decides whether the loops go on.
-/

namespace GuardedMachines.Verification

inductive Mode where
  | firstViolation
  | allViolations
deriving DecidableEq

namespace Mode

def text : Mode → String
  | firstViolation => "FirstViolation"
  | allViolations => "AllViolations"

/-- Nothing more is looked for once these violations are known. -/
def isDone (mode : Mode) (found : List Violation) : Bool :=
  mode == firstViolation && !found.isEmpty

def next (mode : Mode) (reported : List Violation) : ForInStep (List Violation) :=
  if mode.isDone reported then .done reported else .yield reported

end Mode

/-- From the violations reported so far to those reported afterwards. -/
abbrev Check := List Violation → Query (ForInStep (List Violation))

namespace Check

def pass : Check := fun reported => return .yield reported

def andThen (first second : Check) : Check := fun reported => do
  match ← first reported with
  | .done reported => return .done reported
  | .yield reported => second reported

/-- The loop over the places, left when the check of one of them is done. -/
def forEach {α : Type} : List α → (α → Check) → Check
  | [], _ => pass
  | a :: rest, body => (body a).andThen (forEach rest body)

def push (unit : String) (mode : Mode) (violation : Violation) : Check := fun reported => do
  Traced.note (.warn fun _ => unit ++ ": " ++ violation.text)
  return mode.next (reported ++ [violation])

end Check

abbrev Probe := Oracle → Query (List Violation)

def Probe.check (probe : Probe) (push : Violation → Check) (oracle : Oracle) : Check :=
  fun reported => do Check.forEach (← probe oracle) push reported

/-- Every member with the members after it. -/
def withRest {α : Type} : List α → List (α × List α)
  | [] => []
  | a :: rest => (a, rest) :: withRest rest

end GuardedMachines.Verification
