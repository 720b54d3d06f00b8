import GuardedMachines.Verification.CoherentWriting
import GuardedMachines.Verification.Determinism
import GuardedMachines.Verification.Initialization
import GuardedMachines.Verification.Tautology
import GuardedMachines.Verification.Writing

/-!
The properties that are verified, and the report on one of them.
-/

namespace GuardedMachines.Verification

inductive Property where
  | initialization
  | singleWriting
  | writtenAtLeastOnce
  | noUselessVariables
  | determinism
  | coherentWriting
  | tautology
deriving DecidableEq

namespace Property

/-- All properties, in the order in which they are verified by default. -/
def standard : List Property :=
  [initialization, singleWriting, writtenAtLeastOnce, noUselessVariables, determinism,
    coherentWriting, tautology]

def name : Property → String
  | initialization => "initialization"
  | singleWriting => "single-writing"
  | writtenAtLeastOnce => "written-at-least-once"
  | noUselessVariables => "no-useless-variables"
  | determinism => "determinism"
  | coherentWriting => "coherent-writing"
  | tautology => "tautology"

def named? (name : String) : Option Property := standard.find? fun p => p.name == name

def description : Property → String
  | initialization => "state machines are initialized unconditionally"
  | singleWriting => "each variable is written by a single state machine"
  | writtenAtLeastOnce => "every variable read is written at least once"
  | noUselessVariables => "every variable written is used"
  | determinism => "transitions are exclusive, ensuring determinism"
  | coherentWriting => "variables are written coherently"
  | tautology => "no condition reachable from the initial state is always true"

def failure : Property → String
  | initialization => "Initialization properties not verified"
  | singleWriting => "Concurrent writing found"
  | writtenAtLeastOnce => "Variables never written found"
  | noUselessVariables => "Useless variables found"
  | determinism => "Transitions exclusion not verified"
  | coherentWriting => "Incoherent writing found"
  | tautology => "Tautological conditions found"

def check (property : Property) (push : Violation → Check) (oracle : Oracle) (model : Model) :
    Check :=
  match property with
  | initialization => Initialization.check push model
  | singleWriting => Writing.checkConcurrent push model
  | writtenAtLeastOnce => Writing.checkNeverWritten push model
  | noUselessVariables => Writing.checkUseless push model
  | determinism => Determinism.check push oracle model
  | coherentWriting => CoherentWriting.check push oracle model
  | tautology => Tautology.check push oracle model

/-- The records of the analyses that a property starts from. -/
def preamble : Property → Model → List Record
  | singleWriting, model => [(Usage.ofModel model).record model]
  | writtenAtLeastOnce, model => [(Usage.ofModel model).record model]
  | noUselessVariables, model => [(Usage.ofModel model).record model]
  | coherentWriting, model => (Activation.ofModel model).records model
  | _, _ => []

end Property

structure Report where
  property : Property
  violations : List Violation
deriving DecidableEq

namespace Report

def passed (report : Report) : Bool := report.violations.isEmpty

def successText (report : Report) : String :=
  "[SUCCESS] Checking that " ++ report.property.description ++ "...OK"

def failureText (report : Report) : String :=
  "[FAILURE] " ++ report.property.failure ++ ": " ++ toString report.violations.length ++
    " errors have been found.\n" ++
    String.join (report.violations.map fun v => v.text ++ "\n")

def message (report : Report) : String :=
  if report.passed then report.successText else report.failureText

def successMessage (report : Report) : Except Misuse String :=
  if report.passed then .ok report.successText
  else .error (.noSuccessMessage report.property.name report.violations.length)

def errorMessage (report : Report) : Except Misuse String :=
  if report.passed then .error (.noErrorMessage report.property.name) else .ok report.failureText

end Report

def verify (property : Property) (model : Model) (oracle : Oracle) (mode : Mode) :
    Query Report := do
  Traced.notes (property.preamble model)
  let reported ← property.check (.push property.name mode) oracle model []
  return ⟨property, reported.value⟩

end GuardedMachines.Verification
