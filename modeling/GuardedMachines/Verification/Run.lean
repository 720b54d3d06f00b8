import GuardedMachines.Verification.Property

/-!
Verification of a list of properties. A query that reached a bound aborts the
run: an unanswered question is never taken for a passed one. Looking for the
first violation only, the run also ends with the first property that fails.
-/

namespace GuardedMachines.Verification

inductive Status where
  | success
  | failed
  | aborted (cause : Exhaustion)
deriving DecidableEq

namespace Status

def text : Status → String
  | success => "Success"
  | failed => "Failed"
  | aborted cause => "Aborted(" ++ cause.text ++ ")"

/-- The status of a run in which a property failed before the rest was run. -/
def afterFailure : Status → Status
  | aborted cause => aborted cause
  | _ => failed

end Status

structure Run where
  status : Status
  reports : List Report
deriving DecidableEq

namespace Run

def isSuccess (run : Run) : Bool := run.status == .success

def report? (run : Run) (property : Property) : Option Report :=
  run.reports.find? fun report => report.property == property

def violations (run : Run) : List Violation := run.reports.flatMap Report.violations

end Run

structure Verifier where
  properties : List Property
  oracle : Oracle

namespace Verifier

def standard (oracle : Oracle) : Verifier := ⟨Property.standard, oracle⟩

def text (verifier : Verifier) : String :=
  "Verifier \x7b units: [" ++
    ", ".intercalate (verifier.properties.map fun p => "\"" ++ p.name ++ "\"") ++ "] \x7d"

def runFrom (oracle : Oracle) (model : Model) (mode : Mode) : List Property → Traced Run
  | [] => return ⟨.success, []⟩
  | property :: rest => do
    match ← (verify property model oracle mode).traced with
    | .error cause =>
      Traced.note (.warn fun _ => property.name ++ ": aborted: " ++ cause.message)
      return ⟨.aborted cause, []⟩
    | .ok report =>
      Traced.note (.info fun _ => property.name ++ ": " ++ if report.passed then "OK" else "FAILED")
      if mode.isDone report.violations then return ⟨.failed, [report]⟩
      let run ← runFrom oracle model mode rest
      let status := if report.passed then run.status else run.status.afterFailure
      return ⟨status, report :: run.reports⟩

def run (verifier : Verifier) (model : Model) (mode : Mode) : Traced Run := do
  Traced.note (.info fun _ => "Verifying " ++ model.name ++ " with " ++
    toString verifier.properties.length ++ " units (" ++ mode.text ++ ")")
  let run ← runFrom verifier.oracle model mode verifier.properties
  Traced.note (.info fun _ => "Verification of " ++ model.name ++ " finished: " ++ run.status.text)
  return run

def check (verifier : Verifier) (model : Model) : Traced Run := verifier.run model .firstViolation

def checkAll (verifier : Verifier) (model : Model) : Traced Run := verifier.run model .allViolations

end Verifier

end GuardedMachines.Verification
