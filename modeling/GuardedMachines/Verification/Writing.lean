import GuardedMachines.Usage
import GuardedMachines.Verification.Check

/-!
Who writes a variable. No variable is written by several machines, every
variable that is read is written somewhere, and every variable that is written
is read somewhere.
-/

namespace GuardedMachines.Verification.Writing

def concurrent? : Variable × List String → Option Violation
  | (v, machines) => if 1 < machines.length then some (.concurrentWriting v machines) else none

def neverWritten? (usage : Usage) : Variable × List String → Option Violation
  | (v, machines) => if usage.isWritten v then none else some (.neverWritten v machines)

def useless? (usage : Usage) : Variable × List String → Option Violation
  | (v, machines) => if usage.isRead v then none else some (.uselessVariable v machines)

def checkEntries (push : Violation → Check) (entries : Register Variable)
    (violation? : Variable × List String → Option Violation) : Check :=
  .forEach entries fun entry =>
    match violation? entry with
    | none => .pass
    | some violation => push violation

def checkConcurrent (push : Violation → Check) (model : Model) : Check :=
  checkEntries push (Usage.ofModel model).writers concurrent?

def checkNeverWritten (push : Violation → Check) (model : Model) : Check :=
  let usage := Usage.ofModel model
  checkEntries push usage.readers (neverWritten? usage)

def checkUseless (push : Violation → Check) (model : Model) : Check :=
  let usage := Usage.ofModel model
  checkEntries push usage.writers (useless? usage)

end GuardedMachines.Verification.Writing
