import GuardedMachines.Duration
import GuardedMachines.Misuse

/-!
Bounds on the work of one satisfiability query. A query that reaches a bound
stops without an answer and says which bound it was.
-/

namespace GuardedMachines

structure Limits where
  timeout : Option Duration
  nodeLimit : Nat
deriving DecidableEq

namespace Limits

def standard : Limits := ⟨some (.ofSeconds 10), 1048576⟩

def withTimeout (limits : Limits) (timeout : Duration) : Limits :=
  { limits with timeout := some timeout }

def withoutTimeout (limits : Limits) : Limits := { limits with timeout := none }

def withNodeLimit (limits : Limits) (nodeLimit : Nat) : Except Misuse Limits :=
  if 2 ≤ nodeLimit then .ok { limits with nodeLimit := nodeLimit } else .error .noRoomForTerminal

def text (limits : Limits) : String :=
  let timeout :=
    match limits.timeout with
    | some time => "Some(" ++ time.text ++ ")"
    | none => "None"
  "OracleConfig \x7b timeout: " ++ timeout ++ ", node_limit: " ++ toString limits.nodeLimit ++
    " \x7d"

end Limits

inductive Exhaustion where
  | timeout (limit : Duration)
  | nodeLimit (limit : Nat)
deriving DecidableEq

namespace Exhaustion

def message : Exhaustion → String
  | timeout limit => "SAT query timed out after " ++ limit.text
  | nodeLimit limit =>
    "SAT query exceeded the limit of " ++ toString limit ++ " decision diagram nodes"

/-- The bound and its value. -/
def text : Exhaustion → String
  | timeout limit => "Timeout \x7b limit: " ++ limit.text ++ " \x7d"
  | nodeLimit limit => "NodeLimit \x7b limit: " ++ toString limit ++ " \x7d"

end Exhaustion

end GuardedMachines
