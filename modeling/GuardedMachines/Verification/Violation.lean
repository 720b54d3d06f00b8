import GuardedMachines.Model
import GuardedMachines.Oracle

/-!
Ways in which a model can fail to be well behaved, with the transitions, the
variables and the valuations that show it.
-/

namespace GuardedMachines.Verification

def initialState : String := "0"

/-- A transition and the machine it belongs to. -/
structure Site where
  machine : String
  transition : Transition
deriving DecidableEq

def Site.text (site : Site) : String := "[" ++ site.machine ++ "] " ++ site.transition.text

inductive Violation where
  | nonDeterminism (machine state : String) (first second : Transition) (witness : Witness)
      (models vars : Nat)
  | concurrentWriting (v : Variable) (machines : List String)
  | neverWritten (v : Variable) (readers : List String)
  | uselessVariable (v : Variable) (writers : List String)
  | conflictingWrites (v : Variable) (site : Site)
  | simultaneousWrites (v : Variable) (first second : Site) (witness : Witness)
  | propagatedWrites (v : Variable) (first second : Site) (witness : Witness)
  | missingInitialState (machine : String)
  | guardedInitialization (site : Site)
  | triggeredInitialization (site : Site)
  | tautologicalGuard (site : Site)
deriving DecidableEq

def Violation.text : Violation → String
  | nonDeterminism machine state first second witness models vars =>
    "In the state machine " ++ machine ++ ", state " ++ state ++ ", the transitions\n  " ++
      first.text ++ "\nand\n  " ++ second.text ++ "\nare not exclusive. Both are enabled by " ++
      witness.text ++ " (" ++ toString models ++ " of 2^" ++ toString vars ++ " valuations)"
  | concurrentWriting v machines =>
    "The variable " ++ v.name ++ " is written by several state machines: " ++
      ", ".intercalate machines
  | neverWritten v readers =>
    "The variable " ++ v.name ++ " is read by " ++ ", ".intercalate readers ++
      " but never written"
  | uselessVariable v writers =>
    "The variable " ++ v.name ++ " is written by " ++ ", ".intercalate writers ++
      " but never read"
  | conflictingWrites v site =>
    "The transition\n  " ++ site.text ++ "\nwrites several values to " ++ v.name
  | simultaneousWrites v first second witness =>
    "The transitions\n  " ++ first.text ++ "\nand\n  " ++ second.text ++
      "\ncan fire in the same step and write different values to " ++ v.name ++
      ", for instance with " ++ witness.text
  | propagatedWrites v first second witness =>
    "The transition\n  " ++ first.text ++ "\ntriggers\n  " ++ second.text ++
      "\nwhich writes another value to " ++ v.name ++ ", for instance with " ++ witness.text
  | missingInitialState machine =>
    "The state machine " ++ machine ++ " has no initial state " ++ initialState
  | guardedInitialization site =>
    "The initialization transition\n  " ++ site.text ++ "\ndepends on a condition"
  | triggeredInitialization site =>
    "The initialization transition\n  " ++ site.text ++ "\nis triggered by an event"
  | tautologicalGuard site => "The condition of\n  " ++ site.text ++ "\nis always true"

end GuardedMachines.Verification
