/-!
Broken preconditions of the public operations. Each one names the rule that the
caller did not keep; none of them is a result of a verification.
-/

namespace GuardedMachines

inductive Misuse where
  | zeroIdentifier
  | zeroVariable
  | noRoomForTerminal
  | notBoolean (name : String)
  | noSuccessMessage (unit : String) (errors : Nat)
  | noErrorMessage (unit : String)
  | negationOverflow
  | reversedSpan
deriving DecidableEq

def Misuse.message : Misuse → String
  | .zeroIdentifier => "Variable IDs must be >= 1"
  | .zeroVariable => "Variable index should not be zero"
  | .noRoomForTerminal => "Node limit must leave room for the terminal"
  | .notBoolean name => "Variable '" ++ name ++ "' is not Boolean"
  | .noSuccessMessage unit errors =>
    unit ++ " found " ++ toString errors ++ " errors, there is no success message"
  | .noErrorMessage unit => unit ++ " found no errors, there is no error message"
  | .negationOverflow => "attempt to negate with overflow"
  | .reversedSpan => "assertion failed: start <= end"

end GuardedMachines
