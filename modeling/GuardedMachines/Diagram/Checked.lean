import GuardedMachines.Diagram.Ite
import GuardedMachines.Diagram.Path

/-!
The operations on variables that come from outside, with their preconditions:
the variable zero belongs to the terminal and must not be asked for, and the
negation of a variable along a path must not overflow.
-/

namespace GuardedMachines.Diagram

inductive Refusal where
  | misuse (cause : Misuse)
  | exhausted (cause : Exhaustion)

namespace Store

def checked : Outcome Edge → Except Refusal Edge × Store
  | (.ok e, s) => (.ok e, s)
  | (.error e, s) => (.error (.exhausted e), s)

def mkNodeChecked (s : Store) (var : Nat) (low high : Edge) : Except Refusal Edge × Store :=
  if var = 0 then (.error (.misuse .zeroVariable), s) else checked (s.mkNode var low high)

def mkVarChecked (s : Store) (var : Nat) : Except Refusal Edge × Store :=
  if var = 0 then (.error (.misuse .zeroVariable), s) else checked (s.mkVar var)

def mkLiteralChecked (s : Store) (literal : Int32) : Except Refusal Edge × Store :=
  if literal = 0 then (.error (.misuse .zeroVariable), s) else checked (s.mkLiteral literal)

/-- The literals before a zero have been taken in when the zero is met. -/
def clauseChecked (s : Store) (literals : List Int32) : Except Refusal Edge × Store :=
  match s.clause (literals.takeWhile (fun l => l != 0)) with
  | (.error e, s) => (.error (.exhausted e), s)
  | (.ok e, s) => if literals.contains 0 then (.error (.misuse .zeroVariable), s) else (.ok e, s)

/-- A path with every negation of a variable checked. One that is refused leaves no record. -/
def pathChecked (s : Store) (e : Edge) : Traced (Except Misuse (Option (List Int32))) :=
  match s.path? e with
  | none => pure (.ok none)
  | some path =>
    match path.mapM Decision.literalChecked with
    | .error cause => pure (.error cause)
    | .ok literals => ⟨.ok (some literals), [pathRecord e literals]⟩

end Store

end GuardedMachines.Diagram
