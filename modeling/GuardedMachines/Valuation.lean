import GuardedMachines.Spelling
import GuardedMachines.Variable

/-!
A literal is a variable with a sign. A valuation fixes the values of some
Boolean variables, listed by identifier; every other variable reads as false.
-/

namespace GuardedMachines

structure Literal where
  var : Variable
  positive : Bool
deriving BEq, DecidableEq

namespace Literal

/-- By variable, the negative literal first. -/
instance : Ord Literal :=
  ⟨fun k l => (compare k.var l.var).then (compare k.positive.toNat l.positive.toNat)⟩

def negate (l : Literal) : Literal := ⟨l.var, !l.positive⟩

def holds (assignment : VarId → Bool) (l : Literal) : Bool :=
  assignment l.var.id == l.positive

def render (l : Literal) : List Char :=
  if l.positive then l.var.name.toList else Spelling.neg ++ ' ' :: l.var.name.toList

def text (l : Literal) : String := String.ofList l.render

end Literal

structure Valuation where
  entries : List (Variable × Bool)
deriving BEq

namespace Valuation

def empty : Valuation := ⟨[]⟩

/-- The entry of a variable already listed keeps its place and its variable. -/
def setEntry (v : Variable) (b : Bool) : List (Variable × Bool) → List (Variable × Bool)
  | [] => [(v, b)]
  | (w, c) :: rest =>
    match compare v w with
    | .lt => (v, b) :: (w, c) :: rest
    | .eq => (w, b) :: rest
    | .gt => (w, c) :: setEntry v b rest

def set (valuation : Valuation) (v : Variable) (b : Bool) : Valuation :=
  ⟨setEntry v b valuation.entries⟩

def ofLiterals (literals : List Literal) : Valuation :=
  literals.foldl (fun valuation l => valuation.set l.var l.positive) empty

def lookupId (valuation : Valuation) (id : VarId) : Option Bool :=
  (valuation.entries.find? fun entry => entry.1.id == id).map Prod.snd

def lookup (valuation : Valuation) (v : Variable) : Option Bool := valuation.lookupId v.id

/-- The total assignment that a valuation stands for. -/
def assignment (valuation : Valuation) (id : VarId) : Bool := (valuation.lookupId id).getD false

def get (valuation : Valuation) (v : Variable) : Bool := valuation.assignment v.id

def size (valuation : Valuation) : Nat := valuation.entries.length

def isEmpty (valuation : Valuation) : Bool := valuation.entries.isEmpty

def text (valuation : Valuation) : String :=
  ", ".intercalate (valuation.entries.map fun (v, b) => v.name ++ " = " ++ toString b)

end Valuation

end GuardedMachines
