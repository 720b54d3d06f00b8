/-!
Ascending lists without repetition stand for finite sets. Inserting a member
that compares equal to a stored one keeps the stored one; placing it replaces
the stored one. Neither operation disturbs the other members.
-/

namespace GuardedMachines.Ascending

variable {α : Type} [Ord α]

def insert (a : α) : List α → List α
  | [] => [a]
  | b :: rest =>
    match compare a b with
    | .lt => a :: b :: rest
    | .eq => b :: rest
    | .gt => b :: insert a rest

def place (a : α) : List α → List α
  | [] => [a]
  | b :: rest =>
    match compare a b with
    | .lt => a :: b :: rest
    | .eq => a :: rest
    | .gt => b :: place a rest

def contains (members : List α) (a : α) : Bool :=
  members.any fun b => compare a b == .eq

/-- Among members that compare equal the last one listed is kept. -/
def ofList (members : List α) : List α :=
  members.foldl (fun acc a => place a acc) []

end GuardedMachines.Ascending
