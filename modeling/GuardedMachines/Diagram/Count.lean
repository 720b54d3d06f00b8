import Std.Data.TreeMap
import GuardedMachines.Diagram.Store

/-!
The number of satisfying assignments of an edge among a given number of variables.
A node is satisfied by half of the assignments of each of its children together,
and a negated edge by those that are left. Counts are remembered by edge, sign
included, for the time of one computation.
-/

namespace GuardedMachines.Diagram.Store

/-- Counts of edges that have been computed. -/
abbrev Counts := Std.TreeMap Edge Nat

/-- The count of an edge of index at most the fuel, where `full` counts all assignments;
children have smaller indices. -/
def countWithin (s : Store) (full : Nat) : Nat → Edge → Counts → Nat × Counts
  | 0, _, known => (full, known)
  | fuel + 1, e, known =>
    if e = .zero then (0, known)
    else if e = .one then (full, known)
    else
      match known[e]? with
      | some count => (count, known)
      | none =>
        let (low, known) := s.countWithin full fuel (s.low e.regular) known
        let (high, known) := s.countWithin full fuel (s.high e.regular) known
        let half := (low + high) / 2
        let count := if e.isNegated then full - half else half
        (count, known.insert e count)

def count (s : Store) (e : Edge) (vars : Nat) : Nat :=
  (s.countWithin (Nat.pow 2 vars) e.index e ∅).1

end GuardedMachines.Diagram.Store
