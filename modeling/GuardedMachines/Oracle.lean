import GuardedMachines.Cnf
import GuardedMachines.Diagram.Count
import GuardedMachines.Diagram.Ite
import GuardedMachines.Diagram.Path
import GuardedMachines.Query

/-!
Satisfiability oracles. An oracle decides a conjunction of clauses and counts
its models, or reports that a bound was reached; it keeps nothing between
queries. The oracle provided here compiles the clauses into a fresh decision
diagram, in which the variables are numbered from one by identifier.
-/

namespace GuardedMachines

/-- A satisfying assignment, as one literal per variable by identifier. -/
structure Witness where
  literals : List Literal
deriving BEq, DecidableEq

namespace Witness

def valuation (w : Witness) : Valuation := .ofLiterals w.literals

def text (w : Witness) : String :=
  if w.literals.isEmpty then "(any valuation)" else w.valuation.text

end Witness

inductive Verdict where
  | satisfiable (w : Witness)
  | unsatisfiable

def Verdict.isSatisfiable : Verdict → Bool
  | satisfiable _ => true
  | unsatisfiable => false

structure Oracle where
  solve : Cnf → Query Verdict
  countModels : Cnf → Query Nat

def Oracle.isSatisfiable (oracle : Oracle) (cnf : Cnf) : Query Bool := do
  return (← oracle.solve cnf).isSatisfiable

namespace DiagramOracle

open Diagram

/-- A literal as a signed position in the list of variables, in words. -/
def signedPosition (vars : List Variable) (l : Literal) : Int32 :=
  let position := Int32.ofNat (vars.findIdx fun v => v == l.var) + 1
  if l.positive then position else -position

/-- The conjunction of an edge with clauses, left as soon as it is zero. -/
def conjoinFrom (s : Store) (f : Edge) : List (List Int32) → Outcome Edge
  | [] => (.ok f, s)
  | literals :: rest =>
    match s.clause literals with
    | (.error e, s) => (.error e, s)
    | (.ok c, s) =>
      match s.conj f c with
      | (.error e, s) => (.error e, s)
      | (.ok f, s) => if f = .zero then (.ok f, s) else conjoinFrom s f rest

structure Compiled where
  store : Store
  root : Edge
  vars : List Variable

def compile (limits : Limits) (clock : Clock) (cnf : Cnf) : Query Compiled :=
  let vars := cnf.vars
  let clauses := cnf.clauses.map fun c => c.literals.map (signedPosition vars)
  match conjoinFrom (.new limits clock) .one clauses with
  | (.error e, _) => ⟨.error e, []⟩
  | (.ok root, store) =>
    ⟨.ok ⟨store, root, vars⟩, [.debug fun _ =>
      "compiled " ++ toString cnf.size ++ " clauses over " ++ toString vars.length ++
        " variables into " ++ store.text]⟩

/-- Variables off the path are false. -/
def witness (vars : List Variable) (path : List Int32) : Witness :=
  let assigned := path.filter fun l => decide (0 < l)
  ⟨vars.mapIdx fun i v => ⟨v, assigned.contains (Int32.ofNat i + 1)⟩⟩

def solve (limits : Limits) (clock : Clock) (cnf : Cnf) : Query Verdict := do
  let compiled ← compile limits clock cnf
  match ← compiled.store.pathTraced compiled.root with
  | none =>
    Traced.note (.debug fun _ => "UNSAT: " ++ cnf.text)
    return .unsatisfiable
  | some path =>
    let w := witness compiled.vars path
    Traced.note (.debug fun _ => "SAT: " ++ cnf.text ++ " with " ++ w.text)
    return .satisfiable w

def countModels (limits : Limits) (clock : Clock) (cnf : Cnf) : Query Nat := do
  let compiled ← compile limits clock cnf
  return compiled.store.count compiled.root compiled.vars.length

end DiagramOracle

def Oracle.diagram (limits : Limits) (clock : Diagram.Clock) : Oracle :=
  ⟨DiagramOracle.solve limits clock, DiagramOracle.countModels limits clock⟩

end GuardedMachines
