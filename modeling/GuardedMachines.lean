import GuardedMachines.Activation
import GuardedMachines.Ascending
import GuardedMachines.Cnf
import GuardedMachines.Condition.Blank
import GuardedMachines.Condition.Chain
import GuardedMachines.Condition.Error
import GuardedMachines.Condition.Parse
import GuardedMachines.Condition.Reader
import GuardedMachines.Condition.Token
import GuardedMachines.Diagram.Checked
import GuardedMachines.Diagram.Count
import GuardedMachines.Diagram.Edge
import GuardedMachines.Diagram.Ite
import GuardedMachines.Diagram.Path
import GuardedMachines.Diagram.Store
import GuardedMachines.Diagram.Word
import GuardedMachines.Duration
import GuardedMachines.Formula.Basic
import GuardedMachines.Formula.Residual
import GuardedMachines.Formula.Text
import GuardedMachines.Limits
import GuardedMachines.Machine.Basic
import GuardedMachines.Machine.Event
import GuardedMachines.Misuse
import GuardedMachines.Model
import GuardedMachines.Oracle
import GuardedMachines.Proofs.Activation
import GuardedMachines.Proofs.Ascending
import GuardedMachines.Proofs.Building
import GuardedMachines.Proofs.CanonicalText
import GuardedMachines.Proofs.CanonicalWitness
import GuardedMachines.Proofs.ClauseForm
import GuardedMachines.Proofs.ClauseList
import GuardedMachines.Proofs.Compilation
import GuardedMachines.Proofs.Condition.Acceptance
import GuardedMachines.Proofs.Condition.Chain
import GuardedMachines.Proofs.Condition.ClauseText
import GuardedMachines.Proofs.Condition.Declaring
import GuardedMachines.Proofs.Condition.Derivation
import GuardedMachines.Proofs.Condition.Grammar
import GuardedMachines.Proofs.Condition.Height
import GuardedMachines.Proofs.Condition.Layout
import GuardedMachines.Proofs.Condition.Lexing
import GuardedMachines.Proofs.Condition.Lockstep
import GuardedMachines.Proofs.Condition.Reading
import GuardedMachines.Proofs.Condition.RoundTrip
import GuardedMachines.Proofs.Condition.Slicing
import GuardedMachines.Proofs.Condition.Spans
import GuardedMachines.Proofs.Condition.Steps
import GuardedMachines.Proofs.Condition.Stopping
import GuardedMachines.Proofs.Condition.TableGrowth
import GuardedMachines.Proofs.Condition.ViablePrefix
import GuardedMachines.Proofs.Diagram.Canonicity
import GuardedMachines.Proofs.Diagram.Counting
import GuardedMachines.Proofs.Diagram.Crowded
import GuardedMachines.Proofs.Diagram.ExactCount
import GuardedMachines.Proofs.Diagram.GreedyPath
import GuardedMachines.Proofs.Diagram.IfThenElse
import GuardedMachines.Proofs.Diagram.Ordering
import GuardedMachines.Proofs.Diagram.PairClauses
import GuardedMachines.Proofs.Diagram.Recursion
import GuardedMachines.Proofs.Diagram.Representation
import GuardedMachines.Proofs.Diagram.Request
import GuardedMachines.Proofs.Diagram.Reuse
import GuardedMachines.Proofs.Diagram.Room
import GuardedMachines.Proofs.Diagram.Runs
import GuardedMachines.Proofs.Diagram.Satisfaction
import GuardedMachines.Proofs.Diagram.SatisfyingPath
import GuardedMachines.Proofs.Diagram.Support
import GuardedMachines.Proofs.Diagram.Validity
import GuardedMachines.Proofs.Diagram.Value
import GuardedMachines.Proofs.Flattening
import GuardedMachines.Proofs.Greedy
import GuardedMachines.Proofs.Grouping
import GuardedMachines.Proofs.Guard
import GuardedMachines.Proofs.Interning
import GuardedMachines.Proofs.Linking
import GuardedMachines.Proofs.ModelCount
import GuardedMachines.Proofs.ModelRuns
import GuardedMachines.Proofs.PairGuard
import GuardedMachines.Proofs.Propagation
import GuardedMachines.Proofs.Reordering
import GuardedMachines.Proofs.Substitution
import GuardedMachines.Proofs.TableRuns
import GuardedMachines.Proofs.TruthTable
import GuardedMachines.Proofs.Usage
import GuardedMachines.Proofs.Verification.Bounds
import GuardedMachines.Proofs.Verification.CoherentWriting
import GuardedMachines.Proofs.Verification.Counts
import GuardedMachines.Proofs.Verification.Determinism
import GuardedMachines.Proofs.Verification.Loops
import GuardedMachines.Proofs.Verification.Modes
import GuardedMachines.Proofs.Verification.Modularity
import GuardedMachines.Proofs.Verification.OrderIndependence
import GuardedMachines.Proofs.Verification.Pruning
import GuardedMachines.Proofs.Verification.Questions
import GuardedMachines.Proofs.Verification.Reachability
import GuardedMachines.Proofs.Verification.Run
import GuardedMachines.Proofs.Verification.Search
import GuardedMachines.Proofs.Verification.Tally
import GuardedMachines.Proofs.Verification.Tautology
import GuardedMachines.Proofs.Verification.Writing
import GuardedMachines.Query
import GuardedMachines.Spelling
import GuardedMachines.Trace
import GuardedMachines.Usage
import GuardedMachines.Valuation
import GuardedMachines.Variable
import GuardedMachines.VariableTable
import GuardedMachines.Verification.Check
import GuardedMachines.Verification.CoherentWriting
import GuardedMachines.Verification.Determinism
import GuardedMachines.Verification.Initialization
import GuardedMachines.Verification.Property
import GuardedMachines.Verification.Run
import GuardedMachines.Verification.Tautology
import GuardedMachines.Verification.Violation
import GuardedMachines.Verification.Writing
