import GuardedMachines.Condition.Chain
import GuardedMachines.Condition.Token
import GuardedMachines.Formula.Basic
import GuardedMachines.VariableTable

/-!
Conditions are read token by token with a stack of the parentheses left open.
The grammar, from the loosest to the tightest binding, is

  or := and (OR and)*, and := unary (AND unary)*, unary := NOT* atom,
  atom := IDENT | '(' or ')'.

Open parentheses and negations that still wait for their operand may together
be nested at most `maxNesting` deep. Every identifier read is interned as a
Boolean variable, also when a later token is refused.
-/

namespace GuardedMachines.Condition

def maxNesting : Nat := 64

/-- A disjunction being read: the disjuncts that are complete and the conjuncts
of the current one, the latest first. -/
structure Operands where
  disjuncts : List Formula
  conjuncts : List Formula

namespace Operands

def none : Operands := ⟨[], []⟩

/-- The current disjunct, ended by one more conjunct. -/
def disjunct (operands : Operands) (last : Formula) : Formula :=
  balanced .conj operands.conjuncts.reverse last

/-- The whole disjunction, ended by one more conjunct. -/
def disjunction (operands : Operands) (last : Formula) : Formula :=
  balanced .disj operands.disjuncts.reverse (operands.disjunct last)

def andThen (operands : Operands) (last : Formula) : Operands :=
  ⟨operands.disjuncts, last :: operands.conjuncts⟩

def orThen (operands : Operands) (last : Formula) : Operands :=
  ⟨operands.disjunct last :: operands.disjuncts, []⟩

end Operands

/-- What surrounds an open parenthesis: the operands before it and the
negations in front of it. -/
structure Frame where
  opening : Span
  operands : Operands
  negations : Nat

inductive Phase where
  | beforeOperand (negations : Nat)
  | afterOperand (operand : Formula)

structure Reader where
  table : VariableTable
  frames : List Frame
  operands : Operands
  phase : Phase

def negated (negations : Nat) (f : Formula) : Formula := Nat.repeat .neg negations f

namespace Reader

def start (table : VariableTable) : Reader := ⟨table, [], .none, .beforeOperand 0⟩

def pendingNegations (r : Reader) : Nat :=
  match r.phase with
  | .beforeOperand negations => negations
  | .afterOperand _ => 0

/-- Open parentheses and pending negations. -/
def depth (r : Reader) : Nat :=
  r.frames.foldr (fun frame depth => frame.negations + 1 + depth) r.pendingNegations

def step (r : Reader) (t : Token) : Except ConditionError Reader :=
  match r.phase, t.symbol with
  | .beforeOperand negations, .ident name =>
    match r.table.boolean name with
    | .ok (v, table) =>
      .ok { r with table := table, phase := .afterOperand (negated negations (.atom v)) }
    | .error _ => .error (.notBoolean name t.span)
  | .beforeOperand negations, .neg =>
    if r.depth < maxNesting then .ok { r with phase := .beforeOperand (negations + 1) }
    else .error (.tooDeep maxNesting t.span)
  | .beforeOperand negations, .opening =>
    if r.depth < maxNesting then
      .ok ⟨r.table, ⟨t.span, r.operands, negations⟩ :: r.frames, .none, .beforeOperand 0⟩
    else .error (.tooDeep maxNesting t.span)
  | .beforeOperand _, .closing => .error (.unbalancedParenthesis t.span)
  | .beforeOperand _, _ => .error (.unexpectedToken t.text .operand t.span)
  | .afterOperand f, .conj =>
    .ok { r with operands := r.operands.andThen f, phase := .beforeOperand 0 }
  | .afterOperand f, .disj =>
    .ok { r with operands := r.operands.orThen f, phase := .beforeOperand 0 }
  | .afterOperand f, .closing =>
    match r.frames with
    | [] => .error (.unbalancedParenthesis t.span)
    | frame :: frames =>
      .ok ⟨r.table, frames, frame.operands,
        .afterOperand (negated frame.negations (r.operands.disjunction f))⟩
  | .afterOperand _, _ =>
    let expected := if r.frames.isEmpty then .connective else .closing
    .error (.unexpectedToken t.text expected t.span)

/-- The reader after the last token it took, and why it stopped if it refused one. -/
def run (r : Reader) : List Token → Reader × Option ConditionError
  | [] => (r, none)
  | t :: rest =>
    match r.step t with
    | .ok r' => r'.run rest
    | .error e => (r, some e)

/-- The formula read, if the text may end here. -/
def finish (r : Reader) (stop : Nat) : Except ConditionError Formula :=
  match r.phase, r.frames with
  | .beforeOperand _, _ => .error (.unexpectedEnd .operand ⟨stop, stop⟩)
  | .afterOperand f, [] => .ok (r.operands.disjunction f)
  | .afterOperand _, frame :: _ => .error (.unbalancedParenthesis frame.opening)

end Reader

end GuardedMachines.Condition
