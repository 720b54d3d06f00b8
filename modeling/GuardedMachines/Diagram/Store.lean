import Std.Data.TreeMap
import GuardedMachines.Diagram.Edge
import GuardedMachines.Limits

/-!
A store of decision diagram nodes, made for one query. Nodes are only appended,
a node is stored once, its high edge is never negated and its children differ.
Variables are numbered from one and the terminal carries variable zero. Results
of finished if-then-else computations are remembered. Every operation returns
the store as it left it, also when it reached a bound. The table of nodes keeps
indices as words; only a bound on the nodes keeps these and the edges apart.
-/

namespace GuardedMachines.Diagram

structure Node where
  var : Nat
  low : Edge
  high : Edge
deriving DecidableEq

instance : Ord Node :=
  ⟨compareLex (compareOn Node.var) (compareLex (compareOn Node.low) (compareOn Node.high))⟩

def Node.terminal : Node := ⟨0, .one, .one⟩

/-- The operands of an if-then-else. -/
structure Triple where
  test : Edge
  onTrue : Edge
  onFalse : Edge
deriving DecidableEq

instance : Ord Triple :=
  ⟨compareLex (compareOn Triple.test)
    (compareLex (compareOn Triple.onTrue) (compareOn Triple.onFalse))⟩

/-- The time since the store was made, at each reading. -/
abbrev Clock := Nat → Duration

def Clock.stopped : Clock := fun _ => .zero

structure Store where
  limits : Limits
  clock : Clock
  readings : Nat
  nodes : Array Node
  unique : Std.TreeMap Node UInt32
  computed : Std.TreeMap Triple Edge

/-- What an operation answers, and the store it leaves. -/
abbrev Outcome (α : Type) := Except Exhaustion α × Store

namespace Store

/-- Index zero is never referred to. -/
def new (limits : Limits) (clock : Clock) : Store :=
  ⟨limits, clock, 0, #[.terminal, .terminal], ∅, ∅⟩

def size (s : Store) : Nat := s.nodes.size - 1

def text (s : Store) : String :=
  "Bdd \x7b size: " ++ toString s.size ++ ", cache: " ++ toString s.computed.size ++
    ", config: " ++ s.limits.text ++ " \x7d"

def node (s : Store) (e : Edge) : Node := s.nodes.getD e.index .terminal

def var (s : Store) (e : Edge) : Nat := (s.node e).var

def low (s : Store) (e : Edge) : Edge := (s.node e).low.negateIf e.isNegated

def high (s : Store) (e : Edge) : Edge := (s.node e).high.negateIf e.isNegated

/-- Reads the clock, unless there is no timeout. -/
def checkTime (s : Store) : Outcome Unit :=
  match s.limits.timeout with
  | none => (.ok (), s)
  | some limit =>
    let s' := { s with readings := s.readings + 1 }
    if limit.nanoseconds ≤ (s.clock s.readings).nanoseconds then (.error (.timeout limit), s')
    else (.ok (), s')

/-- The edge of a node that is not stored yet. -/
def append (s : Store) (n : Node) : Outcome Edge :=
  if s.limits.nodeLimit ≤ s.nodes.size then (.error (.nodeLimit s.limits.nodeLimit), s)
  else
    let index := UInt32.ofNat s.nodes.size
    (.ok (.toNode index.toNat),
      { s with nodes := s.nodes.push n, unique := s.unique.insert n index })

/-- The edge of a node whose high edge is not negated. -/
def mkRegular (s : Store) (n : Node) : Outcome Edge :=
  if n.low = n.high then (.ok n.low, s)
  else
    match s.unique[n]? with
    | some index => (.ok (.toNode index.toNat), s)
    | none => s.append n

def mkNode (s : Store) (var : Nat) (low high : Edge) : Outcome Edge :=
  if high.isNegated then
    match s.mkRegular ⟨var, -low, -high⟩ with
    | (.ok e, s) => (.ok (-e), s)
    | (.error e, s) => (.error e, s)
  else s.mkRegular ⟨var, low, high⟩

def mkVar (s : Store) (var : Nat) : Outcome Edge := s.mkNode var .zero .one

/-- The edge of a signed variable. -/
def mkLiteral (s : Store) (literal : Int32) : Outcome Edge :=
  match s.mkVar (Word.magnitude literal) with
  | (.ok e, s) => (.ok (e.negateIf (decide (literal < 0))), s)
  | (.error e, s) => (.error e, s)

def remember (s : Store) (t : Triple) (e : Edge) : Store :=
  { s with computed := s.computed.insert t e }

end Store

end GuardedMachines.Diagram
