import GuardedMachines.Diagram.Store

/-!
If-then-else on edges, to which every connective reduces. Operands are first
brought to a standard form, in which neither the test nor the positive branch
is negated; equivalent requests then share one remembered result. The recursion
goes to the children of the topmost variable, and children have smaller indices
than their parents whatever the order of the variables, so the sum of the three
indices bounds its depth.
-/

namespace GuardedMachines.Diagram

/-- The answer, where the operands alone decide it. -/
def immediate? (f g h : Edge) : Option Edge :=
  if f = .one then some g
  else if f = .zero then some h
  else if g = h then some g
  else if g = .one ∧ h = .zero then some f
  else if g = .zero ∧ h = .one then some (-f)
  else none

inductive Request where
  | answer (e : Edge)
  | compute (t : Triple) (negated : Bool)

namespace Request

/-- A request about a test that is not constant, with the sign of its answer. -/
def standard (f g h : Edge) : Request :=
  let (f, g, h) := if f.isNegated then (-f, h, g) else (f, g, h)
  if g.isNegated then compute ⟨f, -g, -h⟩ true else compute ⟨f, g, h⟩ false

/-- Where a branch is the test or its negation it becomes a constant. -/
def ofEdges (f g h : Edge) : Request :=
  match immediate? f g h with
  | some e => answer e
  | none =>
    let g := if g = f then .one else if g = -f then .zero else g
    let h := if h = f then .zero else if h = -f then .one else h
    match immediate? f g h with
    | some e => answer e
    | none => standard f g h

end Request

namespace Store

/-- The least variable of the operands that are not terminal. -/
def topVar (s : Store) (t : Triple) : Nat :=
  (([t.test, t.onTrue, t.onFalse].filter fun e => !e.isTerminal).map s.var).min?.getD 0

def cofactor (s : Store) (var : Nat) (b : Bool) (e : Edge) : Edge :=
  if e.isTerminal || s.var e != var then e else if b then s.high e else s.low e

/-- If-then-else whose indices add up to at most the fuel. -/
def iteWithin : Nat → Store → Edge → Edge → Edge → Outcome Edge
  | 0, s, _, _, h => (.ok h, s)
  | fuel + 1, s, f, g, h =>
    match s.checkTime with
    | (.error e, s) => (.error e, s)
    | (.ok (), s) =>
      match Request.ofEdges f g h with
      | .answer e => (.ok e, s)
      | .compute t negated =>
        match s.computed[t]? with
        | some e => (.ok (e.negateIf negated), s)
        | none =>
          let v := s.topVar t
          let on (b : Bool) (e : Edge) := s.cofactor v b e
          let (f₀, g₀, h₀) := (on false t.test, on false t.onTrue, on false t.onFalse)
          let (f₁, g₁, h₁) := (on true t.test, on true t.onTrue, on true t.onFalse)
          match iteWithin fuel s f₀ g₀ h₀ with
          | (.error e, s) => (.error e, s)
          | (.ok low, s) =>
            match iteWithin fuel s f₁ g₁ h₁ with
            | (.error e, s) => (.error e, s)
            | (.ok high, s) =>
              match s.mkNode v low high with
              | (.error e, s) => (.error e, s)
              | (.ok e, s) => (.ok (e.negateIf negated), s.remember t e)

def ite (s : Store) (f g h : Edge) : Outcome Edge :=
  iteWithin (f.index + g.index + h.index) s f g h

def conj (s : Store) (f g : Edge) : Outcome Edge := s.ite f g .zero

def disj (s : Store) (f g : Edge) : Outcome Edge := s.ite f .one g

def clauseFrom (s : Store) (current : Edge) : List Int32 → Outcome Edge
  | [] => (.ok current, s)
  | literal :: rest =>
    match s.mkLiteral literal with
    | (.error e, s) => (.error e, s)
    | (.ok e, s) =>
      match s.disj current e with
      | (.error e, s) => (.error e, s)
      | (.ok current, s) => s.clauseFrom current rest

/-- The disjunction of signed variables. -/
def clause (s : Store) (literals : List Int32) : Outcome Edge := s.clauseFrom .zero literals

end Store

end GuardedMachines.Diagram
