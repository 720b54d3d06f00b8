import GuardedMachines.Proofs.Condition.Chain
import GuardedMachines.Proofs.Condition.Steps

/-!
The grammar is unambiguous. A derivation is found from left to right without a
bound on the nesting: phrases that are complete are kept between the parentheses
left open, and every symbol says what becomes of them. Run over the symbols of a
phrase, this gives the phrase back, so no sentence has two derivations. Unlike the
reader it never refuses a phrase for being nested too deep.
-/

namespace GuardedMachines.Condition

theorem Phrase.negated_succ (negations : Nat) (p : Phrase .unary) :
    p.negated (negations + 1) = p.neg.negated negations :=
  repeat_succ_apply neg negations p

inductive Last where
  | waiting (negations : Nat)
  | operand (p : Phrase .unary)

/-- The phrases found so far: those before each open parenthesis, with the negations in front
of it, those since the innermost one, and the last operand. -/
structure Derivation where
  outer : List (Pending × Nat)
  pending : Pending
  last : Last

namespace Derivation

def next : Derivation → Symbol → Option Derivation
  | ⟨outer, pending, .waiting n⟩, .ident name =>
    some ⟨outer, pending, .operand ((Phrase.plain (.name name)).negated n)⟩
  | ⟨outer, pending, .waiting n⟩, .neg => some ⟨outer, pending, .waiting (n + 1)⟩
  | ⟨outer, pending, .waiting n⟩, .opening => some ⟨(pending, n) :: outer, .none, .waiting 0⟩
  | ⟨outer, pending, .operand p⟩, .conj => some ⟨outer, pending.andThen p, .waiting 0⟩
  | ⟨outer, pending, .operand p⟩, .disj => some ⟨outer, pending.orThen p, .waiting 0⟩
  | ⟨(before, n) :: outer, pending, .operand p⟩, .closing =>
    some ⟨outer, before, .operand ((Phrase.plain (.group (pending.disjunction p))).negated n)⟩
  | _, _ => none

def after (d : Derivation) (symbols : List Symbol) : Option Derivation := symbols.foldlM next d

theorem after_cons {d d' : Derivation} {symbol : Symbol} (h : d.next symbol = some d')
    (symbols : List Symbol) : d.after (symbol :: symbols) = d'.after symbols := by
  unfold after
  rw [List.foldlM_cons, h]
  rfl

theorem after_append {d d' : Derivation} {symbols : List Symbol} (h : d.after symbols = some d')
    (symbols' : List Symbol) : d.after (symbols ++ symbols') = d'.after symbols' := by
  unfold after at h ⊢
  rw [List.foldlM_append, h]
  rfl

end Derivation

/-- From where a phrase of the rank may begin, its symbols lead to the phrase itself. A chain is
found as the part before its last connective and its last operand. -/
def Phrase.Found : {k : Rank} → Phrase k → Prop
  | .atom, p => ∀ outer pending n,
    Derivation.after ⟨outer, pending, .waiting n⟩ p.symbols =
      some ⟨outer, pending, .operand (p.plain.negated n)⟩
  | .unary, p => ∀ outer pending n,
    Derivation.after ⟨outer, pending, .waiting n⟩ p.symbols =
      some ⟨outer, pending, .operand (p.negated n)⟩
  | .conjunction, p => ∀ outer disjunction?, ∃ conjunction? last,
    Derivation.after ⟨outer, ⟨disjunction?, none⟩, .waiting 0⟩ p.symbols =
      some ⟨outer, ⟨disjunction?, conjunction?⟩, .operand last⟩ ∧
    Pending.conjunction ⟨disjunction?, conjunction?⟩ last = p
  | .disjunction, p => ∀ outer, ∃ pending last,
    Derivation.after ⟨outer, .none, .waiting 0⟩ p.symbols =
      some ⟨outer, pending, .operand last⟩ ∧
    pending.disjunction last = p

theorem Phrase.found {k : Rank} (p : Phrase k) : p.Found := by
  induction p with
  | name name =>
    intro outer pending n
    rfl
  | group p ih =>
    intro outer pending n
    obtain ⟨inner, last, hinner, hp⟩ := ih ((pending, n) :: outer)
    rw [symbols, List.cons_append, Derivation.after_cons rfl, Derivation.after_append hinner,
      Derivation.after_cons rfl, hp]
    rfl
  | plain p ih => exact ih
  | neg p ih =>
    intro outer pending n
    rw [symbols, Derivation.after_cons rfl, ih, negated_succ]
  | conjunct p ih =>
    intro outer disjunction?
    exact ⟨none, p, ih outer _ 0, rfl⟩
  | conj p q ihp ihq =>
    intro outer disjunction?
    obtain ⟨conjunction?, last, hafter, hp⟩ := ihp outer disjunction?
    refine ⟨some p, q, ?_, rfl⟩
    rw [symbols, Derivation.after_append hafter, Derivation.after_cons rfl, Pending.andThen, hp]
    exact ihq outer _ 0
  | disjunct p ih =>
    intro outer
    obtain ⟨conjunction?, last, hafter, hp⟩ := ih outer none
    exact ⟨_, last, hafter, congrArg Phrase.disjunct hp⟩
  | disj p q ihp ihq =>
    intro outer
    obtain ⟨pending, last, hafter, hp⟩ := ihp outer
    obtain ⟨conjunction?, last', hafter', hq⟩ := ihq outer (some p)
    refine ⟨⟨some p, conjunction?⟩, last', ?_, congrArg p.disj hq⟩
    rw [symbols, Derivation.after_append hafter, Derivation.after_cons rfl, Pending.orThen, hp]
    exact hafter'

/-- A sentence has one derivation. -/
theorem Phrase.eq_of_symbols_eq {p q : Phrase .disjunction} (h : p.symbols = q.symbols) :
    p = q := by
  obtain ⟨pending, last, hafter, hp⟩ := p.found []
  obtain ⟨pending', last', hafter', hq⟩ := q.found []
  rw [h, hafter'] at hafter
  cases hafter
  rw [← hp, ← hq]

end GuardedMachines.Condition
