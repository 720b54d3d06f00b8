import GuardedMachines.Condition.Parse
import GuardedMachines.Proofs.Condition.Steps
import GuardedMachines.Proofs.Grouping

/-!
Reading a phrase. From a place where a phrase may begin, and where the limit on
the nesting leaves room for it, the reader takes all of its symbols. It comes
out with the same parentheses open and with the operands of the phrase added to
those it had, and the formula it has built has the value of the phrase. Without
room it stops within the phrase and says so.
-/

namespace GuardedMachines.Condition

namespace Phrase

variable {k : Rank}

/-- The operands that a reader has collected after the phrase, and the last one of them. -/
def reading (ν : String → Variable) {k : Rank} : Phrase k → Operands × Formula
  | name n => (.none, .atom (ν n))
  | group p => (.none, (p.reading ν).1.disjunction (p.reading ν).2)
  | plain p => p.reading ν
  | neg p => (.none, .neg (p.reading ν).2)
  | conjunct p => p.reading ν
  | conj p q => ((p.reading ν).1.andThen (p.reading ν).2, (q.reading ν).2)
  | disjunct p => p.reading ν
  | disj p q =>
    (⟨((p.reading ν).1.orThen (p.reading ν).2).disjuncts, (q.reading ν).1.conjuncts⟩,
      (q.reading ν).2)

def formula (ν : String → Variable) (p : Phrase k) : Formula :=
  (p.reading ν).1.disjunction (p.reading ν).2

/-- Only chains have operands before the last one, and only disjunctions have disjuncts. -/
theorem reading_operands (ν : String → Variable) (p : Phrase k) :
    (k = .atom ∨ k = .unary → (p.reading ν).1 = .none) ∧
      (k ≠ .disjunction → (p.reading ν).1.disjuncts = []) := by
  induction p with
  | name n => exact ⟨fun _ => rfl, fun _ => rfl⟩
  | group p ih => exact ⟨fun _ => rfl, fun _ => rfl⟩
  | plain p ih => exact ⟨fun _ => ih.1 (Or.inl rfl), fun _ => ih.2 nofun⟩
  | neg p ih => exact ⟨fun _ => rfl, fun _ => rfl⟩
  | conjunct p ih => exact ⟨nofun, fun _ => ih.2 nofun⟩
  | conj p q ihp ihq => exact ⟨nofun, fun _ => ihp.2 nofun⟩
  | disjunct p ih => exact ⟨nofun, fun h => absurd rfl h⟩
  | disj p q ihp ihq => exact ⟨nofun, fun h => absurd rfl h⟩

@[simp] theorem reading_unary (ν : String → Variable) (p : Phrase .unary) :
    (p.reading ν).1 = .none :=
  (p.reading_operands ν).1 (Or.inr rfl)

@[simp] theorem reading_conjunction (ν : String → Variable) (p : Phrase .conjunction) :
    (p.reading ν).1.disjuncts = [] :=
  (p.reading_operands ν).2 nofun

variable (ν : String → Variable)

theorem formula_unary (p : Phrase .unary) : p.formula ν = (p.reading ν).2 := by
  rw [formula, reading_unary]
  rfl

theorem formula_conjunction (p : Phrase .conjunction) :
    p.formula ν = (p.reading ν).1.disjunct (p.reading ν).2 := by
  rw [formula, Operands.disjunction, reading_conjunction]
  rfl

/-- One more conjunct in a chain is a conjunction, up to the grouping of the chain. -/
theorem formula_conj (p : Phrase .conjunction) (q : Phrase .unary) :
    ((p.conj q).formula ν).Regrouped ((p.formula ν).conj (q.formula ν)) := by
  rw [formula_conjunction, formula_conjunction, formula_unary]
  show Formula.Regrouped (balanced .conj (_ :: _).reverse _) _
  rw [List.reverse_cons]
  exact Formula.regrouped_balanced_conj _ _ _

/-- One more disjunct in a chain is a disjunction, up to the grouping of the chain. -/
theorem formula_disj (p : Phrase .disjunction) (q : Phrase .conjunction) :
    ((p.disj q).formula ν).Regrouped ((p.formula ν).disj (q.formula ν)) := by
  rw [q.formula_conjunction]
  show Formula.Regrouped (balanced .disj (_ :: _).reverse _) _
  rw [List.reverse_cons]
  exact Formula.regrouped_balanced_disj _ _ _

theorem formula_neg (p : Phrase .unary) : p.neg.formula ν = (p.formula ν).neg := by
  rw [formula_unary, formula_unary]
  rfl

/-- The formula of a phrase has the value of the phrase. -/
theorem holds_formula (p : Phrase k) (a : VarId → Bool) :
    (p.formula ν).holds a = p.holds fun name => a (ν name).id := by
  induction p with
  | name n => rfl
  | group p ih => exact ih
  | plain p ih => exact ih
  | neg p ih => rw [formula_neg, Formula.holds, ih, holds]
  | conjunct p ih => exact ih
  | conj p q ihp ihq => rw [(p.formula_conj ν q).holds_eq, Formula.holds, ihp, ihq, holds]
  | disjunct p ih => exact ih
  | disj p q ihp ihq => rw [(p.formula_disj ν q).holds_eq, Formula.holds, ihp, ihq, holds]

/-- The formula of a phrase mentions the names of the phrase in their order. -/
theorem atoms_formula (p : Phrase k) : (p.formula ν).atoms = (names p.symbols).map ν := by
  induction p with
  | name n => rfl
  | group p ih =>
    rw [p.names_group]
    exact ih
  | plain p ih => exact ih
  | neg p ih =>
    rw [formula_neg]
    exact ih
  | conjunct p ih => exact ih
  | conj p q ihp ihq =>
    rw [(p.formula_conj ν q).atoms_eq, Formula.atoms, ihp, ihq, p.names_conj q, List.map_append]
  | disjunct p ih => exact ih
  | disj p q ihp ihq =>
    rw [(p.formula_disj ν q).atoms_eq, Formula.atoms, ihp, ihq, p.names_disj q, List.map_append]

end Phrase

theorem negated_succ (negations : Nat) (f : Formula) :
    negated (negations + 1) f = negated negations f.neg :=
  repeat_succ_apply Formula.neg negations f

def Operands.followedBy (operands more : Operands) : Operands :=
  ⟨more.disjuncts ++ operands.disjuncts, more.conjuncts ++ operands.conjuncts⟩

@[simp] theorem Operands.none_followedBy (more : Operands) :
    Operands.none.followedBy more = more := by
  simp [followedBy, none]

structure Named (table : VariableTable) (ν : String → Variable) (names : List String) : Prop where
  admits : ∀ name ∈ names, table.AdmitsBoolean name
  known : ∀ name ∈ names, (table.declare names).get? name = some (ν name)

namespace Named

variable {table : VariableTable} {ν : String → Variable} {names names' : List String}

theorem of_admits (h : ∀ name ∈ names, table.AdmitsBoolean name) :
    Named table (table.declare names).naming names :=
  ⟨h, fun _ hname => VariableTable.get?_declare_naming hname⟩

theorem left (h : Named table ν (names ++ names')) : Named table ν names where
  admits name hname := h.admits name (List.mem_append_left names' hname)
  known name hname :=
    VariableTable.get?_declare_of_append hname (h.known name (List.mem_append_left names' hname))

theorem right (h : Named table ν (names ++ names')) : Named (table.declare names) ν names' where
  admits name hname :=
    (VariableTable.admitsBoolean_declare names).mpr
      (h.admits name (List.mem_append_right names hname))
  known name hname := by
    rw [← VariableTable.declare_append]
    exact h.known name (List.mem_append_right names hname)

end Named

namespace Reader

/-- Where a phrase may begin: negations wait in front of unary phrases only, and a disjunction
begins where its first conjunction does. -/
def Begins (k : Rank) (operands : Operands) (negations : Nat) : Prop :=
  k.MayFollow negations ∧ (k = .disjunction → operands.conjuncts = [])

section Begins

variable (operands : Operands) (negations : Nat)

theorem begins_atom : Begins .atom operands negations :=
  ⟨trivial, fun h => by cases h⟩

theorem begins_unary : Begins .unary operands negations :=
  ⟨trivial, fun h => by cases h⟩

theorem begins_conjunction : Begins .conjunction operands 0 :=
  ⟨rfl, fun h => by cases h⟩

end Begins

/-- The reader takes a phrase that it has room for. -/
theorem run_phrase (ν : String → Variable) {k : Rank} (p : Phrase k) {table : VariableTable}
    {frames : List Frame} {operands : Operands} {negations : Nat} {tokens : List Token}
    (hbegins : Begins k operands negations) (hnamed : Named table ν (names p.symbols))
    (hroom : depth ⟨table, frames, operands, .beforeOperand negations⟩ + p.nesting ≤ maxNesting)
    (htokens : tokens.map Token.symbol = p.symbols) :
    run ⟨table, frames, operands, .beforeOperand negations⟩ tokens =
      (⟨table.declare (names p.symbols), frames, operands.followedBy (p.reading ν).1,
        .afterOperand (negated negations (p.reading ν).2)⟩, none) := by
  induction p generalizing table frames operands negations tokens with
  | name n =>
    obtain ⟨t, rfl, ht⟩ := List.map_eq_singleton_iff.mp htokens
    have hadmits : table.AdmitsBoolean n := hnamed.admits n List.mem_cons_self
    have hknown : (table.getOrBoolean n).2.get? n = some (ν n) :=
      hnamed.known n List.mem_cons_self
    rw [VariableTable.get?_getOrBoolean, if_pos rfl, Option.some.injEq] at hknown
    rw [run_of_takes (.name ht hadmits), hknown]
    rfl
  | group p ih =>
    obtain ⟨t, rest, rfl, ht, hrest⟩ := List.map_eq_cons_iff.mp htokens
    obtain ⟨inner, last, rfl, hinner, hlast⟩ := List.map_eq_append_iff.mp hrest
    obtain ⟨t', rfl, ht'⟩ := List.map_eq_singleton_iff.mp hlast
    have hdepth := depth_parenthesis table frames operands negations t.span
    rw [Phrase.nesting] at hroom
    rw [p.names_group] at hnamed ⊢
    have hinside : depth ⟨table, ⟨t.span, operands, negations⟩ :: frames, .none,
        .beforeOperand 0⟩ + p.nesting ≤ maxNesting := by
      omega
    have hgroup := ih ⟨rfl, fun _ => rfl⟩ hnamed hinside hinner
    rw [run_of_takes (.opening ht (by omega)), run_append hgroup, run_of_takes (.closing ht'),
      Operands.none_followedBy]
    rfl
  | plain p ih => exact ih (begins_atom _ _) hnamed hroom htokens
  | neg p ih =>
    obtain ⟨t, rest, rfl, ht, hrest⟩ := List.map_eq_cons_iff.mp htokens
    have hhere := depth_before table frames operands negations
    have hnext := depth_before table frames operands (negations + 1)
    rw [Phrase.nesting] at hroom
    have hinside : depth ⟨table, frames, operands, .beforeOperand (negations + 1)⟩ + p.nesting ≤
        maxNesting := by
      omega
    have hinner := ih (begins_unary _ _) hnamed hinside hrest
    rw [run_of_takes (.neg ht (by omega)), hinner, p.reading_unary ν, negated_succ]
    rfl
  | conjunct p ih => exact ih (begins_unary _ _) hnamed hroom htokens
  | conj p q ihp ihq =>
    obtain ⟨left, rest, rfl, hleft, hrest⟩ := List.map_eq_append_iff.mp htokens
    obtain ⟨t, right, rfl, ht, hright⟩ := List.map_eq_cons_iff.mp hrest
    obtain rfl : negations = 0 := hbegins.1
    rw [p.names_conj q] at hnamed ⊢
    rw [Phrase.nesting] at hroom
    have hroomp : depth ⟨table, frames, operands, .beforeOperand 0⟩ + p.nesting ≤ maxNesting := by
      omega
    have hroomq : depth ⟨table.declare (names p.symbols), frames,
        (operands.followedBy (p.reading ν).1).andThen (p.reading ν).2, .beforeOperand 0⟩ +
          q.nesting ≤ maxNesting := by
      show depth ⟨table, frames, operands, .beforeOperand 0⟩ + q.nesting ≤ maxNesting
      omega
    have hp := ihp (begins_conjunction _) hnamed.left hroomp hleft
    have hq := ihq (begins_unary _ _) hnamed.right hroomq hright
    rw [run_append hp, run_of_takes (.conj ht)]
    refine hq.trans ?_
    rw [VariableTable.declare_append, q.reading_unary ν]
    rfl
  | disjunct p ih =>
    obtain rfl : negations = 0 := hbegins.1
    exact ih (begins_conjunction _) hnamed hroom htokens
  | disj p q ihp ihq =>
    obtain ⟨left, rest, rfl, hleft, hrest⟩ := List.map_eq_append_iff.mp htokens
    obtain ⟨t, right, rfl, ht, hright⟩ := List.map_eq_cons_iff.mp hrest
    obtain rfl : negations = 0 := hbegins.1
    have hconjuncts := hbegins.2 rfl
    rw [p.names_disj q] at hnamed ⊢
    rw [Phrase.nesting] at hroom
    have hroomp : depth ⟨table, frames, operands, .beforeOperand 0⟩ + p.nesting ≤ maxNesting := by
      omega
    have hroomq : depth ⟨table.declare (names p.symbols), frames,
        (operands.followedBy (p.reading ν).1).orThen (p.reading ν).2, .beforeOperand 0⟩ +
          q.nesting ≤ maxNesting := by
      show depth ⟨table, frames, operands, .beforeOperand 0⟩ + q.nesting ≤ maxNesting
      omega
    have hp := ihp ⟨rfl, hbegins.2⟩ hnamed.left hroomp hleft
    have hq := ihq (begins_conjunction _) hnamed.right hroomq hright
    rw [run_append hp, run_of_takes (.disj ht)]
    refine hq.trans ?_
    rw [VariableTable.declare_append]
    simp [Operands.followedBy, Operands.orThen, Operands.disjunct, Phrase.reading, hconjuncts,
      negated]

theorem step_full {r : Reader} {t : Token} {negations : Nat}
    (hphase : r.phase = .beforeOperand negations) (ht : t.symbol = .neg ∨ t.symbol = .opening)
    (hfull : ¬ r.depth < maxNesting) : r.step t = .error (.tooDeep maxNesting t.span) := by
  rcases ht with ht | ht <;> simp only [step, hphase, ht, if_neg hfull]

theorem run_refused {r : Reader} {t : Token} {e : ConditionError} (h : r.step t = .error e)
    (tokens : List Token) : r.run (t :: tokens) = (r, some e) := by
  rw [run, h]

/-- The reader stops within a phrase that it has no room for. -/
theorem run_tooDeep {k : Rank} (p : Phrase k) {table : VariableTable} {frames : List Frame}
    {operands : Operands} {negations : Nat} {tokens : List Token}
    (hbegins : Begins k operands negations)
    (hadmits : ∀ name ∈ names p.symbols, table.AdmitsBoolean name)
    (hdepth : depth ⟨table, frames, operands, .beforeOperand negations⟩ ≤ maxNesting)
    (hdeep : maxNesting <
      depth ⟨table, frames, operands, .beforeOperand negations⟩ + p.nesting)
    (htokens : tokens.map Token.symbol = p.symbols) :
    ∃ r span, run ⟨table, frames, operands, .beforeOperand negations⟩ tokens =
      (r, some (.tooDeep maxNesting span)) := by
  induction p generalizing table frames operands negations tokens with
  | name n =>
    rw [Phrase.nesting] at hdeep
    omega
  | group p ih =>
    obtain ⟨t, rest, rfl, ht, hrest⟩ := List.map_eq_cons_iff.mp htokens
    obtain ⟨inner, last, rfl, hinner, hlast⟩ := List.map_eq_append_iff.mp hrest
    have hnext := depth_parenthesis table frames operands negations t.span
    rw [Phrase.nesting] at hdeep
    rw [p.names_group] at hadmits
    by_cases hroom : depth ⟨table, frames, operands, .beforeOperand negations⟩ < maxNesting
    · have hdepth' : depth ⟨table, ⟨t.span, operands, negations⟩ :: frames, .none,
          .beforeOperand 0⟩ ≤ maxNesting := by
        omega
      obtain ⟨r, span, hrun⟩ := ih ⟨rfl, fun _ => rfl⟩ hadmits hdepth' (by omega) hinner
      refine ⟨r, span, ?_⟩
      rw [run_of_takes (.opening ht hroom), run_append_refused hrun]
    · exact ⟨_, t.span, run_refused (step_full rfl (Or.inr ht) hroom) _⟩
  | plain p ih => exact ih (begins_atom _ _) hadmits hdepth hdeep htokens
  | neg p ih =>
    obtain ⟨t, rest, rfl, ht, hrest⟩ := List.map_eq_cons_iff.mp htokens
    have hhere := depth_before table frames operands negations
    have hnext := depth_before table frames operands (negations + 1)
    rw [Phrase.nesting] at hdeep
    by_cases hroom : depth ⟨table, frames, operands, .beforeOperand negations⟩ < maxNesting
    · have hdepth' : depth ⟨table, frames, operands, .beforeOperand (negations + 1)⟩ ≤
          maxNesting := by
        omega
      obtain ⟨r, span, hrun⟩ := ih (begins_unary _ _) hadmits hdepth' (by omega) hrest
      refine ⟨r, span, ?_⟩
      rw [run_of_takes (.neg ht hroom), hrun]
    · exact ⟨_, t.span, run_refused (step_full rfl (Or.inl ht) hroom) _⟩
  | conjunct p ih => exact ih (begins_unary _ _) hadmits hdepth hdeep htokens
  | conj p q ihp ihq =>
    obtain ⟨left, rest, rfl, hleft, hrest⟩ := List.map_eq_append_iff.mp htokens
    obtain ⟨t, right, rfl, ht, hright⟩ := List.map_eq_cons_iff.mp hrest
    obtain rfl : negations = 0 := hbegins.1
    rw [Phrase.nesting] at hdeep
    rw [p.names_conj q] at hadmits
    have hnamed := Named.of_admits hadmits
    by_cases hroom : depth ⟨table, frames, operands, .beforeOperand 0⟩ + p.nesting ≤ maxNesting
    · obtain ⟨operands', f, hp⟩ : ∃ operands' f,
          run ⟨table, frames, operands, .beforeOperand 0⟩ left =
            (⟨table.declare (names p.symbols), frames, operands', .afterOperand f⟩, none) :=
        ⟨_, _, run_phrase _ p (begins_conjunction _) hnamed.left hroom hleft⟩
      have hdeep' : maxNesting < depth ⟨table.declare (names p.symbols), frames,
          operands'.andThen f, .beforeOperand 0⟩ + q.nesting := by
        show maxNesting < depth ⟨table, frames, operands, .beforeOperand 0⟩ + q.nesting
        omega
      obtain ⟨r, span, hrun⟩ := ihq (begins_unary _ _) hnamed.right.admits hdepth hdeep' hright
      refine ⟨r, span, ?_⟩
      rw [run_append hp, run_of_takes (.conj ht), hrun]
    · obtain ⟨r, span, hrun⟩ :=
        ihp (begins_conjunction _) hnamed.left.admits hdepth (by omega) hleft
      exact ⟨r, span, run_append_refused hrun _⟩
  | disjunct p ih =>
    obtain rfl : negations = 0 := hbegins.1
    exact ih (begins_conjunction _) hadmits hdepth hdeep htokens
  | disj p q ihp ihq =>
    obtain ⟨left, rest, rfl, hleft, hrest⟩ := List.map_eq_append_iff.mp htokens
    obtain ⟨t, right, rfl, ht, hright⟩ := List.map_eq_cons_iff.mp hrest
    obtain rfl : negations = 0 := hbegins.1
    rw [Phrase.nesting] at hdeep
    rw [p.names_disj q] at hadmits
    have hnamed := Named.of_admits hadmits
    by_cases hroom : depth ⟨table, frames, operands, .beforeOperand 0⟩ + p.nesting ≤ maxNesting
    · obtain ⟨operands', f, hp⟩ : ∃ operands' f,
          run ⟨table, frames, operands, .beforeOperand 0⟩ left =
            (⟨table.declare (names p.symbols), frames, operands', .afterOperand f⟩, none) :=
        ⟨_, _, run_phrase _ p ⟨rfl, hbegins.2⟩ hnamed.left hroom hleft⟩
      have hdeep' : maxNesting < depth ⟨table.declare (names p.symbols), frames,
          operands'.orThen f, .beforeOperand 0⟩ + q.nesting := by
        show maxNesting < depth ⟨table, frames, operands, .beforeOperand 0⟩ + q.nesting
        omega
      obtain ⟨r, span, hrun⟩ := ihq (begins_conjunction _) hnamed.right.admits hdepth hdeep' hright
      refine ⟨r, span, ?_⟩
      rw [run_append hp, run_of_takes (.disj ht), hrun]
    · obtain ⟨r, span, hrun⟩ := ihp ⟨rfl, hbegins.2⟩ hnamed.left.admits hdepth (by omega) hleft
      exact ⟨r, span, run_append_refused hrun _⟩

end Reader

end GuardedMachines.Condition
