import GuardedMachines.Proofs.Diagram.GreedyPath
import GuardedMachines.Proofs.PairGuard

/-!
Witnesses are canonical. A witness gives the variables of its clauses, by
identifier, the values of the greedy assignment of their function, whatever the
store in which it was found. Clauses that say the same about the same variables
therefore have the same witness and the same number of models, however they are
written and under whatever bounds they are asked about.
-/

namespace GuardedMachines

def Witness.choices (w : Witness) : List (VarId × Bool) :=
  w.literals.map fun l => (l.var.id, l.positive)

/-- What a verdict says, up to the names and the domains of the variables. -/
def Verdict.choices? : Verdict → Option (List (VarId × Bool))
  | satisfiable w => some w.choices
  | unsatisfiable => none

theorem Verdict.exists_witness {result : Except Exhaustion Verdict} {choices : List (VarId × Bool)}
    (h : result.map choices? = .ok (some choices)) :
    ∃ w, result = .ok (.satisfiable w) ∧ w.choices = choices := by
  rcases result with _ | w | _
  · cases h
  · exact ⟨w, rfl, Option.some.inj (Except.ok.inj h)⟩
  · cases h

theorem Witness.eq_of_choices {w w' : Witness}
    (hvars : w.literals.map Literal.var = w'.literals.map Literal.var)
    (hchoices : w.choices = w'.choices) : w = w' := by
  obtain ⟨literals⟩ := w
  obtain ⟨literals'⟩ := w'
  congr 1
  induction literals generalizing literals' with
  | nil => exact (List.map_eq_nil_iff.mp hvars.symm).symm
  | cons l literals ih => cases literals' with
    | nil => exact absurd hvars (List.cons_ne_nil _ _)
    | cons l' literals' =>
      obtain ⟨hvar, hrest⟩ := List.cons.inj hvars
      obtain ⟨hchoice, hrest'⟩ := List.cons.inj hchoices
      obtain ⟨v, b⟩ := l
      obtain ⟨v', b'⟩ := l'
      have hv : v = v' := hvar
      have hb : b = b' := (Prod.mk.inj hchoice).2
      rw [hv, hb, ih literals' hrest hrest']

namespace Cnf

theorem holds_congr {a b : VarId → Bool} {cnf : Cnf} (h : ∀ id ∈ idSet cnf.vars, a id = b id) :
    cnf.holds a = cnf.holds b := by
  have hliteral : ∀ c ∈ cnf.clauses, ∀ l ∈ c.literals, l.holds a = l.holds b := by
    intro c hc l hl
    unfold Literal.holds
    rw [h _ (mem_idSet_vars.mpr ⟨c, hc, l, hl, rfl⟩)]
  unfold holds Clause.holds
  rw [Bool.eq_iff_iff, List.all_eq_true, List.all_eq_true]
  refine forall₂_congr fun c hc => ?_
  rw [List.any_eq_true, List.any_eq_true]
  exact exists_congr fun l => and_congr_right fun hl => by rw [hliteral c hc l hl]

/-- Every assignment agrees on the listed variables with that of a valuation. -/
theorem exists_valuation (cnf : Cnf) (a : VarId → Bool) :
    ∃ valuation : Valuation, ∀ id ∈ idSet cnf.vars, valuation.assignment id = a id := by
  let literals := cnf.vars.map fun v => (⟨v, a v.id⟩ : Literal)
  have hids : (literals.map fun l => l.var.id) = cnf.vars.map Variable.id := by
    simp [literals]
  refine ⟨.ofLiterals literals, fun id hid => ?_⟩
  obtain ⟨v, hv, rfl⟩ := mem_idSet.mp hid
  have hnodup : (literals.map fun l => l.var.id).Nodup := hids ▸ cnf.sorted_vars.nodup_ids
  exact Valuation.assignment_ofLiterals hnodup (List.mem_map_of_mem hv)

/-- Clauses of the same variables that no valuation tells apart have the same function. -/
theorem holds_eq_of_eval_eq {cnf cnf' : Cnf} (hvars : idSet cnf.vars = idSet cnf'.vars)
    (heval : ∀ valuation, cnf.eval valuation = cnf'.eval valuation) :
    (fun a => cnf.holds a) = fun a => cnf'.holds a := by
  funext a
  obtain ⟨valuation, hagree⟩ := cnf.exists_valuation a
  calc cnf.holds a = cnf.eval valuation := (holds_congr hagree).symm
    _ = cnf'.eval valuation := heval valuation
    _ = cnf'.holds a := holds_congr (hvars ▸ hagree)

end Cnf

namespace DiagramOracle

open Diagram Diagram.Store

theorem Compiled.Represents.choices_witness {c : Compiled} {cnf : Cnf} (hrep : c.Represents cnf)
    (hcnf : cnf.vars.length < 2147483648) {path : List Decision}
    (hpath : c.store.path? c.root = some path) :
    (witness cnf.vars (path.map Decision.literal)).choices =
      ((List.range' 1 cnf.vars.length).map fun p => (p, pathAssignment path p)).map
        fun choice => (idAt cnf.vars choice.1, choice.2) := by
  rw [Witness.choices, hrep.witness_literals hcnf hpath]
  apply List.ext_getElem?
  intro i
  cases hi : cnf.vars[i]? with
  | none =>
    have hle := List.getElem?_eq_none_iff.mp hi
    simp [hle]
  | some v =>
    obtain ⟨hlt, rfl⟩ := List.getElem?_eq_some_iff.mp hi
    simp [hlt, Nat.add_comm 1 i, idAt_succ hi]

/-- The witness makes the greedy choices for the function of the clauses. -/
theorem Compiled.Represents.greedy_witness {c : Compiled} {cnf : Cnf} (hrep : c.Represents cnf)
    (hcnf : cnf.vars.length < 2147483648) {path : List Decision}
    (hpath : c.store.path? c.root = some path) :
    Greedy (fun a => cnf.holds a) (witness cnf.vars (path.map Decision.literal)).choices := by
  rw [hrep.choices_witness hcnf hpath]
  unfold path? at hpath
  split at hpath
  · cases hpath
  · next hzero =>
    cases hpath
    have hfirst : ∀ var < 1, c.store.After var c.root := by
      intro var hvar
      by_cases ht : c.root.isTerminal
      · exact Or.inl ht
      · have hroot := hrep.ordered.var_mem_of_has hrep.has_root ht
        exact Or.inr (Nat.lt_of_lt_of_le hvar (Finset.mem_Icc.mp hroot).1)
    have hpositions := hrep.ordered.greedy_pathWithin hrep.valid hrep.has_root hzero
      (Nat.le_succ _) 1 cnf.vars.length hfirst
    have hrenamed : Renamed (Finset.Icc 1 cnf.vars.length) (idAt cnf.vars)
        (fun ρ => c.store.value ρ c.root) (fun a => cnf.holds a) := by
      intro ρ a hagree
      apply hrep.value
      intro i v hv
      have hlt := (List.getElem?_eq_some_iff.mp hv).1
      rw [hagree (i + 1) (Finset.mem_Icc.mpr ⟨by omega, by omega⟩), idAt_succ hv]
    apply hrenamed.greedy (idAt_injOn cnf.sorted_vars.nodup_ids) _ hpositions
    intro choice hchoice
    obtain ⟨p, hp, rfl⟩ := List.mem_map.mp hchoice
    have := List.mem_range'_1.mp hp
    exact Finset.mem_Icc.mpr ⟨by omega, by omega⟩

section

variable {limits : Limits} (hlimit : limits.nodeLimit ≤ 2147483648) {clock : Clock} {cnf : Cnf}
  (hcnf : cnf.vars.length < 2147483648)

include hlimit hcnf

theorem solve_greedy {w : Witness} (h : (solve limits clock cnf).result = .ok (.satisfiable w)) :
    Greedy (fun a => cnf.holds a) w.choices := by
  obtain ⟨c, hrep, hverdict⟩ := exists_represents_of_solve hlimit hcnf h
  unfold Compiled.verdict at hverdict
  split at hverdict
  · cases hverdict
  · next path hpath =>
    cases hverdict
    rw [hrep.vars_eq]
    exact hrep.greedy_witness hcnf hpath

theorem map_fst_choices {w : Witness}
    (h : (solve limits clock cnf).result = .ok (.satisfiable w)) :
    w.choices.map Prod.fst = cnf.vars.map Variable.id := by
  rw [← (solve_satisfiable hlimit hcnf h).1, Witness.choices, List.map_map, List.map_map]
  rfl

variable {limits' : Limits} (hlimit' : limits'.nodeLimit ≤ 2147483648) {clock' : Clock} {cnf' : Cnf}
  (hcnf' : cnf'.vars.length < 2147483648)

include hlimit' hcnf'

/-- Verdicts about clauses with the same variables and the same function say the same. -/
theorem choices?_eq_of_solve (hvars : idSet cnf.vars = idSet cnf'.vars)
    (hholds : (fun a => cnf.holds a) = fun a => cnf'.holds a) {v v' : Verdict}
    (h : (solve limits clock cnf).result = .ok v)
    (h' : (solve limits' clock' cnf').result = .ok v') : v.choices? = v'.choices? := by
  cases v with
  | satisfiable w =>
    cases v' with
    | satisfiable w' =>
      have hgreedy := solve_greedy hlimit hcnf h
      rw [hholds] at hgreedy
      have hlisted := cnf.sorted_vars.map_id_eq cnf'.sorted_vars hvars
      rw [← map_fst_choices hlimit hcnf h, ← map_fst_choices hlimit' hcnf' h'] at hlisted
      exact congrArg some (hgreedy.unique (solve_greedy hlimit' hcnf' h') hlisted)
    | unsatisfiable =>
      have htrue := (solve_satisfiable hlimit hcnf h).2
      rw [congrFun hholds, solve_unsatisfiable hlimit' hcnf' h'] at htrue
      cases htrue
  | unsatisfiable =>
    cases v' with
    | satisfiable w' =>
      have htrue := (solve_satisfiable hlimit' hcnf' h').2
      rw [← congrFun hholds, solve_unsatisfiable hlimit hcnf h] at htrue
      cases htrue
    | unsatisfiable => rfl

theorem eq_of_choices?_eq (hvars : cnf.vars = cnf'.vars) {v v' : Verdict}
    (h : (solve limits clock cnf).result = .ok v)
    (h' : (solve limits' clock' cnf').result = .ok v') (hchoices : v.choices? = v'.choices?) :
    v = v' := by
  cases v with
  | satisfiable w =>
    cases v' with
    | satisfiable w' =>
      have hlisted : w.literals.map Literal.var = w'.literals.map Literal.var := by
        rw [(solve_satisfiable hlimit hcnf h).1, (solve_satisfiable hlimit' hcnf' h').1, hvars]
      rw [w.eq_of_choices hlisted (Option.some.inj hchoices)]
    | unsatisfiable => cases hchoices
  | unsatisfiable =>
    cases v' with
    | satisfiable => cases hchoices
    | unsatisfiable => rfl

end

end DiagramOracle

/-- A witness lists the variables of the clauses by identifier and makes the greedy choices for
them: a variable is true exactly if the function that the choices before it leave depends on it
and can be satisfied with it true. Hence clauses with the same variables and the same values
under all valuations have the same verdict, the same witness and the same number of models,
wherever both queries succeed and whatever bounds and clock each of them has, as long as the
indices of nodes and the positions of variables keep their value as words. -/
theorem witness_greedy_and_canonical (limits : Limits) (hlimit : limits.nodeLimit ≤ 2147483648)
    (clock : Diagram.Clock) (cnf : Cnf) (hcnf : cnf.vars.length < 2147483648) :
    (∀ w, ((Oracle.diagram limits clock).solve cnf).result = .ok (.satisfiable w) →
      w.literals.map Literal.var = cnf.vars ∧
      (cnf.vars.map fun v => v.id.number).Pairwise (· < ·) ∧
      (∀ id, id ∈ idSet cnf.vars ↔ ∃ c ∈ cnf.clauses, ∃ l ∈ c.literals, l.var.id = id) ∧
      Greedy (fun a => cnf.holds a) w.choices) ∧
    ∀ limits' clock' cnf', limits'.nodeLimit ≤ 2147483648 → idSet cnf.vars = idSet cnf'.vars →
      (∀ valuation, Cnf.eval cnf valuation = Cnf.eval cnf' valuation) →
        (∀ v v', ((Oracle.diagram limits clock).solve cnf).result = .ok v →
          ((Oracle.diagram limits' clock').solve cnf').result = .ok v' →
            v.choices? = v'.choices? ∧ (cnf.vars = cnf'.vars → v = v')) ∧
        ∀ n n', ((Oracle.diagram limits clock).countModels cnf).result = .ok n →
          ((Oracle.diagram limits' clock').countModels cnf').result = .ok n' → n = n' := by
  constructor
  · intro w h
    have hsorted := List.pairwise_map.mp cnf.sorted_vars.pairwise_number
    exact ⟨(DiagramOracle.solve_satisfiable hlimit hcnf h).1, List.pairwise_map.mpr hsorted,
      fun id => Cnf.mem_idSet_vars, DiagramOracle.solve_greedy hlimit hcnf h⟩
  · intro limits' clock' cnf' hlimit' hvars heval
    have hcnf' : cnf'.vars.length < 2147483648 := by
      have hlisted := cnf.sorted_vars.map_id_eq cnf'.sorted_vars hvars
      have hlength := congrArg List.length hlisted
      rw [List.length_map, List.length_map] at hlength
      omega
    have hholds := Cnf.holds_eq_of_eval_eq hvars heval
    constructor
    · intro v v' h h'
      have hchoices :=
        DiagramOracle.choices?_eq_of_solve hlimit hcnf hlimit' hcnf' hvars hholds h h'
      refine ⟨hchoices, fun hlisted => ?_⟩
      exact DiagramOracle.eq_of_choices?_eq hlimit hcnf hlimit' hcnf' hlisted h h' hchoices
    · intro n n' hn hn'
      rw [DiagramOracle.countModels_eq hlimit hcnf hn,
        DiagramOracle.countModels_eq hlimit' hcnf' hn', hvars, hholds]

/-- One list of clauses distinguishes the cases of a variable, the other one mentions it idly. The
function depends on it in neither, so that it is false in the one witness that both have. -/
theorem witness_canonical_on_idle_variable :
    let a : Variable := ⟨⟨1, Nat.one_pos⟩, "A", .boolean⟩
    let b : Variable := ⟨⟨2, Nat.two_pos⟩, "B", .boolean⟩
    let split : Cnf := ⟨[⟨[⟨a, true⟩, ⟨b, true⟩]⟩, ⟨[⟨b, false⟩, ⟨a, true⟩]⟩]⟩
    let idle : Cnf := ⟨[⟨[⟨b, false⟩, ⟨b, true⟩]⟩, ⟨[⟨a, true⟩]⟩, ⟨[⟨a, true⟩]⟩]⟩
    ∃ w, ((Oracle.diagram ⟨none, 10⟩ .stopped).solve split).result = .ok (.satisfiable w) ∧
      ((Oracle.diagram ⟨none, 20⟩ .stopped).solve idle).result = .ok (.satisfiable w) ∧
      w.literals.map Literal.var = [a, b] ∧ w.choices = [(a.id, true), (b.id, false)] ∧
      Greedy (fun assignment => split.holds assignment) w.choices ∧
      ((Oracle.diagram ⟨none, 10⟩ .stopped).countModels split).result = .ok 2 ∧
      ∀ n, ((Oracle.diagram ⟨none, 20⟩ .stopped).countModels idle).result = .ok n → 2 = n := by
  intro a b split idle
  have hwords : split.vars.length < 2147483648 := by decide +kernel
  obtain ⟨hgreedy, hcanonical⟩ :=
    witness_greedy_and_canonical ⟨none, 10⟩ (by decide) .stopped split hwords
  have hvars : split.vars = idle.vars := rfl
  have heval : ∀ valuation, split.eval valuation = idle.eval valuation := by
    intro valuation
    simp only [Cnf.eval, Cnf.holds, Clause.holds, Literal.holds, split, idle, List.all_cons,
      List.all_nil, List.any_cons, List.any_nil]
    cases valuation.assignment a.id <;> cases valuation.assignment b.id <;> rfl
  have hsplit : ((Oracle.diagram ⟨none, 10⟩ .stopped).solve split).result.map Verdict.choices? =
      .ok (some [(a.id, true), (b.id, false)]) := by decide +kernel
  have hidle : ((Oracle.diagram ⟨none, 20⟩ .stopped).solve idle).result.map Verdict.choices? =
      .ok (some [(a.id, true), (b.id, false)]) := by decide +kernel
  have hcount : ((Oracle.diagram ⟨none, 10⟩ .stopped).countModels split).result = .ok 2 := by
    decide +kernel
  obtain ⟨w, hw, hchoices⟩ := Verdict.exists_witness hsplit
  obtain ⟨w', hw', -⟩ := Verdict.exists_witness hidle
  obtain ⟨hlisted, -, -, hchosen⟩ := hgreedy w hw
  obtain ⟨hverdicts, hcounts⟩ :=
    hcanonical ⟨none, 20⟩ .stopped idle (by decide) (congrArg idSet hvars) heval
  obtain ⟨rfl⟩ := Verdict.satisfiable.inj ((hverdicts _ _ hw hw').2 hvars)
  exact ⟨w, hw, hw', hlisted, hchoices, hchosen, hcount, fun n => hcounts 2 n hcount⟩

/-- With room for 2147483650 nodes, clauses that are satisfiable in one order are called
unsatisfiable in another one. -/
theorem verdict_differs_beyond_words :
    let clauses := Cnf.ofFormula (.conj (pairGuard 715827883) (sharedGuard 715827883))
    let clauses' := Cnf.ofFormula (.conj (sharedGuard 715827883) (pairGuard 715827883))
    let oracle := Oracle.diagram ⟨none, 2147483650⟩ .stopped
    idSet clauses.vars = idSet clauses'.vars ∧
      (∀ valuation, clauses.eval valuation = clauses'.eval valuation) ∧
      (oracle.solve clauses).result = .ok .unsatisfiable ∧
      ∃ w, (oracle.solve clauses').result = .ok (.satisfiable w) := by
  have hvars : ∀ p q, idSet (Cnf.ofFormula (.conj p q)).vars =
      idSet (Cnf.ofFormula (.conj q p)).vars := by
    intro p q
    have hids := fun f => Cnf.idSet_vars_ofGuard (some f)
    simp only [Cnf.ofGuard, Guard.ids, Guard.atoms] at hids
    rw [hids, hids, Formula.atoms, Formula.atoms, idSet_append, idSet_append, Finset.union_comm]
  have heval : ∀ p q valuation, (Cnf.ofFormula (.conj p q)).eval valuation =
      (Cnf.ofFormula (.conj q p)).eval valuation := by
    intro p q valuation
    simp only [Cnf.eval, Cnf.ofFormula_holds, Formula.holds, Bool.and_comm]
  refine ⟨hvars _ _, heval _ _, ?_, ?_⟩
  · exact solve_pairGuard_shared .stopped (by decide) (by decide)
  · exact (solve_shared_pairGuard .stopped (by decide) (by decide)).1

end GuardedMachines
