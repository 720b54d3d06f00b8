import GuardedMachines.Proofs.PairGuard

/-!
An oracle is exact if its answers about a guard are those of the truth table of
the guard: a witness assigns the variables of the guard and satisfies it, a
guard is called unsatisfiable only if no assignment satisfies it, and the count
is that of the satisfying assignments. The diagram oracle, whatever its clock, is
exact wherever it answers, as long as the indices of nodes and the positions of
variables keep their value as words.
-/

namespace GuardedMachines

structure Oracle.Exact (oracle : Oracle) : Prop where
  satisfiable : ∀ guard w, (oracle.solve (.ofGuard guard)).result = .ok (.satisfiable w) →
    (w.literals.map fun l => l.var.id) = (Guard.vars guard).map Variable.id ∧
      Guard.eval guard w.valuation = true
  unsatisfiable : ∀ guard, (oracle.solve (.ofGuard guard)).result = .ok .unsatisfiable →
    ∀ a, Guard.holds a guard = false
  count : ∀ guard n, (oracle.countModels (.ofGuard guard)).result = .ok n →
    n = modelCount (Guard.ids guard) fun a => Guard.holds a guard

/-- A guard that holds under some assignment has a model among those of its variables. -/
theorem Guard.one_le_modelCount {guard : Option Formula} {a : VarId → Bool}
    (h : holds a guard = true) : 1 ≤ modelCount (ids guard) fun a => holds a guard := by
  have hsame : holds (trueOn ((ids guard).filter fun id => a id = true)) guard = holds a guard := by
    apply holds_congr
    intro id hid
    simp [trueOn, hid]
  exact modelCount_pos (Finset.filter_subset _ _) (hsame.trans h)

namespace Oracle.Exact

variable {oracle : Oracle} {g h : Option Formula} {w : Witness}

/-- A witness has as many literals as the guard has variables. -/
theorem length_witness (hexact : oracle.Exact)
    (hsat : (oracle.solve (.ofGuard g)).result = .ok (.satisfiable w)) :
    w.literals.length = (Guard.ids g).card := by
  have hlisted := congrArg List.length (hexact.satisfiable g w hsat).1
  rw [List.length_map, List.length_map] at hlisted
  rw [hlisted, ← Guard.idSet_vars, idSet,
    List.toFinset_card_of_nodup (Guard.sorted_vars g).nodup_ids, List.length_map]

theorem eval_of_satisfiable (hexact : oracle.Exact)
    (hsat : (oracle.solve (.ofGuard (Formula.conjunction g h))).result = .ok (.satisfiable w)) :
    Guard.eval g w.valuation = true ∧ Guard.eval h w.valuation = true := by
  have heval := (hexact.satisfiable _ w hsat).2
  rw [Guard.eval_eq_holds, Guard.holds_conjunction, Bool.and_eq_true] at heval
  rwa [Guard.eval_eq_holds, Guard.eval_eq_holds]

theorem not_eval_of_unsatisfiable (hexact : oracle.Exact)
    (hunsat : (oracle.solve (.ofGuard (Formula.conjunction g h))).result = .ok .unsatisfiable)
    (valuation : Valuation) :
    ¬ (Guard.eval g valuation = true ∧ Guard.eval h valuation = true) := by
  have hfalse := hexact.unsatisfiable _ hunsat valuation.assignment
  rw [Guard.holds_conjunction] at hfalse
  rw [Guard.eval_eq_holds, Guard.eval_eq_holds, ← Bool.and_eq_true, hfalse]
  exact Bool.false_ne_true

end Oracle.Exact

theorem Oracle.exists_verdict {oracle : Oracle} {cnf : Cnf} {b : Bool}
    (h : (oracle.isSatisfiable cnf).result = .ok b) :
    ∃ verdict, (oracle.solve cnf).result = .ok verdict ∧ verdict.isSatisfiable = b := by
  obtain ⟨verdict, hsolve, h⟩ := Query.result_bind_eq_ok.mp h
  exact ⟨verdict, hsolve, Except.ok.inj h⟩

/-- The variables of a guard and those of its clauses are listed alike. -/
theorem Cnf.map_id_vars_ofGuard (guard : Option Formula) :
    (ofGuard guard).vars.map Variable.id = (Guard.vars guard).map Variable.id := by
  apply (sorted_vars _).map_id_eq (Guard.sorted_vars guard)
  rw [idSet_vars_ofGuard, Guard.idSet_vars]

theorem Cnf.length_vars_ofGuard (guard : Option Formula) :
    (ofGuard guard).vars.length = (Guard.ids guard).card := by
  rw [← idSet_vars_ofGuard, idSet, List.toFinset_card_of_nodup (sorted_vars _).nodup_ids,
    List.length_map]

/-- A query about clauses, without an answer where the positions of variables do not keep their
value as words. -/
def Query.narrow {α : Type} (cnf : Cnf) (x : Query α) : Query α :=
  if cnf.vars.length < 2147483648 then x else ⟨.error (.nodeLimit 0), []⟩

theorem Query.result_narrow_eq_ok {α : Type} {cnf : Cnf} {x : Query α} {a : α} :
    (x.narrow cnf).result = .ok a ↔ cnf.vars.length < 2147483648 ∧ x.result = .ok a := by
  unfold narrow
  split
  · next hcnf => exact ⟨fun h => ⟨hcnf, h⟩, And.right⟩
  · next hcnf => exact ⟨fun h => (nomatch h), fun h => absurd h.1 hcnf⟩

def Oracle.narrow (oracle : Oracle) : Oracle :=
  ⟨fun cnf => (oracle.solve cnf).narrow cnf, fun cnf => (oracle.countModels cnf).narrow cnf⟩

theorem Oracle.narrow_diagram_exact {limits : Limits} (hlimit : limits.nodeLimit ≤ 2147483648)
    (clock : Diagram.Clock) : (Oracle.diagram limits clock).narrow.Exact where
  satisfiable guard w h := by
    obtain ⟨hcnf, h⟩ := Query.result_narrow_eq_ok.mp h
    obtain ⟨hvars, hholds⟩ := DiagramOracle.solve_satisfiable hlimit hcnf h
    rw [Cnf.ofGuard_holds, ← Guard.eval_eq_holds] at hholds
    rw [← Cnf.map_id_vars_ofGuard, ← hvars, List.map_map]
    exact ⟨rfl, hholds⟩
  unsatisfiable guard h a := by
    obtain ⟨hcnf, h⟩ := Query.result_narrow_eq_ok.mp h
    rw [← Cnf.ofGuard_holds]
    exact DiagramOracle.solve_unsatisfiable hlimit hcnf h a
  count guard n h := by
    obtain ⟨hcnf, h⟩ := Query.result_narrow_eq_ok.mp h
    rw [DiagramOracle.countModels_eq hlimit hcnf h, Cnf.idSet_vars_ofGuard]
    simp only [Cnf.ofGuard_holds]

theorem eq_of_map_id_eq {vars vars' : List Variable}
    (h : vars.map Variable.id = vars'.map Variable.id)
    (hsame : ∀ v ∈ vars, ∀ w ∈ vars', v.id = w.id → v = w) : vars = vars' := by
  induction vars generalizing vars' with
  | nil => exact (List.map_eq_nil_iff.mp h.symm).symm
  | cons v vars ih => cases vars' with
    | nil => exact absurd h (List.cons_ne_nil _ _)
    | cons w vars' =>
      obtain ⟨hid, hrest⟩ := List.cons.inj h
      rw [hsame v List.mem_cons_self w List.mem_cons_self hid, ih hrest fun x hx y hy =>
        hsame x (List.mem_cons_of_mem _ hx) y (List.mem_cons_of_mem _ hy)]

/-- The answers of the diagram oracle are those of the truth table, for every
guard and every clock, as long as the indices of nodes and the positions of
variables keep their value as words. A witness lists the variables of the guard
in increasing order of their identifiers, each once. -/
theorem diagram_agrees_with_truth_table (limits : Limits) (hlimit : limits.nodeLimit ≤ 2147483648)
    (clock : Diagram.Clock) (guard : Option Formula)
    (hguard : (Guard.ids guard).card < 2147483648) :
    let oracle := Oracle.diagram limits clock
    let cnf := Cnf.ofGuard guard
    (∀ w, (oracle.solve cnf).result = .ok (.satisfiable w) →
      (w.literals.map fun l => l.var.id) = (Guard.vars guard).map Variable.id ∧
      (w.literals.map fun l => l.var.id.number).Pairwise (· < ·) ∧
      idSet (w.literals.map Literal.var) = Guard.ids guard ∧
      (Guard.Coherent guard → w.literals.map Literal.var = Guard.vars guard) ∧
      Guard.eval guard w.valuation = true) ∧
    ((oracle.solve cnf).result = .ok .unsatisfiable →
      ∀ valuation, Guard.eval guard valuation = false) ∧
    (∀ n, (oracle.countModels cnf).result = .ok n →
      n = modelCount (Guard.ids guard) (fun a => Guard.holds a guard) ∧
      (guard = none → n = 1)) := by
  intro oracle cnf
  have hcnf : cnf.vars.length < 2147483648 := by rwa [Cnf.length_vars_ofGuard]
  have hexact := Oracle.narrow_diagram_exact hlimit clock
  refine ⟨?_, ?_, ?_⟩
  · intro w hw
    have hvars := (DiagramOracle.solve_satisfiable hlimit hcnf hw).1
    obtain ⟨hlisted, heval⟩ := hexact.satisfiable guard w (Query.result_narrow_eq_ok.mpr ⟨hcnf, hw⟩)
    refine ⟨hlisted, ?_, ?_, ?_, heval⟩
    · have hsorted := cnf.sorted_vars.pairwise_number
      rw [← hvars, List.map_map, List.pairwise_map] at hsorted
      exact List.pairwise_map.mpr hsorted
    · rw [hvars, Cnf.idSet_vars_ofGuard]
    · intro hcoherent
      rw [hvars]
      apply eq_of_map_id_eq (Cnf.map_id_vars_ofGuard guard)
      intro v hv u hu
      exact hcoherent v (Cnf.mem_atoms_of_mem_vars hv) u (Guard.mem_atoms_of_mem_vars hu)
  · intro hunsat valuation
    rw [Guard.eval_eq_holds]
    exact hexact.unsatisfiable guard (Query.result_narrow_eq_ok.mpr ⟨hcnf, hunsat⟩)
      valuation.assignment
  · intro n hn
    have hmodels := hexact.count guard n (Query.result_narrow_eq_ok.mpr ⟨hcnf, hn⟩)
    refine ⟨hmodels, ?_⟩
    rintro rfl
    exact hmodels.trans (modelCount_true ∅)

/-- Of two variables one is true and the other one false in one way; a variable is not true
and false at once. The oracle finds out either with room for ten nodes. -/
theorem diagram_agrees_on_two_variables :
    let a : Variable := ⟨⟨1, Nat.one_pos⟩, "A", .boolean⟩
    let b : Variable := ⟨⟨2, Nat.two_pos⟩, "B", .boolean⟩
    let oracle := Oracle.diagram ⟨none, 10⟩ .stopped
    let mixed := some (Formula.conj (.neg (.atom b)) (.atom a))
    let absurdity := some (Formula.conj (.atom a) (.neg (.atom a)))
    (∃ w, (oracle.solve (.ofGuard mixed)).result = .ok (.satisfiable w) ∧
      w.literals.map Literal.var = Guard.vars mixed ∧ Guard.eval mixed w.valuation = true) ∧
    (oracle.countModels (.ofGuard mixed)).result = .ok 1 ∧
    1 = modelCount (Guard.ids mixed) (fun v => Guard.holds v mixed) ∧
    (oracle.solve (.ofGuard absurdity)).result = .ok .unsatisfiable ∧
    ∀ valuation, Guard.eval absurdity valuation = false := by
  intro a b oracle mixed absurdity
  have hmixed : (oracle.isSatisfiable (.ofGuard mixed)).result = .ok true := by decide +kernel
  have hrefuted : (oracle.isSatisfiable (.ofGuard absurdity)).result = .ok false := by
    decide +kernel
  have hcount : (oracle.countModels (.ofGuard mixed)).result = .ok 1 := by decide +kernel
  have hcoherent : Guard.Coherent mixed := by
    simp [Guard.Coherent, Guard.atoms, Formula.atoms, mixed, a, b]
  obtain ⟨hsat, -, hmodels⟩ :=
    diagram_agrees_with_truth_table ⟨none, 10⟩ (by decide) .stopped mixed (by decide)
  obtain ⟨-, hunsat, -⟩ :=
    diagram_agrees_with_truth_table ⟨none, 10⟩ (by decide) .stopped absurdity (by decide)
  obtain ⟨_ | _, hsolve, hverdict⟩ := Oracle.exists_verdict hmixed
  · obtain ⟨_ | _, hsolve', hverdict'⟩ := Oracle.exists_verdict hrefuted
    · cases hverdict'
    · obtain ⟨-, -, -, hlisted, heval⟩ := hsat _ hsolve
      exact ⟨⟨_, hsolve, hlisted hcoherent, heval⟩, hcount, (hmodels 1 hcount).1, hsolve',
        hunsat hsolve'⟩
  · cases hverdict

/-- With room for 2147483650 nodes, a guard of 715827884 variables is called unsatisfiable although
it holds where one of them is true. -/
theorem guard_refuted_beyond_words :
    let guard := some (pairGuard 715827883)
    ((Oracle.diagram ⟨none, 2147483650⟩ .stopped).solve (.ofGuard guard)).result =
        .ok .unsatisfiable ∧
      Guard.eval guard (.ofLiterals [⟨numbered 715827883, true⟩]) = true :=
  ⟨solve_pairGuard .stopped (by decide) (by decide), eval_pairGuard 715827883⟩

end GuardedMachines
