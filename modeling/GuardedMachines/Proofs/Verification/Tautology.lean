import GuardedMachines.Proofs.Building
import GuardedMachines.Proofs.Verification.Questions

/-!
Verification of conditions that are always true is exact. The exploration of a
machine comes to its end with every state taken from the queue once that a way
leads to, and asks about the guards of the transitions that leave these states. A
guard is reported if its negation has no model, which is to say that every
valuation satisfies it. So the report has one violation for each transition of the
model that leaves such a state under such a guard, as long as nodes and variables
can be numbered by words.
-/

namespace GuardedMachines

def Transition.Tautological (t : Transition) : Prop :=
  ∃ guard, t.guard = some guard ∧ ∀ valuation, guard.eval valuation = true

namespace Verification.Tautology

variable {m : Machine}

section Exploration

theorem Reaches.isSome_initial {state : String} (h : Reaches m state) :
    (m.state? initialState).isSome = true := by
  induction h with
  | initial h => exact h
  | next _ _ ih => exact ih

open Classical in
/-- The states found under the names taken from the queue are those that a way leads to. -/
theorem filterMap_reachable_perm (hm : m.WellNamed) :
    ((reachable m).filterMap m.state?).Perm (m.states.filter fun s => Reaches m s.name) := by
  have hvisited : ((reachable m).filterMap m.state?).Nodup := by
    refine (nodup_reachable m).filterMap ?_
    intro name name' s hs hs'
    exact (hm.state?_eq_some_iff.mp hs).2.symm.trans (hm.state?_eq_some_iff.mp hs').2
  rw [List.perm_ext_iff_of_nodup hvisited ((List.Nodup.of_map _ hm).filter _)]
  intro s
  simp only [List.mem_filterMap, mem_reachable, hm.state?_eq_some_iff, List.mem_filter,
    decide_eq_true_eq]
  constructor
  · rintro ⟨_, hreaches, hs, rfl⟩
    exact ⟨hs, hreaches⟩
  · rintro ⟨hs, hreaches⟩
    exact ⟨s.name, hreaches, hs, rfl⟩

theorem flatMap_leaving (m : Machine) (names : List String) :
    names.flatMap (leaving m) = (names.filterMap m.state?).flatMap State.transitions := by
  induction names with
  | nil => rfl
  | cons name names ih =>
    rw [List.flatMap_cons, ih, leaving]
    cases hs : m.state? name with
    | none => rw [List.filterMap_cons_none hs]; rfl
    | some s => rw [List.filterMap_cons_some hs]; rfl

end Exploration

section Report

variable {oracle : Oracle}

/-- A guard is reported exactly if it is always true. -/
theorem probe_cases (hexact : oracle.Exact) {machine : String} {t : Transition} {guard : Formula}
    (hguard : t.guard = some guard) {found : List Violation}
    (h : (probe machine t guard oracle).result = .ok found) :
    (t.Tautological ∧ found = [.tautologicalGuard ⟨machine, t⟩]) ∨
      (¬ t.Tautological ∧ found = []) := by
  have hneg : ∀ valuation, Guard.eval (some guard.neg) valuation = !guard.eval valuation :=
    fun _ => rfl
  have hcnf : (Cnf.ofFormulaTraced guard.neg).value = .ofGuard (some guard.neg) := rfl
  rw [probe, Query.result_lift_bind, hcnf] at h
  obtain ⟨sat, hsat, h⟩ := Query.result_bind_eq_ok.mp h
  obtain ⟨verdict, hsolve, rfl⟩ := Oracle.exists_verdict hsat
  cases verdict with
  | satisfiable w =>
    right
    have hfalse := (hexact.satisfiable _ w hsolve).2
    refine ⟨?_, (Except.ok.inj h).symm⟩
    rintro ⟨_, hsome, hall⟩
    cases hguard.symm.trans hsome
    rw [hneg, hall] at hfalse
    cases hfalse
  | unsatisfiable =>
    left
    refine ⟨⟨guard, hguard, fun valuation => ?_⟩, (Except.ok.inj h).symm⟩
    have hfalse := hexact.unsatisfiable _ hsolve valuation.assignment
    rwa [← Guard.eval_eq_holds, hneg, Bool.not_eq_false'] at hfalse

theorem probe_of_unsatisfiable {machine : String} {t : Transition} {guard : Formula}
    (h : (oracle.solve (.ofFormula guard.neg)).result = .ok .unsatisfiable) :
    (probe machine t guard oracle).result = .ok [.tautologicalGuard ⟨machine, t⟩] := by
  have hfalse : (oracle.isSatisfiable (.ofFormula guard.neg)).result = .ok false :=
    Query.result_bind_eq_ok.mpr ⟨_, h, rfl⟩
  rw [probe, Query.result_lift_bind]
  exact Query.result_bind_eq_ok.mpr ⟨_, hfalse, rfl⟩

def guarded (transitions : List Transition) : List (Transition × Formula) :=
  transitions.filterMap fun t => t.guard.map fun guard => (t, guard)

theorem guard_of_mem_guarded {transitions : List Transition} {t : Transition} {guard : Formula}
    (h : (t, guard) ∈ guarded transitions) : t.guard = some guard := by
  obtain ⟨u, -, hu⟩ := List.mem_filterMap.mp h
  obtain ⟨_, hguard, heq⟩ := Option.map_eq_some_iff.mp hu
  cases heq
  exact hguard

open Classical in
/-- Without a guard a transition is not always guarded truly, so none of these is left out. -/
theorem map_filter_guarded (transitions : List Transition) :
    ((guarded transitions).filter fun p => p.1.Tautological).map Prod.fst =
      transitions.filter fun t => t.Tautological := by
  induction transitions with
  | nil => rfl
  | cons t rest ih =>
    cases hguard : t.guard with
    | none =>
      have hnot : ¬ t.Tautological := by
        rintro ⟨guard, hsome, -⟩
        cases hguard.symm.trans hsome
      have hrest : guarded (t :: rest) = guarded rest := List.filterMap_cons_none (by simp [hguard])
      rw [hrest, ih, List.filter_cons_of_neg (by simpa using hnot)]
    | some guard =>
      have hrest : guarded (t :: rest) = (t, guard) :: guarded rest :=
        List.filterMap_cons_some (by simp [hguard])
      rw [hrest]
      by_cases htaut : t.Tautological
      · rw [List.filter_cons_of_pos (by simpa using htaut), List.map_cons, ih,
          List.filter_cons_of_pos (by simpa using htaut)]
      · rw [List.filter_cons_of_neg (by simpa using htaut), ih,
          List.filter_cons_of_neg (by simpa using htaut)]

def places (model : Model) : List (String × Transition × Formula) :=
  model.machines.flatMap fun m =>
    (guarded ((reachable m).flatMap (leaving m))).map fun p => (m.name, p)

theorem probes_eq (model : Model) :
    probes model = (places model).map fun (machine, t, guard) => probe machine t guard := by
  unfold probes places machineProbes guarded
  rw [List.map_flatMap]
  congr 1
  funext m
  rw [List.map_map, List.map_filterMap]
  congr 1
  funext t
  cases t.guard <;> rfl

open Classical in
/-- The report goes along the exploration of each machine. -/
theorem violations_eq (hexact : oracle.Exact) {model : Model} {name : String}
    {violations : List Violation}
    (h : (search name .allViolations oracle (probes model)).result = .ok violations) :
    violations = model.machines.flatMap fun m =>
      (((reachable m).flatMap (leaving m)).filter fun t => t.Tautological).map fun t =>
        .tautologicalGuard ⟨m.name, t⟩ := by
  rw [probes_eq] at h
  have hshown : List.Forall₂ (fun p v => Violation.tautologicalGuard ⟨p.1, p.2.1⟩ = v)
      ((places model).filter fun p => p.2.1.Tautological) violations := by
    refine forall₂_search ?_ h
    rintro ⟨machine, t, guard⟩ hp found hfound
    obtain ⟨m, -, hp⟩ := List.mem_flatMap.mp hp
    obtain ⟨⟨u, guard'⟩, hguarded, heq⟩ := List.mem_map.mp hp
    cases heq
    rcases probe_cases hexact (guard_of_mem_guarded hguarded) hfound with ⟨ht, rfl⟩ | ⟨ht, rfl⟩
    · simp [ht]
    · simp [ht]
  rw [← List.forall₂_map_left_iff, List.forall₂_eq_eq_eq] at hshown
  rw [← hshown, places, List.filter_flatMap, List.map_flatMap]
  congr 1
  funext m
  rw [← map_filter_guarded, List.filter_map, List.map_map, List.map_map]
  rfl

open Classical in
/-- The tautological guards of the transitions that leave a state to which a way leads. -/
noncomputable def tautologies (m : Machine) : List Violation :=
  ((m.states.filter fun s => Reaches m s.name).flatMap fun s =>
    s.transitions.filter fun t => t.Tautological).map fun t => .tautologicalGuard ⟨m.name, t⟩

theorem mem_tautologies {violation : Violation} : violation ∈ tautologies m ↔
    ∃ s ∈ m.states, Reaches m s.name ∧ ∃ t ∈ s.transitions, t.Tautological ∧
      violation = .tautologicalGuard ⟨m.name, t⟩ := by
  simp only [tautologies, List.mem_map, List.mem_flatMap, List.mem_filter, decide_eq_true_eq]
  constructor
  · rintro ⟨t, ⟨s, ⟨hs, hreaches⟩, ht, htaut⟩, rfl⟩
    exact ⟨s, hs, hreaches, t, ht, htaut, rfl⟩
  · rintro ⟨s, hs, hreaches, t, ht, htaut, rfl⟩
    exact ⟨t, ⟨s, ⟨hs, hreaches⟩, ht, htaut⟩, rfl⟩

open Classical in
theorem explored_perm_tautologies (hm : m.WellNamed) :
    ((((reachable m).flatMap (leaving m)).filter fun t => t.Tautological).map fun t =>
      Violation.tautologicalGuard ⟨m.name, t⟩).Perm (tautologies m) := by
  unfold tautologies
  rw [flatMap_leaving, ← List.filter_flatMap]
  exact (((filterMap_reachable_perm hm).flatMap_right State.transitions).filter _).map _

/-- The exploration stops by itself: more fuel does not make it go on. -/
theorem explore_eq_checkMachine (m : Machine) (report : Violation → Check) {fuel : Nat}
    (hfuel : m.transitions.length + 1 ≤ fuel) :
    explore report oracle m fuel (start m) (start m) = checkMachine report oracle m := by
  have hlength := length_reachable_le m
  rw [checkMachine, (explores_reachable m).explore_eq (hlength.trans hfuel),
    (explores_reachable m).explore_eq hlength]

/-- Where the verification of tautologies comes to an end, the exploration of each machine was
run to its end and took every state once that a way leads to. There is one violation for each
transition that leaves such a state under a guard that every valuation satisfies, and no other. -/
theorem verify_tautology_exact (model : Model) (hbuilt : model.Built) (hnarrow : model.Narrow)
    (limits : Limits) (hlimit : limits.nodeLimit ≤ 2147483648) (clock : Diagram.Clock)
    (report : Report)
    (h : (verify .tautology model (.diagram limits clock) .allViolations).result = .ok report) :
    (∀ m ∈ model.machines, Explores m (start m) (start m) (reachable m) ∧ (reachable m).Nodup ∧
      (∀ state, state ∈ reachable m ↔ Reaches m state) ∧
      ∀ push oracle fuel, m.transitions.length + 1 ≤ fuel →
        explore push oracle m fuel (start m) (start m) = checkMachine push oracle m) ∧
    report.violations.Perm (model.machines.flatMap tautologies) ∧
    ∀ site, .tautologicalGuard site ∈ report.violations → site.transition.guard ≠ none ∧
      ∃ m, model.machine? site.machine = some m ∧ (m.state? initialState).isSome = true := by
  have hviolations := violations_eq (Oracle.narrow_diagram_exact hlimit clock)
    (verify_eq_ok (verify_narrow hnarrow h))
  have hperm : report.violations.Perm (model.machines.flatMap tautologies) := by
    rw [hviolations]
    exact List.Perm.flatMap_left _ fun m hm =>
      explored_perm_tautologies (hbuilt.wellNamed.states m hm)
  refine ⟨fun m _ => ⟨explores_reachable m, nodup_reachable m, fun state => mem_reachable,
    fun push oracle fuel hfuel => explore_eq_checkMachine m push hfuel⟩, hperm, ?_⟩
  intro site hsite
  obtain ⟨m, hm, hmem⟩ := List.mem_flatMap.mp (hperm.mem_iff.mp hsite)
  obtain ⟨s, -, hreaches, t, -, ⟨guard, hguard, -⟩, heq⟩ := mem_tautologies.mp hmem
  obtain rfl := Violation.tautologicalGuard.inj heq
  refine ⟨?_, m, Model.machine?_eq_some hbuilt.wellNamed.machines hm, hreaches.isSome_initial⟩
  rw [hguard]
  exact Option.some_ne_none guard

/-- The states of one machine lead to each other in a circle, the way back under a condition that
is always true. The same condition stands where no way leads, and in a machine that has no initial
state, and is reported in neither place. -/
theorem verify_tautology_exact_on_circle :
    let a : Variable := ⟨⟨1, Nat.one_pos⟩, "A", .boolean⟩
    let go (source destination : String) (guard : Option Formula) : Transition :=
      ⟨source, destination, ⟨[.external "go"]⟩, guard, .empty⟩
    let always : Formula := .disj (.atom a) (.neg (.atom a))
    let circle : Machine := ⟨"m", [⟨"1", [go "1" "0" (some always)]⟩, ⟨"0", [go "0" "1" none]⟩,
      ⟨"2", [go "2" "0" (some always)]⟩]⟩
    let apart : Machine := ⟨"n", [⟨"1", [go "1" "1" (some always)]⟩]⟩
    let model : Model := ⟨"model", [circle, apart]⟩
    let violation : Violation := .tautologicalGuard ⟨"m", go "1" "0" (some always)⟩
    model.Built ∧ model.Narrow ∧
      (verify .tautology model (.diagram ⟨none, 10⟩ .stopped) .allViolations).result =
        .ok ⟨.tautology, [violation]⟩ ∧
      Explores circle ["0"] ["0"] ["0", "1"] ∧
      [violation].Perm (tautologies circle ++ tautologies apart) := by
  intro a go always circle apart model violation
  have hverify : (verify .tautology model (.diagram ⟨none, 10⟩ .stopped) .allViolations).result =
      .ok ⟨.tautology, [violation]⟩ := by
    decide +kernel
  have hnamed : Model.Built ⟨"model", [.new "m", .new "n"]⟩ := by
    have hm : (Model.new "model").addMachine "m" = .ok ⟨"model", [.new "m"]⟩ := by decide +kernel
    have hn : Model.addMachine ⟨"model", [.new "m"]⟩ "n" =
      .ok ⟨"model", [.new "m", .new "n"]⟩ := by decide +kernel
    exact .addMachine (.addMachine (.new "model") hm) hn
  have hcircle : (((Machine.new "m").addTransition (go "0" "1" none)).addTransition
      (go "1" "0" (some always))).addTransition (go "2" "0" (some always)) = circle := by
    decide +kernel
  have hapart : (Machine.new "n").addTransition (go "1" "1" (some always)) = apart := by
    decide +kernel
  have hbuilt : model.Built := by
    have hout := hnamed.grow_between [] [.new "n"] (.addTransition _ (go "0" "1" none))
    have hback := hout.grow_between [] [.new "n"] (.addTransition _ (go "1" "0" (some always)))
    have hfirst := hback.grow_between [] [.new "n"] (.addTransition _ (go "2" "0" (some always)))
    rw [hcircle] at hfirst
    have hsecond := hfirst.grow_between [circle] [] (.addTransition _ (go "1" "1" (some always)))
    rwa [hapart] at hsecond
  have hnarrow : model.Narrow := by decide
  obtain ⟨hexplored, hperm, -⟩ := verify_tautology_exact model hbuilt hnarrow ⟨none, 10⟩
    (by decide) .stopped ⟨.tautology, [violation]⟩ hverify
  refine ⟨hbuilt, hnarrow, hverify, ?_, ?_⟩
  · have hstart : start circle = ["0"] := by decide +kernel
    have htaken : reachable circle = ["0", "1"] := by decide +kernel
    have hrun := (hexplored circle List.mem_cons_self).1
    rwa [hstart, htaken] at hrun
  · simpa [model] using hperm

/-- With room for 2147483650 nodes, a guard is reported although it does not always hold, because
its negation is called unsatisfiable. -/
theorem guard_reported_beyond_words :
    let loop (guard : Formula) : Transition :=
      ⟨"0", "0", ⟨[.external "go"]⟩, some guard, .empty⟩
    let model (guard : Formula) : Model := ⟨"model", [⟨"m", [⟨"0", [loop guard]⟩]⟩]⟩
    let oracle := Oracle.diagram ⟨none, 2147483650⟩ .stopped
    let guard := (pairGuard 715827883).neg
    (model guard).Built ∧
      (verify .tautology (model guard) oracle .allViolations).result =
        .ok ⟨.tautology, [.tautologicalGuard ⟨"m", loop guard⟩]⟩ ∧
      ¬ (loop guard).Tautological := by
  intro loop model oracle guard
  have hunsat : (oracle.solve (.ofFormula guard.neg)).result = .ok .unsatisfiable :=
    solve_pairGuard .stopped (by decide) (by decide)
  have hbuilt : ∀ guard, (model guard).Built := by
    intro guard
    have hm : (Model.new "model").addMachine "m" = .ok ⟨"model", [.new "m"]⟩ := by decide +kernel
    have hadded : (Machine.new "m").addTransition (loop guard) = ⟨"m", [⟨"0", [loop guard]⟩]⟩ := rfl
    have hgrown := (Model.Built.addMachine (.new "model") hm).grow_between [] []
      (.addTransition _ (loop guard))
    rwa [hadded] at hgrown
  have hprobes : ∀ guard,
      Property.tautology.probes (model guard) = [probe "m" (loop guard) guard] := fun _ => rfl
  have hfalse : guard.eval (.ofLiterals [⟨numbered 715827883, true⟩]) = false := by
    rw [Formula.eval, Formula.holds, ← Formula.eval, eval_pairGuard]
    rfl
  refine ⟨hbuilt guard, ?_, ?_⟩
  · rw [result_verify_single (hprobes guard), probe_of_unsatisfiable hunsat]
    rfl
  · rintro ⟨_, hguard, hall⟩
    cases hguard
    rw [hall] at hfalse
    cases hfalse

end Report

end Verification.Tautology

end GuardedMachines
