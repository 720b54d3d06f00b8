import GuardedMachines.Proofs.Verification.Questions

/-!
Verification of determinism is exact. A model is deterministic if an event and a
valuation never enable two transitions of one state with different effects. The
verification passes for exactly these models. Otherwise it reports, in order,
one violation for every pair of transitions of a state that clash, with a
witness that enables both and with the number of assignments that do. This holds
as long as nodes and variables can be numbered by words.
-/

namespace GuardedMachines

namespace Action

def key : Action → VarId × Value ⊕ String
  | assign v x => .inl (v.id, x)
  | emit name => .inr name

theorem beq_iff (a b : Action) : (a == b) = true ↔ a.key = b.key := by
  cases a with
  | assign v x => cases b with
    | assign w y =>
      have hbeq : (assign v x == assign w y) = (v.id == w.id && x == y) := rfl
      simp [hbeq, key]
    | emit name => exact iff_of_false Bool.false_ne_true nofun
  | emit name => cases b with
    | assign w y => exact iff_of_false Bool.false_ne_true nofun
    | emit other =>
      have hbeq : (emit name == emit other) = (name == other) := rfl
      simp [hbeq, key]

end Action

theorem ActionSet.beq_iff (s t : ActionSet) :
    (s == t) = true ↔ s.members.map Action.key = t.members.map Action.key :=
  beq_iff_map_eq Action.beq_iff s.members t.members

namespace Transition

def SameEffect (t u : Transition) : Prop :=
  t.destination = u.destination ∧ (t.actions == u.actions) = true

theorem sameEffect_iff (t u : Transition) : t.sameEffect u = true ↔ t.SameEffect u := by
  unfold sameEffect SameEffect
  rw [Bool.and_eq_true, beq_iff_eq]

theorem SameEffect.refl (t : Transition) : t.SameEffect t :=
  ⟨rfl, (ActionSet.beq_iff _ _).mpr rfl⟩

theorem SameEffect.symm {t u : Transition} (h : t.SameEffect u) : u.SameEffect t :=
  ⟨h.1.symm, (ActionSet.beq_iff _ _).mpr ((ActionSet.beq_iff _ _).mp h.2).symm⟩

def Enabled (t : Transition) (e : Event) (valuation : Valuation) : Prop :=
  t.events.contains e = true ∧ Guard.eval t.guard valuation = true

end Transition

/-- Transitions of a state that are enabled together have the same effect. -/
def Model.Deterministic (model : Model) : Prop :=
  ∀ m ∈ model.machines, ∀ s ∈ m.states, ∀ (e : Event) (valuation : Valuation),
    ∀ t ∈ s.transitions, ∀ u ∈ s.transitions,
      t.Enabled e valuation → u.Enabled e valuation → t.SameEffect u

namespace Verification.Determinism

structure Pair where
  machine : String
  state : String
  first : Transition
  second : Transition

namespace Pair

def shareEvent (p : Pair) : Bool := p.first.events.intersects p.second.events

/-- The transitions share an event, do not have the same effect, and have guards
that one valuation satisfies. -/
def Clash (p : Pair) : Prop :=
  (∃ e, p.first.events.contains e = true ∧ p.second.events.contains e = true) ∧
    ¬ p.first.SameEffect p.second ∧
    ∃ valuation, Guard.eval p.first.guard valuation = true ∧
      Guard.eval p.second.guard valuation = true

/-- The violation reports the pair, with a valuation under which both guards hold and with
the number of such assignments of the variables of the guards. -/
def Reported (p : Pair) (violation : Violation) : Prop :=
  let ids := Guard.ids p.first.guard ∪ Guard.ids p.second.guard
  ∃ w models vars,
    violation = .nonDeterminism p.machine p.state p.first p.second w models vars ∧
    Guard.eval p.first.guard w.valuation = true ∧
    Guard.eval p.second.guard w.valuation = true ∧
    vars = ids.card ∧
    models = modelCount ids (fun a =>
      Guard.holds a p.first.guard && Guard.holds a p.second.guard) ∧
    1 ≤ models ∧ models ≤ 2 ^ vars

def probe (p : Pair) : Probe := Determinism.probe p.machine p.state p.first p.second

end Pair

def pairs (model : Model) : List Pair :=
  model.machines.flatMap fun m => m.states.flatMap fun s =>
    (positionPairs s.transitions).map fun (t, u) => ⟨m.name, s.name, t, u⟩

/-- The pairs that share an event are probed, in order. -/
theorem probes_eq (model : Model) :
    probes model = ((pairs model).filter Pair.shareEvent).map Pair.probe := by
  have hrivals : ∀ transitions : List Transition, rivals transitions =
      (positionPairs transitions).filter fun (t, u) => t.events.intersects u.events := by
    intro transitions
    rw [positionPairs_eq_withRest, List.filter_flatMap]
    unfold rivals
    congr 1
    funext ⟨t, rest⟩
    rw [List.filter_map]
    rfl
  unfold probes machineProbes stateProbes pairs
  simp only [List.filter_flatMap, List.map_flatMap, hrivals, List.filter_map, List.map_map]
  rfl

/-- What a probe can find, and after which answers of the oracle. -/
theorem probe_cases {machine state : String} {t u : Transition} {oracle : Oracle}
    {found : List Violation} (h : (probe machine state t u oracle).result = .ok found) :
    let cnf := Cnf.ofGuard (Formula.conjunction t.guard u.guard)
    (found = [] ∧ ((oracle.solve cnf).result = .ok .unsatisfiable ∨ t.sameEffect u = true)) ∨
      ∃ w models, (oracle.solve cnf).result = .ok (.satisfiable w) ∧ t.sameEffect u = false ∧
        (oracle.countModels cnf).result = .ok models ∧
        found = [.nonDeterminism machine state t u w models w.literals.length] := by
  intro cnf
  have hcnf : (Cnf.ofGuardTraced (Formula.conjunction t.guard u.guard)).value = cnf :=
    Cnf.value_ofGuardTraced _
  rw [probe, Query.result_lift_bind, Query.result_lift_bind, hcnf] at h
  obtain ⟨verdict, hsolve, h⟩ := Query.result_bind_eq_ok.mp h
  cases verdict with
  | unsatisfiable =>
    cases h
    exact .inl ⟨rfl, .inl hsolve⟩
  | satisfiable w =>
    cases hsame : t.sameEffect u with
    | true =>
      rw [hsame] at h
      cases h
      exact .inl ⟨rfl, .inr rfl⟩
    | false =>
      rw [hsame] at h
      obtain ⟨models, hmodels, h⟩ := Query.result_bind_eq_ok.mp h
      cases h
      exact .inr ⟨w, models, hsolve, rfl, hmodels, rfl⟩

theorem probe_of_unsatisfiable {machine state : String} {t u : Transition} {oracle : Oracle}
    (h : (oracle.solve (.ofGuard (Formula.conjunction t.guard u.guard))).result =
      .ok .unsatisfiable) : (probe machine state t u oracle).result = .ok [] := by
  rw [probe, Query.result_lift_bind, Query.result_lift_bind, Cnf.value_ofGuardTraced]
  exact Query.result_bind_eq_ok.mpr ⟨_, h, rfl⟩

theorem probe_of_satisfiable {machine state : String} {t u : Transition} {oracle : Oracle}
    {w : Witness} {models : Nat}
    (h : (oracle.solve (.ofGuard (Formula.conjunction t.guard u.guard))).result =
      .ok (.satisfiable w)) (heffect : t.sameEffect u = false)
    (hmodels : (oracle.countModels (.ofGuard (Formula.conjunction t.guard u.guard))).result =
      .ok models) :
    (probe machine state t u oracle).result =
      .ok [.nonDeterminism machine state t u w models w.literals.length] := by
  rw [probe, Query.result_lift_bind, Query.result_lift_bind, Cnf.value_ofGuardTraced]
  refine Query.result_bind_eq_ok.mpr ⟨_, h, ?_⟩
  rw [heffect]
  exact Query.result_bind_eq_ok.mpr ⟨_, hmodels, rfl⟩

theorem probes_pair {name machine state : String} {t u : Transition}
    (h : t.events.intersects u.events = true) :
    Property.determinism.probes ⟨name, [⟨machine, [⟨state, [t, u]⟩]⟩]⟩ =
      [probe machine state t u] := by
  simp [Property.probes, probes, machineProbes, stateProbes, rivals, withRest, h]

/-- What an exact oracle answers about both guards makes a truthful report. -/
theorem Pair.reported_of_answers {oracle : Oracle} (hexact : oracle.Exact) {p : Pair} {w : Witness}
    {models : Nat}
    (hsolve : (oracle.solve (.ofGuard (Formula.conjunction p.first.guard p.second.guard))).result =
      .ok (.satisfiable w))
    (hmodels : (oracle.countModels
      (.ofGuard (Formula.conjunction p.first.guard p.second.guard))).result = .ok models) :
    p.Reported (.nonDeterminism p.machine p.state p.first p.second w models w.literals.length) := by
  obtain ⟨hfirst, hsecond⟩ := hexact.eval_of_satisfiable hsolve
  have hlength := hexact.length_witness hsolve
  have hcount := hexact.count _ models hmodels
  have hjoint := (hexact.satisfiable _ w hsolve).2
  rw [Guard.eval_eq_holds] at hjoint
  have hpos := Guard.one_le_modelCount hjoint
  have hle := modelCount_le (Guard.ids (Formula.conjunction p.first.guard p.second.guard))
    fun a => Guard.holds a (Formula.conjunction p.first.guard p.second.guard)
  rw [← hcount] at hpos hle
  rw [← hlength] at hle
  rw [Guard.ids_conjunction] at hlength hcount
  simp only [Guard.holds_conjunction] at hcount
  exact ⟨w, models, _, rfl, hfirst, hsecond, hlength, hcount, hpos, hle⟩

/-- The probe of two transitions that share an event finds one violation if they
clash, and nothing otherwise. -/
theorem Pair.probe_spec {oracle : Oracle} (hexact : oracle.Exact) {p : Pair}
    (hshare : p.shareEvent = true) {found : List Violation}
    (h : (p.probe oracle).result = .ok found) :
    (p.Clash ∧ ∃ v, found = [v] ∧ p.Reported v) ∨ (¬ p.Clash ∧ found = []) := by
  rcases probe_cases h with ⟨hnone, hunsat | hsame⟩ | ⟨w, models, hsolve, hsame, hmodels, hfound⟩
  · right
    refine ⟨?_, hnone⟩
    rintro ⟨-, -, valuation, hboth⟩
    exact hexact.not_eval_of_unsatisfiable hunsat valuation hboth
  · right
    refine ⟨?_, hnone⟩
    rintro ⟨-, heffect, -⟩
    exact heffect ((Transition.sameEffect_iff _ _).mp hsame)
  · left
    have heffect : ¬ p.first.SameEffect p.second := by
      rw [← Transition.sameEffect_iff, hsame]
      exact Bool.false_ne_true
    exact ⟨⟨(EventSet.intersects_iff _ _).mp hshare, heffect, w.valuation,
      hexact.eval_of_satisfiable hsolve⟩, _, hfound, p.reported_of_answers hexact hsolve hmodels⟩

theorem mem_pairs {model : Model} {p : Pair} :
    p ∈ pairs model ↔ ∃ m ∈ model.machines, ∃ s ∈ m.states, p.machine = m.name ∧ p.state = s.name ∧
      (p.first, p.second) ∈ positionPairs s.transitions := by
  simp only [pairs, List.mem_flatMap, List.mem_map]
  constructor
  · rintro ⟨m, hm, s, hs, ⟨t, u⟩, htu, rfl⟩
    exact ⟨m, hm, s, hs, rfl, rfl, htu⟩
  · rintro ⟨m, hm, s, hs, hmachine, hstate, hpair⟩
    obtain ⟨machine, state, t, u⟩ := p
    cases hmachine
    cases hstate
    exact ⟨m, hm, s, hs, (t, u), hpair, rfl⟩

theorem deterministic_iff (model : Model) :
    model.Deterministic ↔ ∀ p ∈ pairs model, ¬ p.Clash := by
  constructor
  · intro hdet p hp
    obtain ⟨m, hm, s, hs, -, -, hpair⟩ := mem_pairs.mp hp
    obtain ⟨hfirst, hsecond⟩ := mem_of_mem_positionPairs hpair
    rintro ⟨⟨e, he, he'⟩, heffect, valuation, hv, hv'⟩
    exact heffect (hdet m hm s hs e valuation _ hfirst _ hsecond ⟨he, hv⟩ ⟨he', hv'⟩)
  · intro hclash m hm s hs e valuation
    have hpairs : ∀ t u, (t, u) ∈ positionPairs s.transitions → t.Enabled e valuation →
        u.Enabled e valuation → t.SameEffect u := by
      intro t u hpair ht hu
      by_contra heffect
      exact hclash ⟨m.name, s.name, t, u⟩ (mem_pairs.mpr ⟨m, hm, s, hs, rfl, rfl, hpair⟩)
        ⟨⟨e, ht.1, hu.1⟩, heffect, valuation, ht.2, hu.2⟩
    -- Only pairs in order of position are probed; the others follow by symmetry.
    intro t ht u hu hte hue
    rcases eq_or_mem_positionPairs ht hu with rfl | hpair | hpair
    · exact .refl t
    · exact hpairs t u hpair hte hue
    · exact (hpairs u t hpair hue hte).symm

open Classical in
/-- Where the verification of determinism comes to an end, it passes for exactly the
deterministic models, and it reports exactly the pairs that clash, in order. -/
theorem verify_determinism_exact (model : Model) (hnarrow : model.Narrow) (limits : Limits)
    (hlimit : limits.nodeLimit ≤ 2147483648) (clock : Diagram.Clock) (report : Report)
    (h : (verify .determinism model (.diagram limits clock) .allViolations).result = .ok report) :
    (report.passed = true ↔ model.Deterministic) ∧
      List.Forall₂ Pair.Reported ((pairs model).filter fun p => p.Clash) report.violations := by
  have hexact := Oracle.narrow_diagram_exact hlimit clock
  have hsearch := verify_eq_ok (verify_narrow hnarrow h)
  change (search _ _ _ (probes model)).result = _ at hsearch
  rw [probes_eq] at hsearch
  have hshared : (pairs model).filter (fun p => p.Clash) =
      ((pairs model).filter Pair.shareEvent).filter fun p => p.Clash := by
    rw [List.filter_filter]
    apply List.filter_congr
    intro p _
    have himp : p.Clash → p.shareEvent = true := fun hc => (EventSet.intersects_iff _ _).mpr hc.1
    by_cases hc : p.Clash <;> simp [hc, himp]
  have hreported : List.Forall₂ Pair.Reported ((pairs model).filter fun p => p.Clash)
      report.violations := by
    rw [hshared]
    refine forall₂_search ?_ hsearch
    intro p hp found hfound
    rcases p.probe_spec hexact (List.mem_filter.mp hp).2 hfound with ⟨hc, hv⟩ | ⟨hc, hnone⟩
    · simpa [hc] using hv
    · simpa [hc] using hnone
  refine ⟨?_, hreported⟩
  rw [deterministic_iff, Report.passed, List.isEmpty_iff, ← List.length_eq_zero_iff,
    ← hreported.length_eq, List.length_eq_zero_iff, List.filter_eq_nil_iff]
  simp only [decide_eq_true_eq]

open Classical in
/-- Two transitions on one event whose guards are different variables and whose
destinations differ: they clash where both variables are true, in one of four ways. -/
theorem verify_determinism_exact_on_clash :
    let a : Variable := ⟨⟨1, Nat.one_pos⟩, "A", .boolean⟩
    let b : Variable := ⟨⟨2, Nat.two_pos⟩, "B", .boolean⟩
    let t : Transition := ⟨"s", "x", ⟨[.external "go"]⟩, some (.atom a), .empty⟩
    let u : Transition := ⟨"s", "y", ⟨[.external "go"]⟩, some (.atom b), .empty⟩
    let model : Model := ⟨"model", [⟨"m", [⟨"s", [t, u]⟩]⟩]⟩
    let violation : Violation := .nonDeterminism "m" "s" t u ⟨[⟨a, true⟩, ⟨b, true⟩]⟩ 1 2
    model.Narrow ∧
      (verify .determinism model (.diagram ⟨none, 10⟩ .stopped) .allViolations).result =
        .ok ⟨.determinism, [violation]⟩ ∧
      ¬ model.Deterministic ∧
      List.Forall₂ Pair.Reported ((pairs model).filter fun p => p.Clash) [violation] := by
  intro a b t u model violation
  have hnarrow : model.Narrow := by decide
  have hverify : (verify .determinism model (.diagram ⟨none, 10⟩ .stopped) .allViolations).result =
      .ok ⟨.determinism, [violation]⟩ := by decide +kernel
  obtain ⟨hpassed, hreported⟩ :=
    verify_determinism_exact model hnarrow ⟨none, 10⟩ (by decide) .stopped
      ⟨.determinism, [violation]⟩ hverify
  refine ⟨hnarrow, hverify, ?_, hreported⟩
  rw [← hpassed]
  exact Bool.false_ne_true

/-- With room for 2147483650 nodes, one of two transitions has a guard that is called
unsatisfiable and is not. That they clash where it holds is not reported. -/
theorem clash_missed_beyond_words :
    let t : Transition := ⟨"s", "x", ⟨[.external "go"]⟩, some (pairGuard 715827883), .empty⟩
    let u : Transition := ⟨"s", "y", ⟨[.external "go"]⟩, none, .empty⟩
    let model : Model := ⟨"model", [⟨"m", [⟨"s", [t, u]⟩]⟩]⟩
    let oracle := Oracle.diagram ⟨none, 2147483650⟩ .stopped
    (verify .determinism model oracle .allViolations).result = .ok ⟨.determinism, []⟩ ∧
      ¬ model.Deterministic := by
  intro t u model oracle
  have hunsat : (oracle.solve (.ofGuard (Formula.conjunction t.guard u.guard))).result =
      .ok .unsatisfiable := solve_pairGuard .stopped (by decide) (by decide)
  constructor
  · rw [result_verify_single (probes_pair (by decide)), probe_of_unsatisfiable hunsat]
    rfl
  · intro hdet
    have ht : t.Enabled (.external "go") (.ofLiterals [⟨numbered 715827883, true⟩]) :=
      ⟨by decide, eval_pairGuard 715827883⟩
    have hu : u.Enabled (.external "go") (.ofLiterals [⟨numbered 715827883, true⟩]) :=
      ⟨by decide, rfl⟩
    have hsame := hdet _ List.mem_cons_self _ List.mem_cons_self _ _ t List.mem_cons_self u
      (List.mem_cons_of_mem _ List.mem_cons_self) ht hu
    exact absurd hsame.1 (by decide)

end Verification.Determinism

end GuardedMachines
