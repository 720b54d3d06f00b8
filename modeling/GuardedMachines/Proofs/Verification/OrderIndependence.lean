import GuardedMachines.Proofs.Verification.Counts

/-!
Verdicts do not depend on the order of declarations. The number of violations of
each property is the same for models that differ only in the order of their
machines, of the states inside machines and of the transitions inside states.
Pairs that are looked at in one order only count the same in the other one, the
states explored are the same, and so are the readers and the writers of a variable.
Each count is what the oracle finds as long as nodes and variables can be numbered
by words.
-/

namespace GuardedMachines.Verification

variable {model model' : Model}

namespace Initialization

theorem count_reordered {m m' : Machine} (h : m.Reordered m') (hm : m.WellNamed) :
    count m = count m' := by
  unfold count
  rcases h.state?_cases hm initialState with ⟨hs, hs'⟩ | ⟨s, s', hs, hs', hrel⟩
  · rw [hs, hs']
    rfl
  · rw [hs, hs', h.name_eq]
    exact total_perm hrel.transitions_perm _

end Initialization

namespace Determinism

theorem Pair.Clash.symm {machine state : String} {t u : Transition}
    (h : Clash ⟨machine, state, t, u⟩) : Clash ⟨machine, state, u, t⟩ := by
  obtain ⟨⟨e, ht, hu⟩, heffect, valuation, hfirst, hsecond⟩ := h
  exact ⟨⟨e, hu, ht⟩, fun hsame => heffect hsame.symm, valuation, hsecond, hfirst⟩

theorem Pair.count_comm (machine state : String) (t u : Transition) :
    count ⟨machine, state, t, u⟩ = count ⟨machine, state, u, t⟩ := by
  unfold count
  rw [show Clash ⟨machine, state, t, u⟩ = Clash ⟨machine, state, u, t⟩ from
    propext ⟨Clash.symm, Clash.symm⟩]

theorem total_pairs (model : Model) :
    total Pair.count (pairs model) = total (fun m => total (fun s =>
      pairTotal (fun t u => Pair.count ⟨m.name, s.name, t, u⟩) s.transitions) m.states)
        model.machines := by
  rw [pairs, total_flatMap]
  simp only [total_flatMap, total_map]
  rfl

theorem count_reordered (h : model.Reordered model') :
    total Pair.count (pairs model) = total Pair.count (pairs model') := by
  rw [total_pairs, total_pairs]
  apply ReorderedBy.total_eq h
  intro m m' hm
  apply hm.states.total_eq
  intro s s' hs
  rw [hm.name_eq, hs.name_eq]
  exact pairTotal_perm (Pair.count_comm _ _) hs.transitions_perm

end Determinism

namespace CoherentWriting

theorem elsewhere_reordered (h : model.Reordered model') {m m' : Machine} (hname : m.name = m'.name)
    (t : Transition) : elsewhere model m t = elsewhere model' m' t := by
  have hothers : ReorderedBy Machine.Reordered (model.machines.filter fun n => n.name != m.name)
      (model'.machines.filter fun n => n.name != m'.name) := by
    apply ReorderedBy.filter h
    intro n n' hn
    rw [hn.name_eq, hname]
  exact hothers.total_eq fun n n' hn => total_perm hn.transitions_perm _

theorem aftermath_reordered (h : model.Reordered model') {m m' : Machine} (hm : m.Reordered m')
    (hnamed : m.WellNamed) (t : Transition) : aftermath model m t = aftermath model' m' t := by
  unfold aftermath
  rw [total_perm (Tautology.leaving_perm hm hnamed _), elsewhere_reordered h hm.name_eq]

theorem crossing_reordered {m m' n n' : Machine} (hm : m.Reordered m') (hn : n.Reordered n') :
    crossing m n = crossing m' n' := by
  unfold crossing
  rw [total_perm hm.transitions_perm]
  exact total_congr fun t _ => total_perm hn.transitions_perm _

end CoherentWriting

theorem Tautology.count_reordered {m m' : Machine} (h : m.Reordered m') (hm : m.WellNamed) :
    total (fun state => total count (leaving m state)) (reachable m) =
      total (fun state => total count (leaving m' state)) (reachable m') := by
  rw [total_perm (reachable_perm h hm)]
  exact total_congr fun state _ => total_perm (leaving_perm h hm state) _

theorem Property.count_reordered (h : model.Reordered model') (hnamed : model.WellNamed)
    (property : Property) : property.count model = property.count model' := by
  have hmachines := ReorderedBy.with_mem h
  have hreaders : model.readers = model'.readers := h.users_eq _
  have hwriters : model.writers = model'.writers := h.users_eq _
  cases property with
  | initialization =>
    exact hmachines.total_eq fun m m' hm =>
      Initialization.count_reordered hm.2.2 (hnamed.states m hm.1)
  | singleWriting => rw [count, count, hwriters]
  | writtenAtLeastOnce => rw [count, count, hreaders, hwriters]
  | noUselessVariables => rw [count, count, hreaders, hwriters]
  | determinism => exact Determinism.count_reordered h
  | coherentWriting =>
    have haftermath : total (fun m => total (CoherentWriting.aftermath model m) m.transitions)
        model.machines = total (fun m => total (CoherentWriting.aftermath model' m) m.transitions)
          model'.machines := by
      apply hmachines.total_eq
      rintro m m' ⟨hm, -, hrel⟩
      rw [total_perm hrel.transitions_perm]
      exact total_congr fun t _ =>
        CoherentWriting.aftermath_reordered h hrel (hnamed.states m hm) t
    have hcrossing := pairTotal_reordered h CoherentWriting.crossing_comm
      fun _ _ _ _ hm hn => CoherentWriting.crossing_reordered hm hn
    show _ + _ = _ + _
    rw [haftermath, hcrossing]
  | tautology =>
    exact hmachines.total_eq fun m m' hm =>
      Tautology.count_reordered hm.2.2 (hnamed.states m hm.1)

/-- Every property passes for both models or fails for both, with the same number of
violations, wherever its verification comes to an end for both of them. -/
def SameVerdicts (model model' : Model) : Prop :=
  ∀ property (limits limits' : Limits) clock clock' report report',
    limits.nodeLimit ≤ 2147483648 → limits'.nodeLimit ≤ 2147483648 →
    (verify property model (.diagram limits clock) .allViolations).result = .ok report →
    (verify property model' (.diagram limits' clock') .allViolations).result = .ok report' →
      report.passed = report'.passed ∧ report.violations.length = report'.violations.length

theorem narrow_of_reordered (h : model.Reordered model') (hnarrow : model.Narrow) :
    model'.Narrow := by
  have hperm : model.transitions.Perm model'.transitions :=
    ReorderedBy.flatMap_perm h fun _ _ hm => hm.transitions_perm
  intro t ht u hu
  exact hnarrow t (hperm.mem_iff.mpr ht) u (hperm.mem_iff.mpr hu)

theorem sameVerdicts_of_reordered (h : model.Reordered model') (hnamed : model.WellNamed)
    (hnarrow : model.Narrow) : SameVerdicts model model' := by
  intro property limits limits' clock clock' report report' hlimit hlimit' hreport hreport'
  have hcount := (property.tally (Oracle.narrow_diagram_exact hlimit clock)
    hnamed.machines).length_eq (verify_narrow hnarrow hreport)
  have hcount' := (property.tally (Oracle.narrow_diagram_exact hlimit' clock')
    (h.wellNamed hnamed).machines).length_eq
      (verify_narrow (narrow_of_reordered h hnarrow) hreport')
  have hlength : report.violations.length = report'.violations.length := by
    rw [hcount, hcount', property.count_reordered h hnamed]
  refine ⟨?_, hlength⟩
  rw [Report.passed, Report.passed, Bool.eq_iff_iff, List.isEmpty_iff, List.isEmpty_iff,
    ← List.length_eq_zero_iff, ← List.length_eq_zero_iff, hlength]

/-- Models without names used twice have the same verdicts if they differ in the order of their
machines, states and transitions only. This includes models composed in the other order, which
compose whenever the first ones do. -/
theorem verdicts_independent_of_order (model : Model) (hnarrow : model.Narrow) :
    (∀ model', model.WellNamed → model.Reordered model' → SameVerdicts model model') ∧
    ∀ primary proof primary' proof' : Model, primary.WellNamed → proof.WellNamed →
      primary.Reordered primary' → proof.Reordered proof' → primary.compose proof = .ok model →
        ∃ model', proof'.compose primary' = .ok model' ∧ SameVerdicts model model' := by
  constructor
  · intro model' hnamed h
    exact sameVerdicts_of_reordered h hnamed hnarrow
  · intro primary proof primary' proof' hprimary hproof h h' hcompose
    obtain ⟨model', hcompose', hreordered⟩ := Model.exists_compose_swapped h h' hcompose
    have hnamed := hprimary.compose hproof hcompose
    exact ⟨model', hcompose', sameVerdicts_of_reordered hreordered hnamed hnarrow⟩

/-- Two transitions that clash, in either order, in a machine whose states are exchanged too: one
violation is found each time, with the transitions the other way round. -/
theorem verdicts_independent_of_order_on_clash :
    let a : Variable := ⟨⟨1, Nat.one_pos⟩, "A", .boolean⟩
    let b : Variable := ⟨⟨2, Nat.two_pos⟩, "B", .boolean⟩
    let t : Transition := ⟨"s", "x", ⟨[.external "go"]⟩, some (.atom a), .empty⟩
    let u : Transition := ⟨"s", "y", ⟨[.external "go"]⟩, some (.atom b), .empty⟩
    let primary : Model := ⟨"p", [⟨"m", [⟨"0", []⟩, ⟨"s", [t, u]⟩]⟩]⟩
    let primary' : Model := ⟨"p", [⟨"m", [⟨"s", [u, t]⟩, ⟨"0", []⟩]⟩]⟩
    let proof : Model := ⟨"q", [⟨"n", []⟩]⟩
    let oracle := Oracle.diagram ⟨none, 10⟩ .stopped
    let both : Witness := ⟨[⟨a, true⟩, ⟨b, true⟩]⟩
    primary.WellNamed ∧ primary.Narrow ∧ primary.Reordered primary' ∧
      SameVerdicts primary primary' ∧
      (verify .determinism primary oracle .allViolations).result =
        .ok ⟨.determinism, [.nonDeterminism "m" "s" t u both 1 2]⟩ ∧
      (verify .determinism primary' oracle .allViolations).result =
        .ok ⟨.determinism, [.nonDeterminism "m" "s" u t both 1 2]⟩ ∧
      ∃ composed composed', primary.compose proof = .ok composed ∧
        proof.compose primary' = .ok composed' ∧ SameVerdicts composed composed' := by
  intro a b t u primary primary' proof oracle both
  have hprimary : primary.WellNamed := by
    refine ⟨by decide, fun m hm => ?_⟩
    rw [List.mem_singleton.mp hm]
    exact (by decide : ["0", "s"].Nodup)
  have hproof : proof.WellNamed := by
    refine ⟨by decide, fun m hm => ?_⟩
    rw [List.mem_singleton.mp hm]
    exact .nil
  have hnarrow : primary.Narrow := by decide
  have hreordered : primary.Reordered primary' :=
    ⟨_, .refl _, .cons ⟨rfl, _, .swap _ _ _,
      .cons ⟨rfl, .swap _ _ _⟩ (.cons ⟨rfl, .refl _⟩ .nil)⟩ .nil⟩
  have hself : proof.Reordered proof := ⟨_, .refl _, .cons ⟨rfl, _, .refl _, .nil⟩ .nil⟩
  have hcompose : primary.compose proof = .ok ⟨"p+q", primary.machines ++ proof.machines⟩ := by
    decide +kernel
  have hsame := (verdicts_independent_of_order primary hnarrow).1 primary' hprimary hreordered
  obtain ⟨composed', hcompose', hverdicts⟩ := (verdicts_independent_of_order _ (by decide)).2
    primary proof primary' proof hprimary hproof hreordered hself hcompose
  exact ⟨hprimary, hnarrow, hreordered, hsame, by decide +kernel, by decide +kernel, _, composed',
    hcompose, hcompose', hverdicts⟩

/-- With room for 2147483650 nodes, two transitions that clash are reported in one order, and in the
other one their guards are called unsatisfiable together. -/
theorem verdicts_differ_beyond_words :
    let t : Transition := ⟨"s", "x", ⟨[.external "go"]⟩, some (pairGuard 715827883), .empty⟩
    let u : Transition := ⟨"s", "y", ⟨[.external "go"]⟩, some (sharedGuard 715827883), .empty⟩
    let model : Model := ⟨"model", [⟨"m", [⟨"s", [t, u]⟩]⟩]⟩
    let model' : Model := ⟨"model", [⟨"m", [⟨"s", [u, t]⟩]⟩]⟩
    let oracle := Oracle.diagram ⟨none, 2147483650⟩ .stopped
    model.WellNamed ∧ model.Reordered model' ∧
      (verify .determinism model oracle .allViolations).result = .ok ⟨.determinism, []⟩ ∧
      ∃ violation, (verify .determinism model' oracle .allViolations).result =
        .ok ⟨.determinism, [violation]⟩ := by
  intro t u model model' oracle
  have hunsat : (oracle.solve (.ofGuard (Formula.conjunction t.guard u.guard))).result =
      .ok .unsatisfiable := solve_pairGuard_shared .stopped (by decide) (by decide)
  have hboth : (∃ w, (oracle.solve (.ofGuard (Formula.conjunction u.guard t.guard))).result =
      .ok (.satisfiable w)) ∧ ∃ models, (oracle.countModels
        (.ofGuard (Formula.conjunction u.guard t.guard))).result = .ok models :=
    solve_shared_pairGuard .stopped (by decide) (by decide)
  obtain ⟨⟨w, hsolve⟩, models, hmodels⟩ := hboth
  refine ⟨⟨by decide, ?_⟩, ?_, ?_, ?_⟩
  · intro m hm
    rw [List.mem_singleton.mp hm]
    exact (by decide : ["s"].Nodup)
  · exact ⟨_, .refl _, .cons ⟨rfl, _, .refl _, .cons ⟨rfl, .swap _ _ _⟩ .nil⟩ .nil⟩
  · rw [result_verify_single (Determinism.probes_pair (by decide)),
      Determinism.probe_of_unsatisfiable hunsat]
    rfl
  · rw [result_verify_single (Determinism.probes_pair (by decide)),
      Determinism.probe_of_satisfiable hsolve (by decide) hmodels]
    exact ⟨_, rfl⟩

end GuardedMachines.Verification
