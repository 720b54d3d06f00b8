import GuardedMachines.Proofs.Activation
import GuardedMachines.Proofs.Verification.Questions

/-!
Verification of coherent writing is exact. A model is incoherent if a transition
writes two values to a variable, if transitions of different machines that can be
taken in one step do, or if a transition and one that it triggers do. With
machine names that are all different, the verification passes for exactly the
models that are not incoherent, and its witnesses satisfy the guards they are
about, the second guard of a propagation after the writes of the first transition.
This holds as long as nodes and variables can be numbered by words.
-/

namespace GuardedMachines

namespace Transition

def ConflictAt (t u : Transition) (v : Variable) : Prop :=
  ∃ x w y, (v, x) ∈ t.writes ∧ (w, y) ∈ u.writes ∧ v.id = w.id ∧ x ≠ y

def Conflict (t u : Transition) : Prop := ∃ v, t.ConflictAt u v

theorem Conflict.symm {t u : Transition} (h : t.Conflict u) : u.Conflict t := by
  obtain ⟨v, x, w, y, ht, hu, hid, hne⟩ := h
  exact ⟨w, y, v, x, hu, ht, hid.symm, hne.symm⟩

def Triggers (t u : Transition) : Prop :=
  ∃ a ∈ t.actions.members, u.events.contains a.produced = true

end Transition

namespace Model

/-- The second transition leaves the destination of the first one, or belongs to
another machine. -/
def Follows (model : Model) (m : Machine) (t u : Transition) : Prop :=
  (∃ s, m.state? t.destination = some s ∧ u ∈ s.transitions) ∨
    ∃ n ∈ model.machines, n.name ≠ m.name ∧ u ∈ n.transitions

/-- Some variable gets two values at once. -/
inductive Incoherent (model : Model) : Prop
  | within {m : Machine} {t : Transition} (hm : m ∈ model.machines) (ht : t ∈ m.transitions)
      (hconflict : t.Conflict t)
  | together {m n : Machine} {t u : Transition} (hm : m ∈ model.machines)
      (hn : n ∈ model.machines) (hother : m.name ≠ n.name) (ht : t ∈ m.transitions)
      (hu : u ∈ n.transitions)
      (hevent : ∃ e, t.events.contains e = true ∧ u.events.contains e = true)
      (hconflict : t.Conflict u)
      (hguards : ∃ valuation, Guard.eval t.guard valuation = true ∧
        Guard.eval u.guard valuation = true)
  | propagated {m : Machine} {t u : Transition} (hm : m ∈ model.machines)
      (ht : t ∈ m.transitions) (hfollows : model.Follows m t u) (htriggers : t.Triggers u)
      (hconflict : t.Conflict u)
      (hguards : ∃ valuation, Guard.eval t.guard valuation = true ∧
        Guard.eval u.guard (t.actions.override valuation) = true)

end Model

namespace Verification.CoherentWriting

theorem conflictAt_of_mem_conflicts {t u : Transition} {v : Variable}
    (h : v ∈ conflicts t.actions u.actions) : t.ConflictAt u v := by
  obtain ⟨⟨v, x⟩, hwrite, rfl⟩ := List.mem_map.mp (Ascending.mem_of_mem_ofList h)
  obtain ⟨ht, hany⟩ := List.mem_filter.mp hwrite
  obtain ⟨⟨w, y⟩, hu, hdiffer⟩ := List.any_eq_true.mp hany
  rw [Bool.and_eq_true, Variable.beq_iff, bne_iff_ne] at hdiffer
  exact ⟨x, w, y, ht, hu, hdiffer.1, hdiffer.2⟩

theorem conflicts_eq_nil_iff (t u : Transition) :
    conflicts t.actions u.actions = [] ↔ ¬ t.Conflict u := by
  constructor
  · rintro hnil ⟨v, x, w, y, ht, hu, hid, hne⟩
    rw [conflicts, Ascending.ofList_eq_nil_iff, List.map_eq_nil_iff, List.filter_eq_nil_iff] at hnil
    apply hnil (v, x) ht
    rw [List.any_eq_true]
    refine ⟨(w, y), hu, ?_⟩
    rw [Bool.and_eq_true, Variable.beq_iff, bne_iff_ne]
    exact ⟨hid, hne⟩
  · intro hnone
    rw [List.eq_nil_iff_forall_not_mem]
    intro v hv
    exact hnone ⟨v, conflictAt_of_mem_conflicts hv⟩

theorem isEmpty_conflicts (t u : Transition) :
    (!(conflicts t.actions u.actions).isEmpty) = true ↔ t.Conflict u := by
  rw [Bool.not_eq_true', ← Bool.not_eq_true, List.isEmpty_iff, conflicts_eq_nil_iff, not_not]

theorem intersects_produced (t u : Transition) :
    u.events.intersects t.actions.produced = true ↔ t.Triggers u := by
  rw [EventSet.intersects_iff]
  constructor
  · rintro ⟨e, hu, ht⟩
    obtain ⟨f, hf, hef⟩ := Ascending.contains_iff.mp (Ascending.contains_ofList.mp ht)
    obtain ⟨a, ha, rfl⟩ := List.mem_map.mp hf
    refine ⟨a, ha, ?_⟩
    rw [EventSet.contains, ← Ascending.contains_congr hef]
    exact hu
  · rintro ⟨a, ha, hu⟩
    refine ⟨a.produced, hu, Ascending.contains_ofList.mpr (Ascending.contains_iff.mpr ?_)⟩
    exact ⟨a.produced, List.mem_map_of_mem ha, Std.ReflCmp.compare_self⟩

theorem mem_sameStepProbes {first : Site} {later : List Machine} {probe : Probe} :
    probe ∈ sameStepProbes first later ↔ ∃ n u, n ∈ later ∧ u ∈ n.transitions ∧
      first.transition.events.intersects u.events = true ∧ first.transition.Conflict u ∧
      probe = sameStep first ⟨n.name, u⟩ := by
  simp only [sameStepProbes, List.mem_map, List.mem_filter, List.mem_flatMap, mem_sites,
    Bool.and_eq_true, isEmpty_conflicts]
  constructor
  · rintro ⟨_, ⟨⟨n, hn, u, hu, rfl⟩, hevent, hconflict⟩, rfl⟩
    exact ⟨n, u, hn, hu, hevent, hconflict, rfl⟩
  · rintro ⟨n, u, hn, hu, hevent, hconflict, rfl⟩
    exact ⟨_, ⟨⟨n, hn, u, hu, rfl⟩, hevent, hconflict⟩, rfl⟩

theorem mem_propagationProbes {first : Site} {followers : List Site} {probe : Probe} :
    probe ∈ propagationProbes first followers ↔ ∃ second guard, second ∈ followers ∧
      first.transition.Triggers second.transition ∧
      first.transition.Conflict second.transition ∧
      guardAfter first.transition second.transition = some guard ∧
      probe = propagation first second guard := by
  simp only [propagationProbes, List.mem_filterMap]
  constructor
  · rintro ⟨second, hsecond, h⟩
    split at h
    · next hasked =>
      rw [Bool.and_eq_true, intersects_produced, isEmpty_conflicts] at hasked
      obtain ⟨guard, hguard, rfl⟩ := Option.map_eq_some_iff.mp h
      exact ⟨second, guard, hsecond, hasked.1, hasked.2, hguard, rfl⟩
    · cases h
  · rintro ⟨second, guard, hsecond, htriggers, hconflict, hguard, rfl⟩
    refine ⟨second, hsecond, ?_⟩
    rw [if_pos, hguard, Option.map_some]
    rw [Bool.and_eq_true, intersects_produced, isEmpty_conflicts]
    exact ⟨htriggers, hconflict⟩

/-- The questions put to the oracle about a model, and those that need no oracle. -/
inductive Asked (model : Model) : Probe → Prop
  | within {m : Machine} {t : Transition} (hm : m ∈ model.machines) (ht : t ∈ m.transitions) :
      Asked model (sameTransition ⟨m.name, t⟩)
  | together {m n : Machine} {t u : Transition} (hpair : (m, n) ∈ positionPairs model.machines)
      (ht : t ∈ m.transitions) (hu : u ∈ n.transitions)
      (hevent : t.events.intersects u.events = true) (hconflict : t.Conflict u) :
      Asked model (sameStep ⟨m.name, t⟩ ⟨n.name, u⟩)
  | propagated {m : Machine} {t : Transition} {second : Site} {guard : Option Formula}
      (hm : m ∈ model.machines) (ht : t ∈ m.transitions)
      (hsecond : second ∈ followers (reacting model (.ofModel model) m) m t)
      (htriggers : t.Triggers second.transition) (hconflict : t.Conflict second.transition)
      (hguard : guardAfter t second.transition = some guard) :
      Asked model (propagation ⟨m.name, t⟩ second guard)

theorem mem_probes {model : Model} {probe : Probe} : probe ∈ probes model ↔ Asked model probe := by
  simp only [probes, probesWith, transitionProbes, List.mem_flatMap, List.mem_cons, List.mem_append,
    mem_sameStepProbes, mem_propagationProbes]
  constructor
  · rintro ⟨⟨m, later⟩, hrest, t, ht, rfl | ⟨n, u, hn, hu, hevent, hconflict, rfl⟩ |
      ⟨second, guard, hsecond, htriggers, hconflict, hguard, rfl⟩⟩
    · exact .within (mem_of_mem_withRest hrest) ht
    · exact .together (mem_positionPairs.mpr ⟨later, hrest, hn⟩) ht hu hevent hconflict
    · exact .propagated (mem_of_mem_withRest hrest) ht hsecond htriggers hconflict hguard
  · intro h
    cases h with
    | within hm ht =>
      obtain ⟨later, hrest⟩ := exists_mem_withRest hm
      exact ⟨_, hrest, _, ht, .inl rfl⟩
    | together hpair ht hu hevent hconflict =>
      obtain ⟨later, hrest, hn⟩ := mem_positionPairs.mp hpair
      exact ⟨_, hrest, _, ht, .inr (.inl ⟨_, _, hn, hu, hevent, hconflict, rfl⟩)⟩
    | propagated hm ht hsecond htriggers hconflict hguard =>
      obtain ⟨later, hrest⟩ := exists_mem_withRest hm
      exact ⟨_, hrest, _, ht, .inr (.inr ⟨_, _, hsecond, htriggers, hconflict, hguard, rfl⟩)⟩

theorem jointProbe_cases {oracle : Oracle} (hexact : oracle.Exact) {record : Record}
    {g h : Option Formula} {report : Witness → List Violation} {found : List Violation}
    (hfound : (jointProbe record g h report oracle).result = .ok found) :
    (found = [] ∧ ∀ valuation,
        ¬ (Guard.eval g valuation = true ∧ Guard.eval h valuation = true)) ∨
      ∃ w, found = report w ∧ Guard.eval g w.valuation = true ∧
        Guard.eval h w.valuation = true := by
  rw [jointProbe, Query.result_lift_bind, Query.result_lift_bind,
    Cnf.value_ofGuardTraced] at hfound
  obtain ⟨verdict, hsolve, hfound⟩ := Query.result_bind_eq_ok.mp hfound
  cases verdict with
  | unsatisfiable =>
    cases hfound
    exact .inl ⟨rfl, hexact.not_eval_of_unsatisfiable hsolve⟩
  | satisfiable w =>
    cases hfound
    exact .inr ⟨w, rfl, hexact.eval_of_satisfiable hsolve⟩

theorem jointProbe_of_unsatisfiable {oracle : Oracle} {record : Record} {g h : Option Formula}
    {report : Witness → List Violation}
    (hsolve : (oracle.solve (.ofGuard (Formula.conjunction g h))).result = .ok .unsatisfiable) :
    (jointProbe record g h report oracle).result = .ok [] := by
  rw [jointProbe, Query.result_lift_bind, Query.result_lift_bind, Cnf.value_ofGuardTraced]
  exact Query.result_bind_eq_ok.mpr ⟨_, hsolve, rfl⟩

inductive Shown (model : Model) : Violation → Prop
  | within {m : Machine} {t : Transition} {v : Variable} (hm : m ∈ model.machines)
      (ht : t ∈ m.transitions) (hconflict : t.ConflictAt t v) :
      Shown model (.conflictingWrites v ⟨m.name, t⟩)
  | together {m n : Machine} {t u : Transition} {v : Variable} {w : Witness}
      (hpair : (m, n) ∈ positionPairs model.machines) (ht : t ∈ m.transitions)
      (hu : u ∈ n.transitions) (hevent : t.events.intersects u.events = true)
      (hconflict : t.ConflictAt u v) (hfirst : Guard.eval t.guard w.valuation = true)
      (hsecond : Guard.eval u.guard w.valuation = true) :
      Shown model (.simultaneousWrites v ⟨m.name, t⟩ ⟨n.name, u⟩ w)
  | propagated {m : Machine} {t : Transition} {second : Site} {v : Variable} {w : Witness}
      (hm : m ∈ model.machines) (ht : t ∈ m.transitions)
      (hfollows : model.Follows m t second.transition) (htriggers : t.Triggers second.transition)
      (hconflict : t.ConflictAt second.transition v)
      (hfirst : Guard.eval t.guard w.valuation = true)
      (hsecond : Guard.eval second.transition.guard (t.actions.override w.valuation) = true) :
      Shown model (.propagatedWrites v ⟨m.name, t⟩ second w)

theorem Shown.incoherent {model : Model} (hnames : model.machineNames.Nodup)
    {violation : Violation} (h : Shown model violation) : model.Incoherent := by
  cases h with
  | within hm ht hconflict => exact .within hm ht ⟨_, hconflict⟩
  | together hpair ht hu hevent hconflict hfirst hsecond =>
    obtain ⟨hm, hn⟩ := mem_of_mem_positionPairs hpair
    exact .together hm hn (ne_of_mem_positionPairs hnames hpair) ht hu
      ((EventSet.intersects_iff _ _).mp hevent) ⟨_, hconflict⟩ ⟨_, hfirst, hsecond⟩
  | propagated hm ht hfollows htriggers hconflict hfirst hsecond =>
    exact .propagated hm ht hfollows htriggers ⟨_, hconflict⟩ ⟨_, hfirst, hsecond⟩

theorem follows_of_mem_followers {model : Model} {activation : Activation} {m : Machine}
    {t : Transition} {site : Site} (h : site ∈ followers (reacting model activation m) m t) :
    model.Follows m t site.transition := by
  rcases mem_followers.mp h with ⟨s, u, hs, hu, rfl⟩ | ⟨n, u, hn, hu, rfl⟩
  · exact .inl ⟨s, hs, hu⟩
  · obtain ⟨name, -, hother, hfind⟩ := mem_reacting.mp hn
    obtain ⟨hn, hname⟩ := Model.mem_and_name_of_machine? hfind
    exact .inr ⟨n, hn, hname ▸ hother, hu⟩

/-- Whatever a probe finds is so. -/
theorem Asked.shown {model : Model} {oracle : Oracle} (hexact : oracle.Exact) {probe : Probe}
    (hasked : Asked model probe) {found : List Violation}
    (hfound : (probe oracle).result = .ok found) {violation : Violation}
    (hviolation : violation ∈ found) : Shown model violation := by
  cases hasked with
  | within hm ht =>
    cases hfound
    obtain ⟨v, hv, rfl⟩ := List.mem_map.mp hviolation
    exact .within hm ht (conflictAt_of_mem_conflicts hv)
  | @together m n t u hpair ht hu hevent hconflict =>
    rcases jointProbe_cases hexact hfound with ⟨rfl, -⟩ | ⟨w, rfl, hfirst, hsecond⟩
    · exact absurd hviolation List.not_mem_nil
    · obtain ⟨v, hv, rfl⟩ := List.mem_map.mp hviolation
      exact .together hpair ht hu hevent (conflictAt_of_mem_conflicts hv) hfirst hsecond
  | @propagated m t second guard hm ht hsecond htriggers hconflict hguard =>
    rcases jointProbe_cases hexact hfound with ⟨rfl, -⟩ | ⟨w, rfl, hfirst, hafter⟩
    · exact absurd hviolation List.not_mem_nil
    · obtain ⟨v, hv, rfl⟩ := List.mem_map.mp hviolation
      have hoverride := eval_override t second.transition w.valuation
      rw [hguard] at hoverride
      exact .propagated hm ht (follows_of_mem_followers hsecond) htriggers
        (conflictAt_of_mem_conflicts hv) hfirst (hoverride.trans hafter)

theorem jointProbe_ne_nil {oracle : Oracle} (hexact : oracle.Exact) {record : Record}
    {g h : Option Formula} {vars : List Variable} {mk : Witness → Variable → Violation}
    (hguards : ∃ valuation, Guard.eval g valuation = true ∧ Guard.eval h valuation = true)
    (hvars : vars ≠ []) {found : List Violation}
    (hfound : (jointProbe record g h (fun w => vars.map (mk w)) oracle).result = .ok found) :
    found ≠ [] := by
  obtain ⟨valuation, hboth⟩ := hguards
  rcases jointProbe_cases hexact hfound with ⟨-, hnone⟩ | ⟨w, rfl, -⟩
  · exact absurd hboth (hnone valuation)
  · exact mt List.map_eq_nil_iff.mp hvars

def Finds (model : Model) (oracle : Oracle) : Prop :=
  ∃ probe, Asked model probe ∧ ∀ found, (probe oracle).result = .ok found → found ≠ []

theorem finds_within {model : Model} {oracle : Oracle} {m : Machine} {t : Transition}
    (hm : m ∈ model.machines) (ht : t ∈ m.transitions) (hconflict : t.Conflict t) :
    Finds model oracle := by
  refine ⟨_, .within hm ht, ?_⟩
  intro found hfound
  cases hfound
  rw [ne_eq, List.map_eq_nil_iff, conflicts_eq_nil_iff, not_not]
  exact hconflict

theorem finds_together {model : Model} {oracle : Oracle} (hexact : oracle.Exact) {m n : Machine}
    {t u : Transition} (hpair : (m, n) ∈ positionPairs model.machines) (ht : t ∈ m.transitions)
    (hu : u ∈ n.transitions) (hevent : t.events.intersects u.events = true)
    (hconflict : t.Conflict u)
    (hguards : ∃ valuation, Guard.eval t.guard valuation = true ∧
      Guard.eval u.guard valuation = true) : Finds model oracle := by
  refine ⟨_, .together hpair ht hu hevent hconflict, ?_⟩
  intro found hfound
  exact jointProbe_ne_nil hexact hguards (mt (conflicts_eq_nil_iff t u).mp (not_not.mpr hconflict))
    hfound

/-- A transition of another machine that is triggered is among the followers, because
the activation has an arc for what triggers it. -/
theorem exists_mem_followers {model : Model} (hnames : model.machineNames.Nodup) {m : Machine}
    {t u : Transition} (hm : m ∈ model.machines) (ht : t ∈ m.transitions)
    (hfollows : model.Follows m t u) (htriggers : t.Triggers u) :
    ∃ site ∈ followers (reacting model (.ofModel model) m) m t, site.transition = u := by
  rcases hfollows with ⟨s, hs, hu⟩ | ⟨n, hn, hother, hu⟩
  · exact ⟨⟨m.name, u⟩, mem_followers.mpr (.inl ⟨s, u, hs, hu, rfl⟩), rfl⟩
  · obtain ⟨a, ha, hevent⟩ := htriggers
    have hreacting : n ∈ reacting model (.ofModel model) m :=
      mem_reacting.mpr ⟨n.name, Activation.mem_successors hm hn ht hu ha hevent, hother,
        Model.machine?_eq_some hnames hn⟩
    exact ⟨⟨n.name, u⟩, mem_followers.mpr (.inr ⟨n, u, hreacting, hu, rfl⟩), rfl⟩

theorem finds_propagated {model : Model} {oracle : Oracle} (hexact : oracle.Exact)
    (hnames : model.machineNames.Nodup) {m : Machine} {t u : Transition}
    (hm : m ∈ model.machines) (ht : t ∈ m.transitions) (hfollows : model.Follows m t u)
    (htriggers : t.Triggers u) (hconflict : t.Conflict u)
    (hguards : ∃ valuation, Guard.eval t.guard valuation = true ∧
      Guard.eval u.guard (t.actions.override valuation) = true) : Finds model oracle := by
  obtain ⟨site, hsite, rfl⟩ := exists_mem_followers hnames hm ht hfollows htriggers
  obtain ⟨valuation, hfirst, hsecond⟩ := hguards
  rw [eval_override] at hsecond
  cases hguard : guardAfter t site.transition with
  | none =>
    rw [hguard] at hsecond
    exact absurd hsecond Bool.false_ne_true
  | some guard =>
    rw [hguard] at hsecond
    refine ⟨_, .propagated hm ht hsite htriggers hconflict hguard, ?_⟩
    intro found hfound
    exact jointProbe_ne_nil hexact ⟨valuation, hfirst, hsecond⟩
      (mt (conflicts_eq_nil_iff t site.transition).mp (not_not.mpr hconflict)) hfound

theorem finds_of_incoherent {model : Model} {oracle : Oracle} (hexact : oracle.Exact)
    (hnames : model.machineNames.Nodup) (h : model.Incoherent) : Finds model oracle := by
  cases h with
  | within hm ht hconflict => exact finds_within hm ht hconflict
  | together hm hn hother ht hu hevent hconflict hguards =>
    have hintersects := (EventSet.intersects_iff _ _).mpr hevent
    -- Only the machines after the first one are compared with it, so the pair may be met
    -- the other way round.
    rcases eq_or_mem_positionPairs hm hn with rfl | hpair | hpair
    · exact absurd rfl hother
    · exact finds_together hexact hpair ht hu hintersects hconflict hguards
    · rw [EventSet.intersects_comm] at hintersects
      obtain ⟨valuation, hfirst, hsecond⟩ := hguards
      exact finds_together hexact hpair hu ht hintersects hconflict.symm
        ⟨valuation, hsecond, hfirst⟩
  | propagated hm ht hfollows htriggers hconflict hguards =>
    exact finds_propagated hexact hnames hm ht hfollows htriggers hconflict hguards

/-- If no transition conflicts with itself or triggers another one, and the guards of those that
conflict are called unsatisfiable together, then nothing is reported. -/
theorem verify_quiet {model : Model} {oracle : Oracle}
    (hwithin : ∀ t ∈ model.transitions, ¬ t.Conflict t)
    (htriggers : ∀ t ∈ model.transitions, ∀ u ∈ model.transitions, ¬ t.Triggers u)
    (hunsat : ∀ m n, (m, n) ∈ positionPairs model.machines → ∀ t ∈ m.transitions,
      ∀ u ∈ n.transitions, (oracle.solve (.ofGuard (Formula.conjunction t.guard u.guard))).result =
        .ok .unsatisfiable) :
    (verify .coherentWriting model oracle .allViolations).result =
      .ok ⟨.coherentWriting, []⟩ := by
  have hquiet : ∀ probe ∈ probes model, (probe oracle).result = .ok [] := by
    intro probe hprobe
    cases mem_probes.mp hprobe with
    | @within m t hm ht =>
      have hnone := (conflicts_eq_nil_iff t t).mpr (hwithin t (Model.mem_transitions hm ht))
      simp [sameTransition, Probe.found, hnone]
    | together hpair ht hu => exact jointProbe_of_unsatisfiable (hunsat _ _ hpair _ ht _ hu)
    | propagated hm ht hsecond htriggered =>
      have hu := mem_transitions_of_mem_followers hm hsecond
      exact absurd htriggered (htriggers _ (Model.mem_transitions hm ht) _ hu)
  rw [result_verify]
  exact congrArg (Except.map (Report.mk .coherentWriting)) (search_eq_nil hquiet)

/-- Where the verification of coherent writing comes to an end, it passes for exactly the
models that are not incoherent, and the witnesses of its violations satisfy both guards. -/
theorem verify_coherentWriting_exact (model : Model) (hnames : model.machineNames.Nodup)
    (hnarrow : model.Narrow) (limits : Limits) (hlimit : limits.nodeLimit ≤ 2147483648)
    (clock : Diagram.Clock) (report : Report)
    (h : (verify .coherentWriting model (.diagram limits clock) .allViolations).result =
      .ok report) :
    (report.passed = true ↔ ¬ model.Incoherent) ∧
    (∀ v first second w, .simultaneousWrites v first second w ∈ report.violations →
      Guard.eval first.transition.guard w.valuation = true ∧
        Guard.eval second.transition.guard w.valuation = true) ∧
    (∀ v first second w, .propagatedWrites v first second w ∈ report.violations →
      Guard.eval first.transition.guard w.valuation = true ∧
        Guard.eval second.transition.guard
          (first.transition.actions.override w.valuation) = true) := by
  have hexact := Oracle.narrow_diagram_exact hlimit clock
  obtain ⟨hanswered, hreported⟩ := mem_search (verify_eq_ok (verify_narrow hnarrow h))
  have hshown : ∀ violation ∈ report.violations, Shown model violation := by
    intro violation hviolation
    obtain ⟨probe, hprobe, found, hfound, hmem⟩ := hreported violation hviolation
    exact (mem_probes.mp hprobe).shown hexact hfound hmem
  refine ⟨?_, ?_, ?_⟩
  · rw [Report.passed, List.isEmpty_iff]
    constructor
    · intro hpassed hincoherent
      obtain ⟨probe, hasked, hfinds⟩ := finds_of_incoherent hexact hnames hincoherent
      obtain ⟨found, hfound, hsub⟩ := hanswered probe (mem_probes.mpr hasked)
      obtain ⟨violation, hviolation⟩ := List.exists_mem_of_ne_nil found (hfinds found hfound)
      have hmem := hsub violation hviolation
      rw [hpassed] at hmem
      exact absurd hmem List.not_mem_nil
    · intro hcoherent
      rw [List.eq_nil_iff_forall_not_mem]
      intro violation hviolation
      exact hcoherent ((hshown violation hviolation).incoherent hnames)
  · intro v first second w hmem
    cases hshown _ hmem with
    | together hpair ht hu hevent hconflict hfirst hsecond => exact ⟨hfirst, hsecond⟩
  · intro v first second w hmem
    cases hshown _ hmem with
    | propagated hm ht hfollows htriggers hconflict hfirst hsecond => exact ⟨hfirst, hsecond⟩

/-- One machine sets a variable, another one resets it when it is set, either by itself or
because of the first machine: both ways to write two values at once are found. -/
theorem verify_coherentWriting_exact_on_reset :
    let x : Variable := ⟨⟨1, Nat.one_pos⟩, "X", .boolean⟩
    let t : Transition := ⟨"s", "s", ⟨[.external "go"]⟩, none, ⟨[.assign x (.ofBool true)]⟩⟩
    let u : Transition := ⟨"s", "s", ⟨[.external "go", .change x (.ofBool true)]⟩, some (.atom x),
      ⟨[.assign x (.ofBool false)]⟩⟩
    let model : Model := ⟨"model", [⟨"m", [⟨"s", [t]⟩]⟩, ⟨"n", [⟨"s", [u]⟩]⟩]⟩
    let set : Witness := ⟨[⟨x, true⟩]⟩
    let free : Witness := ⟨[]⟩
    let violations : List Violation := [.simultaneousWrites x ⟨"m", t⟩ ⟨"n", u⟩ set,
      .propagatedWrites x ⟨"m", t⟩ ⟨"n", u⟩ free]
    model.machineNames.Nodup ∧ model.Narrow ∧
      (verify .coherentWriting model (.diagram ⟨none, 10⟩ .stopped) .allViolations).result =
        .ok ⟨.coherentWriting, violations⟩ ∧
      model.Incoherent ∧
      Guard.eval u.guard set.valuation = true ∧
      Guard.eval u.guard (t.actions.override free.valuation) = true := by
  intro x t u model set free violations
  have hnames : model.machineNames.Nodup := by decide
  have hnarrow : model.Narrow := by decide
  have hverify :
      (verify .coherentWriting model (.diagram ⟨none, 10⟩ .stopped) .allViolations).result =
        .ok ⟨.coherentWriting, violations⟩ := by decide +kernel
  obtain ⟨hpassed, htogether, hpropagated⟩ :=
    verify_coherentWriting_exact model hnames hnarrow ⟨none, 10⟩ (by decide) .stopped _ hverify
  refine ⟨hnames, hnarrow, hverify, ?_, ?_, ?_⟩
  · by_contra hcoherent
    exact Bool.false_ne_true (hpassed.mpr hcoherent)
  · exact (htogether x ⟨"m", t⟩ ⟨"n", u⟩ set List.mem_cons_self).2
  · exact (hpropagated x ⟨"m", t⟩ ⟨"n", u⟩ free (List.mem_cons_of_mem _ List.mem_cons_self)).2

/-- With room for 2147483650 nodes, one of two machines that write different values on one event
has a guard that is called unsatisfiable and is not. That both write is not reported. -/
theorem conflict_missed_beyond_words :
    let x : Variable := numbered 0
    let t : Transition := ⟨"s", "s", ⟨[.external "go"]⟩, some (pairGuard 715827883),
      ⟨[.assign x (.ofBool true)]⟩⟩
    let u : Transition := ⟨"s", "s", ⟨[.external "go"]⟩, none, ⟨[.assign x (.ofBool false)]⟩⟩
    let model : Model := ⟨"model", [⟨"m", [⟨"s", [t]⟩]⟩, ⟨"n", [⟨"s", [u]⟩]⟩]⟩
    let oracle := Oracle.diagram ⟨none, 2147483650⟩ .stopped
    model.machineNames.Nodup ∧
      (verify .coherentWriting model oracle .allViolations).result = .ok ⟨.coherentWriting, []⟩ ∧
      model.Incoherent := by
  intro x t u model oracle
  have hunsat : (oracle.solve (.ofGuard (Formula.conjunction t.guard u.guard))).result =
      .ok .unsatisfiable := solve_pairGuard .stopped (by decide) (by decide)
  have hconflict : t.Conflict u :=
    ⟨x, .ofBool true, x, .ofBool false, List.mem_cons_self, List.mem_cons_self, rfl, by decide⟩
  have hlisted : ∀ v ∈ model.transitions, v = t ∨ v = u := by
    intro v hv
    simpa [Model.transitions, model, Machine.transitions] using hv
  refine ⟨by decide, ?_, ?_⟩
  · apply verify_quiet
    · intro v hv
      rw [← conflicts_eq_nil_iff]
      rcases hlisted v hv with rfl | rfl <;> rfl
    · intro v hv w hw
      rw [← intersects_produced]
      rcases hlisted v hv with rfl | rfl <;> rcases hlisted w hw with rfl | rfl <;> decide
    · intro m n hpair v hv w hw
      rw [positionPairs_eq_withRest] at hpair
      obtain ⟨rfl, rfl⟩ := Prod.mk.inj (List.mem_singleton.mp hpair)
      obtain rfl := List.mem_singleton.mp hv
      obtain rfl := List.mem_singleton.mp hw
      exact hunsat
  · refine .together (t := t) (u := u) List.mem_cons_self
      (List.mem_cons_of_mem _ List.mem_cons_self) (by decide) List.mem_cons_self List.mem_cons_self
      ⟨.external "go", by decide, by decide⟩ hconflict ?_
    exact ⟨.ofLiterals [⟨numbered 715827883, true⟩], eval_pairGuard 715827883, rfl⟩

end Verification.CoherentWriting

end GuardedMachines
