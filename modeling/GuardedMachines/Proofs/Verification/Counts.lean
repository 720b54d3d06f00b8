import GuardedMachines.Proofs.Usage
import GuardedMachines.Proofs.Verification.CoherentWriting
import GuardedMachines.Proofs.Verification.Determinism
import GuardedMachines.Proofs.Verification.Tally
import GuardedMachines.Proofs.Verification.Tautology

/-!
How many violations of each property a model has, said without the order in which
they are looked for: a sum over the machines and their transitions in which a pair
counts if its transitions clash, or counts the variables to which they write
different values at once. An exact oracle finds that many. The machines that a
machine cannot make react are left out of the search and have nothing to count.
-/

namespace GuardedMachines.Verification

variable {oracle : Oracle}

namespace Initialization

def count (m : Machine) : Nat :=
  (m.state? initialState).elim 1 fun s =>
    total (fun t => (violations m.name t).length) s.transitions

theorem tally (model : Model) : Tally oracle (probes model) (total count model.machines) := by
  apply Tally.flatMap
  intro m _
  have hfound : ∀ found violations, (Probe.found found oracle).result = .ok violations →
      violations.length = found.length := by
    intro found violations h
    cases h
    rfl
  unfold machineProbes count
  cases m.state? initialState with
  | none => exact .single (hfound _)
  | some initial => exact .map fun t _ => hfound _

end Initialization

namespace Writing

theorem length_concurrent (model : Model) :
    (concurrent (.ofModel model)).length = {id | (model.writers id).Nontrivial}.ncard := by
  apply (Register.proper_ofList _).length_filterMap
  intro id
  constructor
  · intro hid
    obtain ⟨⟨v, machines⟩, hentry, rfl⟩ := Model.exists_entry_iff.mpr (Set.Nontrivial.nonempty hid)
    have hlength : 1 < machines.length := (Model.one_lt_length_iff hentry).mpr hid
    exact ⟨_, hentry, rfl, by simp [concurrent?, hlength]⟩
  · rintro ⟨⟨v, machines⟩, hentry, rfl, hreport⟩
    have hlength : 1 < machines.length := by simpa [concurrent?] using hreport
    exact (Model.one_lt_length_iff hentry).mp hlength

/-- Variables of which one register has an entry and the other one has none. -/
theorem mem_difference_iff {model : Model} {items items' : Transition → List Variable}
    {report : Variable × List String → Violation} {id : VarId} :
    (model.users items id).Nonempty ∧ ¬ (model.users items' id).Nonempty ↔
      ∃ entry ∈ Register.ofList (model.collect items), entry.1.id = id ∧
        (if ((Register.ofList (model.collect items')).machines? entry.1).isSome then none
          else some (report entry)).isSome = true := by
  rw [← Model.exists_entry_iff]
  constructor
  · rintro ⟨⟨entry, hentry, rfl⟩, hnone⟩
    refine ⟨entry, hentry, rfl, ?_⟩
    rw [if_neg (mt Model.isSome_machines?_iff.mp hnone)]
    rfl
  · rintro ⟨entry, hentry, rfl, hreport⟩
    refine ⟨⟨entry, hentry, rfl⟩, fun hsome => ?_⟩
    rw [if_pos (Model.isSome_machines?_iff.mpr hsome)] at hreport
    cases hreport

theorem length_neverWritten (model : Model) :
    (neverWritten (.ofModel model)).length =
      {id | (model.readers id).Nonempty ∧ ¬ (model.writers id).Nonempty}.ncard :=
  (Register.proper_ofList _).length_filterMap fun _ => mem_difference_iff

theorem length_useless (model : Model) :
    (useless (.ofModel model)).length =
      {id | (model.writers id).Nonempty ∧ ¬ (model.readers id).Nonempty}.ncard :=
  (Register.proper_ofList _).length_filterMap fun _ => mem_difference_iff

theorem tally (violations : Usage → List Violation) (model : Model) :
    Tally oracle (probes violations model) (violations (.ofModel model)).length := by
  apply Tally.single
  intro found h
  cases h
  rfl

end Writing

namespace Determinism

noncomputable def Pair.count (p : Pair) : Nat := countIf p.Clash 1

theorem tally (hexact : oracle.Exact) (model : Model) :
    Tally oracle (probes model) (total Pair.count (pairs model)) := by
  have hshared : ∀ p ∈ pairs model, p.shareEvent = false → p.count = 0 := by
    intro p _ hp
    apply countIf_neg
    intro hclash
    rw [Pair.shareEvent, (EventSet.intersects_iff _ _).mpr hclash.1] at hp
    cases hp
  rw [probes_eq, ← total_filter Pair.count hshared]
  apply Tally.map
  intro p hp found hfound
  have hshare := (List.mem_filter.mp hp).2
  rcases p.probe_spec hexact hshare hfound with ⟨hclash, v, rfl, -⟩ | ⟨hclash, rfl⟩
  · exact (countIf_pos hclash 1).symm
  · exact (countIf_neg hclash 1).symm

end Determinism

namespace CoherentWriting

def shared (t u : Transition) : Nat := (conflicts t.actions u.actions).length

theorem mem_idSet_conflicts {t u : Transition} {id : VarId} :
    id ∈ idSet (conflicts t.actions u.actions) ↔ ∃ v, t.ConflictAt u v ∧ v.id = id := by
  constructor
  · intro hid
    obtain ⟨v, hv, rfl⟩ := mem_idSet.mp hid
    exact ⟨v, conflictAt_of_mem_conflicts hv, rfl⟩
  · rintro ⟨v, ⟨x, w, y, ht, hu, hid, hne⟩, rfl⟩
    rw [conflicts, idSet_ofList, mem_idSet]
    refine ⟨v, List.mem_map.mpr ⟨(v, x), List.mem_filter.mpr ⟨ht, ?_⟩, rfl⟩, rfl⟩
    rw [List.any_eq_true]
    refine ⟨(w, y), hu, ?_⟩
    rw [Bool.and_eq_true, Variable.beq_iff, bne_iff_ne]
    exact ⟨hid, hne⟩

theorem shared_comm (t u : Transition) : shared t u = shared u t := by
  have hswap : ∀ {t u : Transition} {id : VarId}, (∃ v, t.ConflictAt u v ∧ v.id = id) →
      ∃ v, u.ConflictAt t v ∧ v.id = id := by
    rintro t u _ ⟨v, ⟨x, w, y, ht, hu, hid, hne⟩, rfl⟩
    exact ⟨w, ⟨y, v, x, hu, ht, hid.symm, hne.symm⟩, hid.symm⟩
  have hids : idSet (conflicts t.actions u.actions) = idSet (conflicts u.actions t.actions) := by
    ext id
    rw [mem_idSet_conflicts, mem_idSet_conflicts]
    exact ⟨hswap, hswap⟩
  have hlisted := (Ascending.sorted_ofList _).map_id_eq (Ascending.sorted_ofList _) hids
  have hlength := congrArg List.length hlisted
  rwa [List.length_map, List.length_map] at hlength

theorem shared_eq_zero {t u : Transition} (h : ¬ t.Conflict u) : shared t u = 0 := by
  rw [shared, (conflicts_eq_nil_iff t u).mpr h]
  rfl

noncomputable def together (t u : Transition) : Nat :=
  countIf (t.events.intersects u.events = true ∧ ∃ valuation,
    Guard.eval t.guard valuation = true ∧ Guard.eval u.guard valuation = true) (shared t u)

noncomputable def propagated (t u : Transition) : Nat :=
  countIf (t.Triggers u ∧ ∃ valuation, Guard.eval t.guard valuation = true ∧
    Guard.eval u.guard (t.actions.override valuation) = true) (shared t u)

theorem together_comm (t u : Transition) : together t u = together u t := by
  unfold together
  simp only [EventSet.intersects_comm t.events, shared_comm t, and_comm]

theorem together_eq_zero {t u : Transition} (h : ¬ t.Conflict u) : together t u = 0 := by
  rw [together, shared_eq_zero h, countIf_zero]

theorem propagated_eq_zero {t u : Transition} (h : ¬ (t.Triggers u ∧ t.Conflict u)) :
    propagated t u = 0 := by
  by_cases htriggers : t.Triggers u
  · rw [propagated, shared_eq_zero fun hconflict => h ⟨htriggers, hconflict⟩, countIf_zero]
  · exact countIf_neg (fun hboth => htriggers hboth.1) _

theorem length_jointProbe (hexact : oracle.Exact) {record : Record} {g h : Option Formula}
    {vars : List Variable} {mk : Witness → Variable → Violation} {found : List Violation}
    (hfound : (jointProbe record g h (fun w => vars.map (mk w)) oracle).result = .ok found) :
    found.length = countIf (∃ valuation,
      Guard.eval g valuation = true ∧ Guard.eval h valuation = true) vars.length := by
  rcases jointProbe_cases hexact hfound with ⟨rfl, hnone⟩ | ⟨w, rfl, hboth⟩
  · exact (countIf_neg (fun ⟨valuation, hboth⟩ => hnone valuation hboth) _).symm
  · rw [countIf_pos ⟨w.valuation, hboth⟩, List.length_map]

theorem length_sameStep (hexact : oracle.Exact) {first second : Site}
    (hevent : first.transition.events.intersects second.transition.events = true)
    {found : List Violation} (hfound : (sameStep first second oracle).result = .ok found) :
    found.length = together first.transition second.transition := by
  rw [length_jointProbe hexact hfound, together]
  simp only [hevent, true_and]
  rfl

theorem length_propagation (hexact : oracle.Exact) {first second : Site} {guard : Option Formula}
    (htriggers : first.transition.Triggers second.transition)
    (hguard : guardAfter first.transition second.transition = some guard)
    {found : List Violation} (hfound : (propagation first second guard oracle).result = .ok found) :
    found.length = propagated first.transition second.transition := by
  rw [length_jointProbe hexact hfound, propagated]
  simp only [htriggers, true_and, eval_override, hguard, Option.elim_some]
  rfl

theorem tally_sameStepProbes (hexact : oracle.Exact) (first : Site) (later : List Machine) :
    Tally oracle (sameStepProbes first later)
      (total (fun n => total (together first.transition) n.transitions) later) := by
  have hsites : ∀ n : Machine, total (together first.transition) n.transitions =
      total (fun second : Site => together first.transition second.transition) (sites n) := by
    intro n
    rw [sites, total_map]
  simp only [hsites]
  rw [← total_flatMap, sameStepProbes, ← total_filter]
  · apply Tally.map
    intro second hsecond found hfound
    have hasked := (List.mem_filter.mp hsecond).2
    rw [Bool.and_eq_true] at hasked
    exact length_sameStep hexact hasked.1 hfound
  · intro second _ hskipped
    by_cases hconflict : first.transition.Conflict second.transition
    · rw [(isEmpty_conflicts _ _).mpr hconflict, Bool.and_true] at hskipped
      exact countIf_neg (fun hboth => absurd (hskipped.symm.trans hboth.1) Bool.false_ne_true) _
    · exact together_eq_zero hconflict

theorem tally_propagationProbes (hexact : oracle.Exact) (first : Site) (followers : List Site) :
    Tally oracle (propagationProbes first followers)
      (total (fun second => propagated first.transition second.transition) followers) := by
  rw [propagationProbes, List.filterMap_eq_flatMap_toList]
  apply Tally.flatMap
  intro second _
  dsimp only
  split
  · next hasked =>
    rw [Bool.and_eq_true, intersects_produced] at hasked
    cases hguard : guardAfter first.transition second.transition with
    | some guard => exact .single fun found => length_propagation hexact hasked.1 hguard
    | none =>
      have hzero : propagated first.transition second.transition = 0 := by
        apply countIf_neg
        rintro ⟨-, valuation, -, hafter⟩
        rw [eval_override, hguard] at hafter
        cases hafter
      rw [hzero]
      exact .nil
  · next hskipped =>
    rw [Bool.and_eq_true, intersects_produced, isEmpty_conflicts] at hskipped
    rw [propagated_eq_zero hskipped]
    exact .nil

/-- The machines that react are those of the model, without the machine itself, that the
activation links to it. -/
theorem reacting_eq {model : Model} (hnames : model.machineNames.Nodup) (activation : Activation)
    (hmachines : activation.machines = model.machineNames) (m : Machine) :
    reacting model activation m = (model.machines.filter fun n => n.name != m.name).filter
      fun n => activation.arcs.any fun arc => arc.source == m.name && arc.target == n.name := by
  have hself : ∀ {machines : List Machine}, (∀ n ∈ machines, n ∈ model.machines) →
      (machines.map Machine.name).filterMap model.machine? = machines := by
    intro machines hmem
    rw [List.filterMap_map]
    conv_rhs => rw [← List.filterMap_some (l := machines)]
    apply List.filterMap_congr
    intro n hn
    exact Model.machine?_eq_some hnames (hmem n hn)
  unfold reacting Activation.successors
  rw [hmachines, Model.machineNames, List.filter_map, List.filter_map]
  rw [hself fun n hn => (List.mem_filter.mp (List.mem_filter.mp hn).1).1]
  rw [List.filter_filter, List.filter_filter]
  apply List.filter_congr
  intro n _
  exact Bool.and_comm _ _

noncomputable def elsewhere (model : Model) (m : Machine) (t : Transition) : Nat :=
  total (fun n => total (propagated t) n.transitions)
    (model.machines.filter fun n => n.name != m.name)

theorem total_reacting {model : Model} (hnames : model.machineNames.Nodup) {m : Machine}
    (hm : m ∈ model.machines) {t : Transition} (ht : t ∈ m.transitions) :
    total (fun n => total (propagated t) n.transitions) (reacting model (.ofModel model) m) =
      elsewhere model m t := by
  rw [reacting_eq hnames _ rfl, elsewhere]
  apply total_filter
  intro n hn hunlinked
  have hn := (List.mem_filter.mp hn).1
  apply total_eq_zero
  intro u hu
  apply propagated_eq_zero
  rintro ⟨⟨a, ha, hevent⟩, -⟩
  have hlinked := (List.mem_filter.mp (Activation.mem_successors hm hn ht hu ha hevent)).2
  exact absurd (hunlinked.symm.trans hlinked) Bool.false_ne_true

noncomputable def aftermath (model : Model) (m : Machine) (t : Transition) : Nat :=
  shared t t + (total (propagated t) (Tautology.leaving m t.destination) + elsewhere model m t)

noncomputable def crossing (m n : Machine) : Nat :=
  total (fun t => total (together t) n.transitions) m.transitions

theorem crossing_comm (m n : Machine) : crossing m n = crossing n m := by
  unfold crossing
  rw [total_comm]
  simp only [together_comm]

theorem tally_transitionProbes (hexact : oracle.Exact) {model : Model}
    (hnames : model.machineNames.Nodup) {m : Machine} (hm : m ∈ model.machines)
    (later : List Machine) {t : Transition} (ht : t ∈ m.transitions) :
    Tally oracle (transitionProbes (reacting model (.ofModel model) m) later m t)
      (aftermath model m t + total (fun n => total (together t) n.transitions) later) := by
  have hfollowers : total (fun second : Site => propagated t second.transition)
      (followers (reacting model (.ofModel model) m) m t) =
        total (propagated t) (Tautology.leaving m t.destination) + elsewhere model m t := by
    rw [followers, total_append, total_map, total_flatMap, ← total_reacting hnames hm ht]
    simp only [sites, total_map]
    rfl
  have hwithin : ∀ found, (sameTransition ⟨m.name, t⟩ oracle).result = .ok found →
      found.length = shared t t := by
    intro found hfound
    cases hfound
    exact List.length_map _
  have htogether := tally_sameStepProbes hexact ⟨m.name, t⟩ later
  have hpropagated := tally_propagationProbes hexact ⟨m.name, t⟩
    (followers (reacting model (.ofModel model) m) m t)
  have htally := Tally.cons hwithin (htogether.append hpropagated)
  rw [hfollowers] at htally
  have hsum : aftermath model m t + total (fun n => total (together t) n.transitions) later =
      shared t t + (total (fun n => total (together t) n.transitions) later +
        (total (propagated t) (Tautology.leaving m t.destination) + elsewhere model m t)) := by
    unfold aftermath
    omega
  rw [hsum]
  exact htally

theorem tally (hexact : oracle.Exact) {model : Model} (hnames : model.machineNames.Nodup) :
    Tally oracle (probes model)
      (total (fun m => total (aftermath model m) m.transitions) model.machines +
        pairTotal crossing model.machines) := by
  rw [← total_withRest]
  apply Tally.flatMap
  rintro ⟨m, later⟩ hrest
  have hcrossing : total (crossing m) later =
      total (fun t => total (fun n => total (together t) n.transitions) later) m.transitions :=
    total_comm _ _ _
  dsimp only
  rw [hcrossing, ← total_add]
  apply Tally.flatMap
  intro t ht
  exact tally_transitionProbes hexact hnames (mem_of_mem_withRest hrest) later ht

end CoherentWriting

namespace Tautology

noncomputable def count (t : Transition) : Nat :=
  countIf (∃ guard, t.guard = some guard ∧ ∀ valuation, guard.eval valuation = true) 1

theorem length_probe (hexact : oracle.Exact) {machine : String} {t : Transition} {guard : Formula}
    (hguard : t.guard = some guard) {found : List Violation}
    (hfound : (probe machine t guard oracle).result = .ok found) : found.length = count t := by
  rcases probe_cases hexact hguard hfound with ⟨htautological, rfl⟩ | ⟨hother, rfl⟩
  · exact (countIf_pos htautological 1).symm
  · exact (countIf_neg hother 1).symm

theorem tally (hexact : oracle.Exact) (model : Model) :
    Tally oracle (probes model)
      (total (fun m => total (fun state => total count (leaving m state)) (reachable m))
        model.machines) := by
  apply Tally.flatMap
  intro m _
  rw [← total_flatMap, machineProbes, List.filterMap_eq_flatMap_toList]
  apply Tally.flatMap
  intro t _
  cases hguard : t.guard with
  | some guard => exact .single fun found => length_probe hexact hguard
  | none =>
    have hzero : count t = 0 := by
      apply countIf_neg
      rintro ⟨guard, hsome, -⟩
      rw [hguard] at hsome
      cases hsome
    rw [hzero]
    exact .nil

end Tautology

/-- How many violations of the property the model has. -/
noncomputable def Property.count : Property → Model → Nat
  | initialization, model => total Initialization.count model.machines
  | singleWriting, model => {id | (model.writers id).Nontrivial}.ncard
  | writtenAtLeastOnce, model =>
    {id | (model.readers id).Nonempty ∧ ¬ (model.writers id).Nonempty}.ncard
  | noUselessVariables, model =>
    {id | (model.writers id).Nonempty ∧ ¬ (model.readers id).Nonempty}.ncard
  | determinism, model => total Determinism.Pair.count (Determinism.pairs model)
  | coherentWriting, model =>
    total (fun m => total (CoherentWriting.aftermath model m) m.transitions) model.machines +
      pairTotal CoherentWriting.crossing model.machines
  | tautology, model =>
    total (fun m => total (fun state => total Tautology.count (Tautology.leaving m state))
      (Tautology.reachable m)) model.machines

theorem Property.tally (hexact : oracle.Exact) {model : Model} (hnames : model.machineNames.Nodup)
    (property : Property) : Tally oracle (property.probes model) (property.count model) := by
  cases property with
  | initialization => exact Initialization.tally model
  | singleWriting =>
    have htally : Tally oracle _ _ := Writing.tally Writing.concurrent model
    rwa [Writing.length_concurrent] at htally
  | writtenAtLeastOnce =>
    have htally : Tally oracle _ _ := Writing.tally Writing.neverWritten model
    rwa [Writing.length_neverWritten] at htally
  | noUselessVariables =>
    have htally : Tally oracle _ _ := Writing.tally Writing.useless model
    rwa [Writing.length_useless] at htally
  | determinism => exact Determinism.tally hexact model
  | coherentWriting => exact CoherentWriting.tally hexact hnames
  | tautology => exact Tautology.tally hexact model

end GuardedMachines.Verification
