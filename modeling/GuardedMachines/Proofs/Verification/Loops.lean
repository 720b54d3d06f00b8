import GuardedMachines.Proofs.Verification.Reachability
import GuardedMachines.Proofs.Verification.Search
import GuardedMachines.Verification.Property

/-!
The loops of a property go along a list of probes. From where its mode looks for
more, a check follows the probes if it ends as a search over them does: what the
search finds is reported after what was reported before, and the check is done if
the mode is. Reports follow, and what follows does so in sequence and in loops.
Verifying a property in either mode is therefore a search over its probes.
-/

namespace GuardedMachines.Verification

namespace Check

@[simp] theorem pass_andThen (check : Check) : pass.andThen check = check := rfl

@[simp] theorem andThen_pass (check : Check) : check.andThen pass = check := by
  funext reported
  conv_rhs => rw [← bind_pure (check reported)]
  rw [andThen]
  congr 1
  funext step
  cases step <;> rfl

theorem andThen_assoc (first second third : Check) :
    (first.andThen second).andThen third = first.andThen (second.andThen third) := by
  funext reported
  simp only [andThen, bind_assoc]
  congr 1
  funext step
  cases step <;> rfl

theorem forEach_map {α β : Type} (f : α → β) (l : List α) (body : β → Check) :
    forEach (l.map f) body = forEach l fun a => body (f a) := by
  induction l with
  | nil => rfl
  | cons a l ih => rw [List.map_cons, forEach, forEach, ih]

/-- The check ends as a search over the probes does. -/
def Follows (unit : String) (mode : Mode) (oracle : Oracle) (check : Check)
    (probes : List Probe) : Prop :=
  ∀ reported, mode.isDone reported = false → check reported = do
    let found ← search unit mode oracle probes
    return mode.next (reported ++ found)

namespace Follows

variable {unit : String} {mode : Mode} {oracle : Oracle} {check check' : Check}
  {probes probes' : List Probe}

theorem pass : Follows unit mode oracle pass [] := by
  intro reported hreported
  rw [search, pure_bind, List.append_nil, Mode.next, hreported]
  rfl

theorem andThen (h : Follows unit mode oracle check probes)
    (h' : Follows unit mode oracle check' probes') :
    Follows unit mode oracle (check.andThen check') (probes ++ probes') := by
  intro reported hreported
  rw [Check.andThen, h reported hreported, search_append_eq, bind_assoc, bind_assoc]
  congr 1
  funext found
  have hfound := Mode.isDone_append hreported found
  rw [pure_bind, Mode.next, hfound]
  cases hdone : mode.isDone found with
  | true => simp [Mode.next, hfound, hdone]
  | false =>
    simp only [Bool.false_eq_true, if_false, bind_assoc, pure_bind]
    rw [h' _ (hfound.trans hdone)]
    simp only [List.append_assoc]

theorem forEach {α : Type} {l : List α} {body : α → Check} {place : α → List Probe}
    (h : ∀ a ∈ l, Follows unit mode oracle (body a) (place a)) :
    Follows unit mode oracle (.forEach l body) (l.flatMap place) := by
  induction l with
  | nil => exact pass
  | cons a l ih =>
    rw [List.flatMap_cons]
    exact (h a List.mem_cons_self).andThen (ih fun b hb => h b (List.mem_cons_of_mem _ hb))

/-- What is found without an oracle is reported one by one. -/
theorem forEach_push (found : List Violation) :
    Follows unit mode oracle (.forEach found (push unit mode)) [.found found] := by
  intro reported hreported
  simp only [search, Probe.found, pure_bind, List.append_nil, ite_self, bind_assoc]
  cases mode with
  | firstViolation =>
    have hnil : reported = [] := by simpa [Mode.isDone] using hreported
    subst hnil
    cases found <;> rfl
  | allViolations =>
    clear hreported
    induction found generalizing reported with
    | nil => exact congrArg (fun l => pure (ForInStep.yield l)) (List.append_nil reported).symm
    | cons v rest ih =>
      have hrest : Check.forEach (v :: rest) (push unit .allViolations) reported = (do
          Traced.note (.warn fun _ => unit ++ ": " ++ v.text)
          Check.forEach rest (push unit .allViolations) (reported ++ [v])) := rfl
      rw [hrest, ih (reported ++ [v]), List.append_assoc]
      rfl

theorem probe (probe : Probe) :
    Follows unit mode oracle (probe.check (push unit mode) oracle) [probe] := by
  intro reported hreported
  have hsearch : search unit mode oracle [probe] =
      probe oracle >>= fun found => search unit mode oracle [.found found] := rfl
  rw [hsearch, bind_assoc, Probe.check]
  congr 1
  funext found
  exact forEach_push found reported hreported

theorem push (violation : Violation) :
    Follows unit mode oracle (push unit mode violation) [.found [violation]] := by
  have hsingle : Follows unit mode oracle (.forEach [violation] (Check.push unit mode))
      [.found [violation]] := forEach_push [violation]
  rwa [Check.forEach, Check.forEach, andThen_pass] at hsingle

variable {α : Type} {l : List α} {body : α → Check}

theorem forEach_filterMap {place? : α → Option Probe}
    (h : ∀ a ∈ l, Follows unit mode oracle (body a) (place? a).toList) :
    Follows unit mode oracle (.forEach l body) (l.filterMap place?) := by
  rw [List.filterMap_eq_flatMap_toList]
  exact forEach h

/-- A loop that passes some of the places follows the probes of the others. -/
theorem forEach_filter {kept : α → Bool} {place : α → Probe}
    (hkept : ∀ a, kept a = true → Follows unit mode oracle (body a) [place a])
    (hpassed : ∀ a, kept a = false → body a = .pass) :
    Follows unit mode oracle (.forEach l body) ((l.filter kept).map place) := by
  induction l with
  | nil => exact pass
  | cons a l ih =>
    cases ha : kept a with
    | true =>
      rw [List.filter_cons_of_pos ha]
      exact (hkept a ha).andThen ih
    | false =>
      rw [List.filter_cons_of_neg (by simp [ha]), Check.forEach, hpassed a ha]
      exact ih

end Follows

end Check

open Check

variable {unit : String} {mode : Mode} {oracle : Oracle}

namespace Determinism

def rivals (transitions : List Transition) : List (Transition × Transition) :=
  (withRest transitions).flatMap fun (t, rest) =>
    (rest.filter fun u => t.events.intersects u.events).map fun u => (t, u)

def stateProbes (machine : String) (s : State) : List Probe :=
  (rivals s.transitions).map fun (t, u) => probe machine s.name t u

def machineProbes (m : Machine) : List Probe := m.states.flatMap (stateProbes m.name)

def probes (model : Model) : List Probe := model.machines.flatMap machineProbes

theorem check_follows (model : Model) :
    Follows unit mode oracle (check (push unit mode) oracle model) (probes model) := by
  refine .forEach fun m _ => .forEach fun s _ => ?_
  rw [stateProbes, rivals, List.map_flatMap]
  refine .forEach ?_
  rintro ⟨t, later⟩ _
  rw [List.map_map]
  refine .forEach_filter (fun u hu => ?_) fun u hu => ?_
  · rw [hu, if_pos rfl]
    exact .probe _
  · rw [hu, if_neg Bool.false_ne_true]

end Determinism

namespace Initialization

def violations (machine : String) (t : Transition) : List Violation :=
  let site : Site := ⟨machine, t⟩
  (if t.guard.isSome then [.guardedInitialization site] else []) ++
    (if t.events.isEmpty then [] else [.triggeredInitialization site])

def machineProbes (m : Machine) : List Probe :=
  match m.state? initialState with
  | none => [.found [.missingInitialState m.name]]
  | some initial => initial.transitions.map fun t => .found (violations m.name t)

def probes (model : Model) : List Probe := model.machines.flatMap machineProbes

theorem checkTransition_eq (report : Violation → Check) (machine : String) (t : Transition) :
    checkTransition report machine t = .forEach (violations machine t) report := by
  unfold checkTransition violations
  cases t.guard.isSome <;> cases t.events.isEmpty <;> simp [forEach]

theorem check_follows (model : Model) :
    Follows unit mode oracle (check (push unit mode) model) (probes model) := by
  refine .forEach fun m _ => ?_
  unfold machineProbes
  cases m.state? initialState with
  | none => exact .push _
  | some initial =>
    dsimp only
    rw [List.map_eq_flatMap]
    refine .forEach fun t _ => ?_
    rw [checkTransition_eq]
    exact .forEach_push _

end Initialization

namespace Writing

def concurrent (usage : Usage) : List Violation := usage.writers.filterMap concurrent?

def neverWritten (usage : Usage) : List Violation :=
  usage.readers.filterMap (neverWritten? usage)

def useless (usage : Usage) : List Violation := usage.writers.filterMap (useless? usage)

def probes (violations : Usage → List Violation) (model : Model) : List Probe :=
  [.found (violations (.ofModel model))]

theorem checkEntries_eq (report : Violation → Check) (entries : Register Variable)
    (violation? : Variable × List String → Option Violation) :
    checkEntries report entries violation? = .forEach (entries.filterMap violation?) report := by
  unfold checkEntries
  induction entries with
  | nil => rfl
  | cons entry rest ih =>
    rw [forEach, ih]
    cases hfound : violation? entry with
    | none => rw [List.filterMap_cons_none hfound, pass_andThen]
    | some violation => rw [List.filterMap_cons_some hfound, forEach]

theorem checkEntries_follows (entries : Register Variable)
    (violation? : Variable × List String → Option Violation) :
    Follows unit mode oracle (checkEntries (push unit mode) entries violation?)
      [.found (entries.filterMap violation?)] := by
  rw [checkEntries_eq]
  exact .forEach_push _

end Writing

namespace CoherentWriting

def sameTransition (site : Site) : Probe :=
  .found ((conflicts site.transition.actions site.transition.actions).map fun v =>
    .conflictingWrites v site)

def sameStepProbes (first : Site) (later : List Machine) : List Probe :=
  let t := first.transition
  ((later.flatMap sites).filter fun second =>
      t.events.intersects second.transition.events &&
        !(conflicts t.actions second.transition.actions).isEmpty).map (sameStep first)

def propagationProbes (first : Site) (followers : List Site) : List Probe :=
  let t := first.transition
  followers.filterMap fun second =>
    let u := second.transition
    if u.events.intersects t.actions.produced && !(conflicts t.actions u.actions).isEmpty then
      (guardAfter t u).map (propagation first second)
    else none

def transitionProbes (reacting later : List Machine) (m : Machine) (t : Transition) : List Probe :=
  let site : Site := ⟨m.name, t⟩
  sameTransition site ::
    (sameStepProbes site later ++ propagationProbes site (followers reacting m t))

def probesWith (reacting : Machine → List Machine) (model : Model) : List Probe :=
  (withRest model.machines).flatMap fun (m, later) =>
    m.transitions.flatMap (transitionProbes (reacting m) later m)

def probes (model : Model) : List Probe :=
  let activation := Activation.ofModel model
  probesWith (reacting model activation) model

theorem checkWithin_follows (site : Site) :
    Follows unit mode oracle (checkWithin (push unit mode) site) [sameTransition site] := by
  rw [checkWithin, ← forEach_map]
  exact .forEach_push _

theorem checkSameStep_follows (first : Site) (later : List Machine) :
    Follows unit mode oracle (checkSameStep (push unit mode) oracle first later)
      (sameStepProbes first later) := by
  rw [sameStepProbes, List.filter_flatMap, List.map_flatMap]
  refine .forEach fun n _ => ?_
  rw [sites, List.filter_map, List.map_map]
  refine .forEach_filter (fun u hu => ?_) fun u hu => ?_
  · obtain ⟨hevent, hconflict⟩ : first.transition.events.intersects u.events = true ∧
        (conflicts first.transition.actions u.actions).isEmpty = false := by simpa using hu
    rw [hevent, hconflict]
    exact .probe _
  · cases hevent : first.transition.events.intersects u.events with
    | false => rfl
    | true =>
      have hconflict : (conflicts first.transition.actions u.actions).isEmpty = true := by
        simpa [hevent] using hu
      rw [hconflict]
      rfl

theorem checkPropagation_follows (first : Site) (followers : List Site) :
    Follows unit mode oracle (checkPropagation (push unit mode) oracle first followers)
      (propagationProbes first followers) := by
  refine .forEach_filterMap fun second _ => ?_
  dsimp only
  cases second.transition.events.intersects first.transition.actions.produced with
  | false => exact .pass
  | true => cases (conflicts first.transition.actions second.transition.actions).isEmpty with
    | true => exact .pass
    | false => cases guardAfter first.transition second.transition with
      | none => exact .pass
      | some guard => exact .probe _

/-- Nothing follows a transition that produces no event. -/
theorem propagationProbes_eq_nil_of_isEmpty {first : Site}
    (h : first.transition.actions.produced.isEmpty = true) (followers : List Site) :
    propagationProbes first followers = [] := by
  have hnone : ∀ events : EventSet,
      events.intersects first.transition.actions.produced = false := by
    intro events
    have hmembers : first.transition.actions.produced.members = [] := List.isEmpty_iff.mp h
    simp [EventSet.intersects, EventSet.contains, hmembers, Ascending.contains]
  simp [propagationProbes, hnone]

theorem checkTransition_follows (reacting later : List Machine) (m : Machine) (t : Transition) :
    Follows unit mode oracle (checkTransition (push unit mode) oracle reacting later m t)
      (transitionProbes reacting later m t) := by
  refine (checkWithin_follows _).andThen ((checkSameStep_follows _ later).andThen ?_)
  split
  · next hproduced =>
    rw [propagationProbes_eq_nil_of_isEmpty hproduced]
    exact .pass
  · exact checkPropagation_follows _ _

theorem checkWith_follows (reacting : Machine → List Machine) (model : Model) :
    Follows unit mode oracle (checkWith (push unit mode) oracle reacting model)
      (probesWith reacting model) := by
  refine .forEach ?_
  rintro ⟨m, later⟩ _
  exact .forEach fun t _ => checkTransition_follows (reacting m) later m t

end CoherentWriting

namespace Tautology

def machineProbes (m : Machine) : List Probe :=
  ((reachable m).flatMap (leaving m)).filterMap fun t => t.guard.map (probe m.name t)

def probes (model : Model) : List Probe := model.machines.flatMap machineProbes

variable {m : Machine}

/-- The guards are checked one after the other, and the exploration goes on with the destinations
that are new. -/
theorem visit_eq (report : Violation → Check) (machine : String)
    (next : List String → List String → Check) (transitions : List Transition)
    (seen queue : List String) :
    let found := fresh seen (transitions.map Transition.destination)
    visit report oracle machine next transitions seen queue =
      (forEach transitions (checkGuard report oracle machine)).andThen
        (next (seen ++ found) (queue ++ found)) := by
  induction transitions generalizing seen queue with
  | nil => simp [visit, fresh, forEach]
  | cons t rest ih =>
    dsimp only at ih ⊢
    rw [visit, ih, forEach, andThen_assoc, List.map_cons, fresh]
    split <;> simp

/-- With enough fuel the exploration checks the guards that leave the states taken from the
queue, state by state. -/
theorem Explores.explore_eq {seen queue names : List String} (h : Explores m seen queue names)
    {fuel : Nat} (hfuel : names.length ≤ fuel) (report : Violation → Check) :
    explore report oracle m fuel seen queue =
      forEach names fun state => forEach (leaving m state) (checkGuard report oracle m.name) := by
  induction h generalizing fuel with
  | stop seen => cases fuel <;> rfl
  | take hfound _ ih =>
    cases fuel with
    | zero => cases hfuel
    | succ fuel =>
      rw [explore, visit_eq, ← hfound, ih (Nat.le_of_succ_le_succ hfuel), forEach]

theorem length_reachable_le (m : Machine) : (reachable m).length ≤ m.transitions.length + 1 := by
  have hle := (exploring_reachable m).1.length_le
  rwa [List.append_nil] at hle

theorem checkGuard_follows (machine : String) (t : Transition) :
    Follows unit mode oracle (checkGuard (push unit mode) oracle machine t)
      (t.guard.map (probe machine t)).toList := by
  unfold checkGuard
  cases t.guard with
  | none => exact .pass
  | some guard => exact .probe _

theorem check_follows (model : Model) :
    Follows unit mode oracle (check (push unit mode) oracle model) (probes model) := by
  refine .forEach fun m _ => ?_
  rw [checkMachine, (explores_reachable m).explore_eq (length_reachable_le m), machineProbes,
    List.filterMap_flatMap]
  exact .forEach fun state _ => .forEach_filterMap fun t _ => checkGuard_follows m.name t

end Tautology

def Property.probes : Property → Model → List Probe
  | initialization => Initialization.probes
  | singleWriting => Writing.probes Writing.concurrent
  | writtenAtLeastOnce => Writing.probes Writing.neverWritten
  | noUselessVariables => Writing.probes Writing.useless
  | determinism => Determinism.probes
  | coherentWriting => CoherentWriting.probes
  | tautology => Tautology.probes

theorem Property.check_follows (property : Property) (model : Model) :
    Follows unit mode oracle (property.check (push unit mode) oracle model)
      (property.probes model) := by
  cases property with
  | initialization => exact Initialization.check_follows model
  | singleWriting => exact Writing.checkEntries_follows _ _
  | writtenAtLeastOnce => exact Writing.checkEntries_follows _ _
  | noUselessVariables => exact Writing.checkEntries_follows _ _
  | determinism => exact Determinism.check_follows model
  | coherentWriting => exact CoherentWriting.checkWith_follows _ model
  | tautology => exact Tautology.check_follows model

/-- In either mode verification is a search over the probes of the property. -/
theorem verify_eq_search (property : Property) (model : Model) (oracle : Oracle) (mode : Mode) :
    verify property model oracle mode = do
      Traced.notes (property.preamble model)
      let violations ← search property.name mode oracle (property.probes model)
      return ⟨property, violations⟩ := by
  have hvalue : ∀ found, (mode.next found).value = found := by
    intro found
    unfold Mode.next
    split <;> rfl
  unfold verify
  rw [property.check_follows model [] mode.isDone_nil]
  simp only [bind_assoc, pure_bind, List.nil_append, hvalue]

theorem result_verify (property : Property) (model : Model) (mode : Mode) :
    (verify property model oracle mode).result =
      (search property.name mode oracle (property.probes model)).result.map
        (Report.mk property) := by
  rw [verify_eq_search, Query.result_lift_bind, Query.result_bind]
  rfl

theorem result_verify_single {property : Property} {model : Model} {probe : Probe}
    (h : property.probes model = [probe]) :
    (verify property model oracle .allViolations).result =
      (probe oracle).result.map (Report.mk property) := by
  rw [result_verify, h, result_search_cons]
  cases (probe oracle).result with
  | error cause => rfl
  | ok found =>
    change Except.ok (Report.mk property (found ++ [])) = _
    rw [List.append_nil]
    rfl

theorem verify_eq_ok {property : Property} {model : Model} {mode : Mode} {report : Report}
    (h : (verify property model oracle mode).result = .ok report) :
    (search property.name mode oracle (property.probes model)).result = .ok report.violations := by
  rw [result_verify] at h
  cases hsearch : (search property.name mode oracle (property.probes model)).result with
  | error cause =>
    rw [hsearch] at h
    cases h
  | ok violations =>
    rw [hsearch] at h
    cases h
    rfl

end GuardedMachines.Verification
