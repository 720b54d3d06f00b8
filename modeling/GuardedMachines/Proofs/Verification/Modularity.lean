import GuardedMachines.Proofs.Reordering
import GuardedMachines.Proofs.Verification.Loops

/-!
Properties of single machines are verified machine by machine. A query for all
violations goes on after an answer and ends with the first bound that is reached,
so the probes of two models, one after the other, are two queries in sequence:
the composition of the models gives the violations of the first and then those of
the second, or the failure of whichever failed first.
-/

namespace GuardedMachines

theorem Model.compose_eq_error_iff {primary proof : Model} {e : ModelError} :
    primary.compose proof = .error e ↔
      ∃ before m after, proof.machines = before ++ m :: after ∧
        (∀ n ∈ before, n.name ∉ primary.machineNames) ∧ m.name ∈ primary.machineNames ∧
        e = .duplicateMachine m.name := by
  have hfirst : ∀ m, (proof.machines.find? fun m => (primary.machine? m.name).isSome) = some m ↔
      m.name ∈ primary.machineNames ∧ ∃ before after, proof.machines = before ++ m :: after ∧
        ∀ n ∈ before, n.name ∉ primary.machineNames := by
    intro m
    simp [List.find?_eq_some_iff_append, ← isSome_machine?_iff]
  unfold compose
  cases hfind : proof.machines.find? fun m => (primary.machine? m.name).isSome with
  | none =>
    constructor
    · intro h
      cases h
    · rintro ⟨before, m, after, hmachines, hbefore, hm, -⟩
      rw [(hfirst m).mpr ⟨hm, before, after, hmachines, hbefore⟩] at hfind
      cases hfind
  | some m =>
    obtain ⟨hm, before, after, hmachines, hbefore⟩ := (hfirst m).mp hfind
    constructor
    · intro h
      exact ⟨before, m, after, hmachines, hbefore, hm, (Except.error.inj h).symm⟩
    · rintro ⟨before', m', after', hmachines', hbefore', hm', rfl⟩
      have hfind' := (hfirst m').mpr ⟨hm', before', after', hmachines', hbefore'⟩
      rw [hfind] at hfind'
      cases hfind'
      rfl

namespace Verification

variable {name : String} {oracle : Oracle} {property : Property}

/-- The probes of these properties are those of the machines, one machine after the other, and
no analysis of the whole model comes before them. -/
theorem Property.probes_eq_flatMap
    (h : property ∈ [Property.determinism, .initialization, .tautology]) :
    ∃ machineProbes : Machine → List Probe, ∀ model,
      property.probes model = model.machines.flatMap machineProbes ∧
        property.preamble model = [] := by
  simp only [List.mem_cons, List.not_mem_nil, or_false] at h
  rcases h with rfl | rfl | rfl
  · exact ⟨Determinism.machineProbes, fun model => ⟨rfl, rfl⟩⟩
  · exact ⟨Initialization.machineProbes, fun model => ⟨rfl, rfl⟩⟩
  · exact ⟨Tautology.machineProbes, fun model => ⟨rfl, rfl⟩⟩

/-- Verifying the machines of two models is verifying the one and then the other model. -/
theorem verify_append (h : property ∈ [Property.determinism, .initialization, .tautology])
    {p q model : Model} (hmachines : model.machines = p.machines ++ q.machines) :
    verify property model oracle .allViolations = do
      let first ← verify property p oracle .allViolations
      let second ← verify property q oracle .allViolations
      return ⟨property, first.violations ++ second.violations⟩ := by
  obtain ⟨machineProbes, hprobes⟩ := Property.probes_eq_flatMap h
  simp only [verify_eq_search, (hprobes _).1, (hprobes _).2, Query.notes_nil_bind, hmachines,
    List.flatMap_append, search_append_eq, Mode.isDone_allViolations, Bool.false_eq_true, if_false,
    bind_assoc, pure_bind]

theorem result_verify_append (h : property ∈ [Property.determinism, .initialization, .tautology])
    {p q model : Model} (hmachines : model.machines = p.machines ++ q.machines) :
    (verify property model oracle .allViolations).result =
      (verify property p oracle .allViolations).result.bind fun first =>
        (verify property q oracle .allViolations).result.bind fun second =>
          .ok ⟨property, first.violations ++ second.violations⟩ := by
  rw [verify_append h hmachines, Query.result_bind]
  congr 1
  funext first
  rw [Query.result_bind]
  rfl

/-- Properties of single machines are modular. Models without a common machine name compose, and
the composition has the violations of the first model followed by those of the second one, or the
failure of the first model to fail. Composing fails exactly if a name is common, with the first
machine of the second model that has such a name. -/
theorem verify_composition (property : Property)
    (hproperty : property ∈ [.determinism, .initialization, .tautology]) (p q : Model)
    (oracle : Oracle) :
    ((∀ name ∈ p.machineNames, name ∉ q.machineNames) → ∃ model, p.compose q = .ok model ∧
      (∀ first second, (verify property p oracle .allViolations).result = .ok first →
        (verify property q oracle .allViolations).result = .ok second →
        (verify property model oracle .allViolations).result =
          .ok ⟨property, first.violations ++ second.violations⟩) ∧
      (∀ cause, (verify property p oracle .allViolations).result = .error cause →
        (verify property model oracle .allViolations).result = .error cause) ∧
      (∀ first cause, (verify property p oracle .allViolations).result = .ok first →
        (verify property q oracle .allViolations).result = .error cause →
        (verify property model oracle .allViolations).result = .error cause)) ∧
    ((∃ e, p.compose q = .error e) ↔ ∃ name ∈ p.machineNames, name ∈ q.machineNames) ∧
    ∀ e, p.compose q = .error e ↔
      ∃ before m after, q.machines = before ++ m :: after ∧
        (∀ n ∈ before, n.name ∉ p.machineNames) ∧ m.name ∈ p.machineNames ∧
        e = .duplicateMachine m.name := by
  refine ⟨?_, ?_, fun e => Model.compose_eq_error_iff⟩
  · intro hdisjoint
    obtain ⟨model, hcompose⟩ : ∃ model, p.compose q = .ok model :=
      ⟨_, Model.compose_eq_ok_iff.mpr ⟨fun name hq hp => hdisjoint name hp hq, rfl⟩⟩
    have hmachines : model.machines = p.machines ++ q.machines := by
      rw [(Model.compose_eq_ok_iff.mp hcompose).2]
    refine ⟨model, hcompose, ?_, ?_, ?_⟩
    · intro first second hfirst hsecond
      rw [result_verify_append hproperty hmachines, hfirst, hsecond]
      rfl
    · intro cause hp
      rw [result_verify_append hproperty hmachines, hp]
      rfl
    · intro first cause hfirst hq
      rw [result_verify_append hproperty hmachines, hfirst, hq]
      rfl
  · constructor
    · rintro ⟨e, he⟩
      obtain ⟨before, m, after, hmachines, -, hm, -⟩ := Model.compose_eq_error_iff.mp he
      refine ⟨m.name, hm, List.mem_map_of_mem ?_⟩
      rw [hmachines]
      exact List.mem_append_right before List.mem_cons_self
    · rintro ⟨name, hp, hq⟩
      cases hcompose : p.compose q with
      | error e => exact ⟨e, rfl⟩
      | ok model => exact absurd hp ((Model.compose_eq_ok_iff.mp hcompose).1 name hq)

/-- Conditions that are always true in two models whose machines use the same state names. With
room for three nodes the second model fails, and so does the composition; with more room both
violations are reported. The transition out of the initial state of the first model has a
condition and waits for an event, which are two violations at one place, and they stand before
the one of the second model. A machine that the first model has cannot be composed with it
again. -/
theorem verify_composition_of_tautologies :
    let a : Variable := ⟨⟨1, Nat.one_pos⟩, "A", .boolean⟩
    let b : Variable := ⟨⟨2, Nat.two_pos⟩, "B", .boolean⟩
    let always (f : Formula) : Formula := .disj f (.neg f)
    let go (source destination : String) (guard : Option Formula) : Transition :=
      ⟨source, destination, ⟨[.external "go"]⟩, guard, .empty⟩
    let t := go "0" "1" (some (always (.atom a)))
    let u := go "1" "0" (some (always (.conj (.atom a) (.atom b))))
    let w := go "0" "1" none
    let m : Machine := ⟨"m", [⟨"0", [t]⟩, ⟨"1", []⟩]⟩
    let n : Machine := ⟨"n", [⟨"1", [u]⟩, ⟨"0", [w]⟩]⟩
    let both : Model := ⟨"p+q", [m, n]⟩
    Model.compose ⟨"p", [m]⟩ ⟨"q", [n]⟩ = .ok both ∧
      (verify .tautology both (.diagram ⟨none, 10⟩ .stopped) .allViolations).result =
        .ok ⟨.tautology, [.tautologicalGuard ⟨"m", t⟩, .tautologicalGuard ⟨"n", u⟩]⟩ ∧
      (verify .tautology both (.diagram ⟨none, 3⟩ .stopped) .allViolations).result =
        .error (.nodeLimit 3) ∧
      (verify .initialization both (.diagram ⟨none, 3⟩ .stopped) .allViolations).result =
        .ok ⟨.initialization, [.guardedInitialization ⟨"m", t⟩, .triggeredInitialization ⟨"m", t⟩,
          .triggeredInitialization ⟨"n", w⟩]⟩ ∧
      Model.compose both ⟨"r", [⟨"k", []⟩, n, m]⟩ = .error (.duplicateMachine "n") := by
  intro a b always go t u w m n both
  have hcompose : Model.compose ⟨"p", [m]⟩ ⟨"q", [n]⟩ = .ok both := by decide +kernel
  have hten :
      (verify .tautology ⟨"p", [m]⟩ (.diagram ⟨none, 10⟩ .stopped) .allViolations).result =
        .ok ⟨.tautology, [.tautologicalGuard ⟨"m", t⟩]⟩ ∧
      (verify .tautology ⟨"q", [n]⟩ (.diagram ⟨none, 10⟩ .stopped) .allViolations).result =
        .ok ⟨.tautology, [.tautologicalGuard ⟨"n", u⟩]⟩ := by
    constructor <;> decide +kernel
  have hthree :
      (verify .tautology ⟨"p", [m]⟩ (.diagram ⟨none, 3⟩ .stopped) .allViolations).result =
        .ok ⟨.tautology, [.tautologicalGuard ⟨"m", t⟩]⟩ ∧
      (verify .tautology ⟨"q", [n]⟩ (.diagram ⟨none, 3⟩ .stopped) .allViolations).result =
        .error (.nodeLimit 3) := by
    constructor <;> decide +kernel
  have hinitial :
      (verify .initialization ⟨"p", [m]⟩ (.diagram ⟨none, 3⟩ .stopped) .allViolations).result =
        .ok ⟨.initialization,
          [.guardedInitialization ⟨"m", t⟩, .triggeredInitialization ⟨"m", t⟩]⟩ ∧
      (verify .initialization ⟨"q", [n]⟩ (.diagram ⟨none, 3⟩ .stopped) .allViolations).result =
        .ok ⟨.initialization, [.triggeredInitialization ⟨"n", w⟩]⟩ := by
    constructor <;> rfl
  have hdisjoint : ∀ name ∈ Model.machineNames ⟨"p", [m]⟩,
      name ∉ Model.machineNames ⟨"q", [n]⟩ := by
    decide
  refine ⟨hcompose, ?_, ?_, ?_, ?_⟩
  · obtain ⟨model, hmodel, hboth, -, -⟩ := (verify_composition .tautology (by decide) ⟨"p", [m]⟩
      ⟨"q", [n]⟩ (.diagram ⟨none, 10⟩ .stopped)).1 hdisjoint
    cases hcompose.symm.trans hmodel
    exact hboth _ _ hten.1 hten.2
  · obtain ⟨model, hmodel, -, -, hsecond⟩ := (verify_composition .tautology (by decide) ⟨"p", [m]⟩
      ⟨"q", [n]⟩ (.diagram ⟨none, 3⟩ .stopped)).1 hdisjoint
    cases hcompose.symm.trans hmodel
    exact hsecond _ _ hthree.1 hthree.2
  · obtain ⟨model, hmodel, hboth, -, -⟩ := (verify_composition .initialization (by decide)
      ⟨"p", [m]⟩ ⟨"q", [n]⟩ (.diagram ⟨none, 3⟩ .stopped)).1 hdisjoint
    cases hcompose.symm.trans hmodel
    exact hboth _ _ hinitial.1 hinitial.2
  · apply ((verify_composition .tautology (by decide) both ⟨"r", [⟨"k", []⟩, n, m]⟩
      (.diagram ⟨none, 3⟩ .stopped)).2.2 _).mpr
    exact ⟨[⟨"k", []⟩], n, [m], rfl, by decide, by decide, rfl⟩

end Verification

end GuardedMachines
