import GuardedMachines.Proofs.Reordering
import GuardedMachines.Proofs.Substitution
import GuardedMachines.Proofs.TruthTable
import GuardedMachines.Proofs.Verification.Loops

/-!
Which questions a verification puts to its oracle: whether two guards of the model
hold together, the second one also as it is after the writes of the first
transition, and whether a guard can fail. A verification keeps its result with
another oracle that answers these questions as the first one does. If any two
guards of a model have fewer than 2 ^ 31 variables together, then so has every
question, and verification by diagrams is verification by an exact oracle.
-/

namespace GuardedMachines

/-- The second query has the answer of the first one, if there is one. -/
def Query.Kept {α : Type} (x y : Query α) : Prop := ∀ a, x.result = .ok a → y.result = .ok a

namespace Query.Kept

variable {α β : Type}

theorem refl (x : Query α) : x.Kept x := fun _ h => h

theorem bind {x y : Query α} {f g : α → Query β} (h : x.Kept y) (hnext : ∀ a, (f a).Kept (g a)) :
    (x >>= f).Kept (y >>= g) := by
  intro b hb
  obtain ⟨a, ha, hb⟩ := Query.result_bind_eq_ok.mp hb
  exact Query.result_bind_eq_ok.mpr ⟨a, h a ha, hnext a b hb⟩

theorem lift_bind {x : Traced α} {f g : α → Query β} (h : (f x.value).Kept (g x.value)) :
    ((liftM x : Query α) >>= f).Kept (liftM x >>= g) := h

end Query.Kept

structure Oracle.ExtendsAt (oracle oracle' : Oracle) (cnf : Cnf) : Prop where
  solve : (oracle.solve cnf).Kept (oracle'.solve cnf)
  countModels : (oracle.countModels cnf).Kept (oracle'.countModels cnf)

def Model.transitions (model : Model) : List Transition :=
  model.machines.flatMap Machine.transitions

theorem Model.mem_transitions {model : Model} {m : Machine} {t : Transition}
    (hm : m ∈ model.machines) (ht : t ∈ m.transitions) : t ∈ model.transitions :=
  List.mem_flatMap.mpr ⟨m, hm, ht⟩

namespace Verification

inductive Question (model : Model) : Option Formula → Prop
  | together {t u : Transition} (ht : t ∈ model.transitions) (hu : u ∈ model.transitions) :
      Question model (Formula.conjunction t.guard u.guard)
  | afterwards {t u : Transition} {guard : Option Formula} (ht : t ∈ model.transitions)
      (hu : u ∈ model.transitions) (hguard : CoherentWriting.guardAfter t u = some guard) :
      Question model (Formula.conjunction t.guard guard)
  | negated {t : Transition} {guard : Formula} (ht : t ∈ model.transitions)
      (hguard : t.guard = some guard) : Question model (some guard.neg)

def AgreeOn (model : Model) (oracle oracle' : Oracle) : Prop :=
  ∀ guard, Question model guard → oracle.ExtendsAt oracle' (.ofGuard guard)

variable {model : Model} {mode : Mode} {oracle oracle' : Oracle}

theorem Determinism.probe_kept (hagree : AgreeOn model oracle oracle') (machine state : String)
    {t u : Transition} (ht : t ∈ model.transitions) (hu : u ∈ model.transitions) :
    (probe machine state t u oracle).Kept (probe machine state t u oracle') := by
  have hasked := hagree _ (.together ht hu)
  refine .lift_bind (.lift_bind ?_)
  rw [Cnf.value_ofGuardTraced]
  refine .bind hasked.solve fun verdict => ?_
  cases verdict with
  | unsatisfiable => exact .refl _
  | satisfiable witness => cases t.sameEffect u with
    | true => exact .refl _
    | false => exact .bind hasked.countModels fun _ => .refl _

theorem Determinism.probes_kept (hagree : AgreeOn model oracle oracle') :
    ∀ probe ∈ probes model, (probe oracle).Kept (probe oracle') := by
  intro probe hprobe
  obtain ⟨m, hm, hprobe⟩ := List.mem_flatMap.mp hprobe
  obtain ⟨s, hs, hprobe⟩ := List.mem_flatMap.mp hprobe
  obtain ⟨⟨t, u⟩, hrivals, rfl⟩ := List.mem_map.mp hprobe
  obtain ⟨⟨t, later⟩, hrest, hpair⟩ := List.mem_flatMap.mp hrivals
  obtain ⟨u, hu, heq⟩ := List.mem_map.mp hpair
  cases heq
  have hleaving : ∀ {t}, t ∈ s.transitions → t ∈ model.transitions := fun ht =>
    Model.mem_transitions hm (List.mem_flatMap.mpr ⟨s, hs, ht⟩)
  obtain ⟨ht, hu⟩ := mem_of_mem_positionPairs
    (mem_positionPairs.mpr ⟨later, hrest, (List.mem_filter.mp hu).1⟩)
  exact probe_kept hagree _ _ (hleaving ht) (hleaving hu)

theorem Initialization.probes_kept (model : Model) :
    ∀ probe ∈ probes model, (probe oracle).Kept (probe oracle') := by
  intro probe hprobe
  obtain ⟨m, -, hprobe⟩ := List.mem_flatMap.mp hprobe
  unfold machineProbes at hprobe
  cases hinitial : m.state? initialState with
  | none =>
    rw [hinitial] at hprobe
    rw [List.mem_singleton.mp hprobe]
    exact .refl _
  | some initial =>
    rw [hinitial] at hprobe
    obtain ⟨t, -, rfl⟩ := List.mem_map.mp hprobe
    exact .refl _

namespace CoherentWriting

theorem jointProbe_kept {g h : Option Formula}
    (hasked : oracle.ExtendsAt oracle' (.ofGuard (Formula.conjunction g h))) (record : Record)
    (report : Witness → List Violation) :
    (jointProbe record g h report oracle).Kept (jointProbe record g h report oracle') := by
  refine .lift_bind (.lift_bind ?_)
  rw [Cnf.value_ofGuardTraced]
  refine .bind hasked.solve fun verdict => ?_
  cases verdict <;> exact .refl _

theorem mem_sites {m : Machine} {site : Site} :
    site ∈ sites m ↔ ∃ u ∈ m.transitions, site = ⟨m.name, u⟩ := by
  simp only [sites, List.mem_map, eq_comm]

theorem mem_followers {reacting : List Machine} {m : Machine} {t : Transition} {site : Site} :
    site ∈ followers reacting m t ↔
      (∃ s u, m.state? t.destination = some s ∧ u ∈ s.transitions ∧ site = ⟨m.name, u⟩) ∨
        ∃ n u, n ∈ reacting ∧ u ∈ n.transitions ∧ site = ⟨n.name, u⟩ := by
  unfold followers
  simp only [List.mem_append, List.mem_map, List.mem_flatMap, mem_sites]
  cases m.state? t.destination <;> simp [eq_comm]

theorem mem_reacting {model : Model} {activation : Activation} {m n : Machine} :
    n ∈ reacting model activation m ↔
      ∃ name ∈ activation.successors m.name, name ≠ m.name ∧ model.machine? name = some n := by
  simp only [reacting, List.mem_filterMap, List.mem_filter, bne_iff_ne, and_assoc]

theorem mem_transitions_of_mem_followers {activation : Activation} {m : Machine} {t : Transition}
    {site : Site} (hm : m ∈ model.machines)
    (h : site ∈ followers (reacting model activation m) m t) :
    site.transition ∈ model.transitions := by
  rcases mem_followers.mp h with ⟨s, u, hs, hu, rfl⟩ | ⟨n, u, hn, hu, rfl⟩
  · exact Model.mem_transitions hm (List.mem_flatMap.mpr ⟨s, List.mem_of_find?_eq_some hs, hu⟩)
  · obtain ⟨name, -, -, hfind⟩ := mem_reacting.mp hn
    exact Model.mem_transitions (List.mem_of_find?_eq_some hfind) hu

theorem probes_kept (hagree : AgreeOn model oracle oracle') :
    ∀ probe ∈ probes model, (probe oracle).Kept (probe oracle') := by
  intro probe hprobe
  obtain ⟨⟨m, later⟩, hrest, hprobe⟩ := List.mem_flatMap.mp hprobe
  obtain ⟨t, ht, hprobe⟩ := List.mem_flatMap.mp hprobe
  have hm : m ∈ model.machines := mem_of_mem_withRest hrest
  have ht : t ∈ model.transitions := Model.mem_transitions hm ht
  rcases List.mem_cons.mp hprobe with rfl | hprobe
  · exact .refl _
  rcases List.mem_append.mp hprobe with hprobe | hprobe
  · obtain ⟨second, hsecond, rfl⟩ := List.mem_map.mp hprobe
    obtain ⟨n, hn, hsecond⟩ := List.mem_flatMap.mp (List.mem_filter.mp hsecond).1
    obtain ⟨u, hu, rfl⟩ := mem_sites.mp hsecond
    have hn := (mem_of_mem_positionPairs (mem_positionPairs.mpr ⟨later, hrest, hn⟩)).2
    exact jointProbe_kept (hagree _ (.together ht (Model.mem_transitions hn hu))) _ _
  · obtain ⟨second, hsecond, hasked⟩ := List.mem_filterMap.mp hprobe
    dsimp only at hasked
    split at hasked
    · obtain ⟨guard, hguard, rfl⟩ := Option.map_eq_some_iff.mp hasked
      have hu := mem_transitions_of_mem_followers hm hsecond
      exact jointProbe_kept (hagree _ (.afterwards ht hu hguard)) _ _
    · cases hasked

end CoherentWriting

theorem Tautology.probes_kept (hagree : AgreeOn model oracle oracle') :
    ∀ probe ∈ probes model, (probe oracle).Kept (probe oracle') := by
  intro probe hprobe
  obtain ⟨m, hm, hprobe⟩ := List.mem_flatMap.mp hprobe
  obtain ⟨t, ht, hprobe⟩ := List.mem_filterMap.mp hprobe
  obtain ⟨guard, hguard, rfl⟩ := Option.map_eq_some_iff.mp hprobe
  obtain ⟨state, -, ht⟩ := List.mem_flatMap.mp ht
  have ht := Model.mem_transitions hm (mem_transitions_of_mem_leaving ht)
  have hasked := hagree _ (.negated ht hguard)
  refine .lift_bind (.bind (.bind hasked.solve fun _ => .refl _) fun satisfiable => ?_)
  cases satisfiable <;> exact .refl _

theorem Property.probes_kept (hagree : AgreeOn model oracle oracle') (property : Property) :
    ∀ probe ∈ property.probes model, (probe oracle).Kept (probe oracle') := by
  have hwriting : ∀ violations, ∀ probe ∈ Writing.probes violations model,
      (probe oracle).Kept (probe oracle') := by
    intro violations probe hprobe
    rw [List.mem_singleton.mp hprobe]
    exact .refl _
  cases property with
  | initialization => exact Initialization.probes_kept model
  | singleWriting => exact hwriting _
  | writtenAtLeastOnce => exact hwriting _
  | noUselessVariables => exact hwriting _
  | determinism => exact Determinism.probes_kept hagree
  | coherentWriting => exact CoherentWriting.probes_kept hagree
  | tautology => exact Tautology.probes_kept hagree

theorem search_kept (unit : String) {probes : List Probe}
    (h : ∀ probe ∈ probes, (probe oracle).Kept (probe oracle')) :
    (search unit mode oracle probes).Kept (search unit mode oracle' probes) := by
  induction probes with
  | nil => exact .refl _
  | cons probe rest ih =>
    have hrest := ih fun probe hprobe => h probe (List.mem_cons_of_mem _ hprobe)
    refine .bind (h probe List.mem_cons_self) fun found => .lift_bind ?_
    split
    · exact .refl _
    · exact .bind hrest fun _ => .refl _

theorem verify_kept (hagree : AgreeOn model oracle oracle') (property : Property) :
    (verify property model oracle mode).Kept (verify property model oracle' mode) := by
  rw [verify_eq_search, verify_eq_search]
  exact .lift_bind (.bind (search_kept _ (property.probes_kept hagree)) fun _ => .refl _)

end Verification

/-- Any two guards have together fewer variables than there are positive words. -/
def Model.Narrow (model : Model) : Prop :=
  ∀ t ∈ model.transitions, ∀ u ∈ model.transitions,
    (Guard.ids t.guard ∪ Guard.ids u.guard).card < 2147483648

instance (model : Model) : Decidable model.Narrow :=
  inferInstanceAs (Decidable (∀ t ∈ model.transitions, ∀ u ∈ model.transitions, _ < _))

namespace Verification

variable {model : Model} {mode : Mode} {oracle : Oracle}

theorem CoherentWriting.ids_guardAfter_subset {t u : Transition} {guard : Option Formula}
    (h : guardAfter t u = some guard) : Guard.ids guard ⊆ Guard.ids u.guard := by
  unfold guardAfter at h
  cases hu : u.guard with
  | none =>
    rw [hu] at h
    cases h
    exact Finset.Subset.refl _
  | some f =>
    rw [hu] at h
    dsimp only at h
    cases hleft : f.assign (writtenValuation t.actions) with
    | constant b =>
      rw [hleft] at h
      cases b with
      | true =>
        cases h
        exact Finset.empty_subset _
      | false => cases h
    | formula g =>
      rw [hleft] at h
      cases h
      intro id hid
      obtain ⟨v, hv, rfl⟩ := mem_idSet.mp hid
      have hatom : v ∈ (f.assign (writtenValuation t.actions)).atoms := by
        rw [hleft]
        exact hv
      exact mem_idSet.mpr ⟨v, (Formula.mem_atoms_assign hatom).1, rfl⟩

theorem Question.card_ids_lt {guard : Option Formula} (h : Question model guard)
    (hnarrow : model.Narrow) : (Guard.ids guard).card < 2147483648 := by
  cases h with
  | together ht hu =>
    rw [Guard.ids_conjunction]
    exact hnarrow _ ht _ hu
  | afterwards ht hu hguard =>
    have hsub := CoherentWriting.ids_guardAfter_subset hguard
    rw [Guard.ids_conjunction]
    exact (Finset.card_le_card (Finset.union_subset_union_right hsub)).trans_lt
      (hnarrow _ ht _ hu)
  | @negated t f ht hguard =>
    have hlt := hnarrow t ht t ht
    rwa [Finset.union_self, hguard] at hlt

/-- In a narrow model nothing is asked that an exact oracle would leave open. -/
theorem verify_narrow (hnarrow : model.Narrow) {property : Property} {report : Report}
    (h : (verify property model oracle mode).result = .ok report) :
    (verify property model oracle.narrow mode).result = .ok report := by
  refine verify_kept (fun guard hguard => ?_) property report h
  have hcnf : (Cnf.ofGuard guard).vars.length < 2147483648 := by
    rw [Cnf.length_vars_ofGuard]
    exact hguard.card_ids_lt hnarrow
  exact ⟨fun _ h => Query.result_narrow_eq_ok.mpr ⟨hcnf, h⟩,
    fun _ h => Query.result_narrow_eq_ok.mpr ⟨hcnf, h⟩⟩

end Verification

end GuardedMachines
