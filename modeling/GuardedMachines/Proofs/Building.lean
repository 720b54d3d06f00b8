import GuardedMachines.Proofs.Reordering

/-!
Models as they are built: from the empty model by adding machines, and states and
transitions to a machine. A machine or a state is added only if its name is not in
use, so a model that was built uses no name twice.
-/

namespace GuardedMachines

/-- A member with a new name may be added at the end. -/
theorem nodup_map_append {α : Type} {name : α → String} {l : List α} {a : α}
    (h : (l.map name).Nodup) (hnew : name a ∉ l.map name) : ((l ++ [a]).map name).Nodup := by
  rw [List.map_append, List.nodup_append]
  refine ⟨h, List.nodup_singleton _, ?_⟩
  rintro used hused _ hname rfl
  exact hnew (List.mem_singleton.mp hname ▸ hused)

namespace Machine

inductive Grows : Machine → Machine → Prop
  | addState {m m' : Machine} {name : String} (h : m.addState name = .ok m') : Grows m m'
  | ensureState (m : Machine) (name : String) : Grows m (m.ensureState name)
  | addTransition (m : Machine) (t : Transition) : Grows m (m.addTransition t)

variable {m m' : Machine}

theorem isSome_state?_iff {name : String} :
    (m.state? name).isSome = true ↔ name ∈ m.states.map State.name := by
  simp [state?, List.find?_isSome]

@[simp] theorem name_ensureState (m : Machine) (name : String) :
    (m.ensureState name).name = m.name := by
  unfold ensureState
  split <;> rfl

theorem ensureState_of_addState {name : String} (h : m.addState name = .ok m') :
    m' = m.ensureState name := by
  unfold addState at h
  split at h
  · cases h
  · exact (Except.ok.inj h).symm

/-- Adding a transition adds no state besides those it names. -/
theorem map_name_addTransition (m : Machine) (t : Transition) :
    (m.addTransition t).states.map State.name =
      ((m.ensureState t.destination).ensureState t.source).states.map State.name := by
  unfold addTransition
  rw [List.map_map]
  apply List.map_congr_left
  intro s _
  dsimp only [Function.comp_apply]
  split <;> rfl

theorem WellNamed.ensureState (h : m.WellNamed) (name : String) :
    (m.ensureState name).WellNamed := by
  unfold Machine.ensureState
  split
  · exact h
  · next hnew =>
    rw [isSome_state?_iff] at hnew
    exact nodup_map_append h hnew

theorem WellNamed.addTransition (h : m.WellNamed) (t : Transition) :
    (m.addTransition t).WellNamed := by
  unfold WellNamed
  rw [map_name_addTransition]
  exact (h.ensureState t.destination).ensureState t.source

namespace Grows

theorem name_eq (h : m.Grows m') : m'.name = m.name := by
  cases h with
  | addState h =>
    rw [ensureState_of_addState h]
    exact name_ensureState _ _
  | ensureState name => exact name_ensureState _ _
  | addTransition t =>
    show ((m.ensureState t.destination).ensureState t.source).name = m.name
    rw [name_ensureState, name_ensureState]

theorem wellNamed (h : m.Grows m') (hm : m.WellNamed) : m'.WellNamed := by
  cases h with
  | addState h =>
    rw [ensureState_of_addState h]
    exact hm.ensureState _
  | ensureState name => exact hm.ensureState name
  | addTransition t => exact hm.addTransition t

end Grows

end Machine

namespace Model

/-- The models that calls make out of an empty one. -/
inductive Built : Model → Prop
  | new (name : String) : Built (new name)
  | addMachine {model model' : Model} {name : String} (h : Built model)
      (hadd : model.addMachine name = .ok model') : Built model'
  | grow {model : Model} {m m' : Machine} (h : Built model) (hm : m ∈ model.machines)
      (hgrows : m.Grows m') : Built (model.setMachine m')

variable {model model' : Model}

theorem machineNames_setMachine (model : Model) (m : Machine) :
    (model.setMachine m).machineNames = model.machineNames := by
  unfold setMachine machineNames
  rw [List.map_map]
  apply List.map_congr_left
  intro n _
  dsimp only [Function.comp_apply]
  split
  · next hname => exact (beq_iff_eq.mp hname).symm
  · rfl

theorem WellNamed.setMachine (h : model.WellNamed) {m : Machine} (hm : m.WellNamed) :
    (model.setMachine m).WellNamed := by
  constructor
  · rw [machineNames_setMachine]
    exact h.machines
  · intro n hn
    obtain ⟨k, hk, rfl⟩ := List.mem_map.mp hn
    split
    · exact hm
    · exact h.states k hk

theorem WellNamed.addMachine {name : String} (h : model.WellNamed)
    (hadd : model.addMachine name = .ok model') : model'.WellNamed := by
  unfold Model.addMachine at hadd
  split at hadd
  · cases hadd
  · next hnew =>
    rw [isSome_machine?_iff] at hnew
    obtain rfl := Except.ok.inj hadd
    constructor
    · exact nodup_map_append h.machines hnew
    · intro m hm
      rcases List.mem_append.mp hm with hm | hm
      · exact h.states m hm
      · rw [List.mem_singleton.mp hm]
        exact .nil

theorem Built.wellNamed (h : model.Built) : model.WellNamed := by
  induction h with
  | new name => exact ⟨.nil, fun m hm => absurd hm List.not_mem_nil⟩
  | addMachine _ hadd ih => exact ih.addMachine hadd
  | grow _ hm hgrows ih => exact ih.setMachine (hgrows.wellNamed (ih.states _ hm))

/-- The machines with other names stay as they are. -/
theorem map_set_of_notMem {m' : Machine} {machines : List Machine}
    (h : m'.name ∉ machines.map Machine.name) :
    (machines.map fun n => if n.name == m'.name then m' else n) = machines := by
  refine (List.map_congr_left fun n hn => if_neg fun hsame => ?_).trans (List.map_id machines)
  exact h (beq_iff_eq.mp hsame ▸ List.mem_map_of_mem hn)

/-- With names that are used once, a machine takes the place of one machine only. -/
theorem setMachine_between {name : String} {before after : List Machine} {m m' : Machine}
    (h : (⟨name, before ++ m :: after⟩ : Model).machineNames.Nodup) (hname : m'.name = m.name) :
    setMachine ⟨name, before ++ m :: after⟩ m' = ⟨name, before ++ m' :: after⟩ := by
  have hnodup : (before.map Machine.name ++ m'.name :: after.map Machine.name).Nodup := by
    simpa [machineNames, hname] using h
  have hnew := (List.nodup_cons.mp (List.nodup_middle.mp hnodup)).1
  rw [List.mem_append, not_or] at hnew
  have hplace : (if m.name == m'.name then m' else m) = m' := if_pos (beq_iff_eq.mpr hname.symm)
  unfold setMachine
  rw [List.map_append, List.map_cons, map_set_of_notMem hnew.1, map_set_of_notMem hnew.2, hplace]

theorem Built.grow_between {name : String} (before after : List Machine) {m m' : Machine}
    (h : Built ⟨name, before ++ m :: after⟩) (hgrows : m.Grows m') :
    Built ⟨name, before ++ m' :: after⟩ := by
  have hmem : m ∈ before ++ m :: after := List.mem_append_right before List.mem_cons_self
  rw [← setMachine_between h.wellNamed.machines hgrows.name_eq]
  exact h.grow hmem hgrows

end Model

end GuardedMachines
