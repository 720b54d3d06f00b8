import GuardedMachines.Usage
import Mathlib.Data.List.Nodup
import Mathlib.Data.List.Perm.Basic

/-!
Models that differ in the order of their declarations only. Up to the order of its
members, a list is related to another one if some permutation of it is, member by
member. Two models are reordered if their machines are, where related machines
have the same name and reordered states, and related states have the same name
and the same transitions. What looks a machine or a state up by its name does not
see the order, as long as names are not used twice.
-/

namespace GuardedMachines

/-- Where no two members have one name, looking a name up finds the member that has it. -/
theorem find?_eq_some_iff_of_nodup {α : Type} {name : α → String} {l : List α}
    (hnodup : (l.map name).Nodup) {key : String} {a : α} :
    l.find? (fun b => name b == key) = some a ↔ a ∈ l ∧ name a = key := by
  have hfound : ∀ {b}, l.find? (fun b => name b == key) = some b → b ∈ l ∧ name b = key := by
    intro b h
    have hb : (name b == key) = true := List.find?_some (p := fun b => name b == key) h
    exact ⟨List.mem_of_find?_eq_some h, beq_iff_eq.mp hb⟩
  refine ⟨hfound, ?_⟩
  rintro ⟨ha, hname⟩
  cases hfind : l.find? fun b => name b == key with
  | none => exact absurd (beq_iff_eq.mpr hname) (List.find?_eq_none.mp hfind a ha)
  | some b =>
    obtain ⟨hb, hname'⟩ := hfound hfind
    rw [List.inj_on_of_nodup_map hnodup hb ha (hname'.trans hname.symm)]

/-- In some order, the members of the first list are related to those of the second one. -/
def ReorderedBy {α : Type} (R : α → α → Prop) (l l' : List α) : Prop :=
  ∃ mid, l.Perm mid ∧ List.Forall₂ R mid l'

namespace ReorderedBy

variable {α β : Type} {R : α → α → Prop} {l l' k k' : List α}

/-- Related members are members. -/
theorem with_mem (h : ReorderedBy R l l') :
    ReorderedBy (fun a b => a ∈ l ∧ b ∈ l' ∧ R a b) l l' := by
  obtain ⟨mid, hperm, hrel⟩ := h
  obtain ⟨hlength, hzip⟩ := List.forall₂_iff_zip.mp hrel
  refine ⟨mid, hperm, List.forall₂_iff_zip.mpr ⟨hlength, ?_⟩⟩
  intro a b hab
  obtain ⟨ha, hb⟩ := List.of_mem_zip hab
  exact ⟨hperm.mem_iff.mpr ha, hb, hzip hab⟩

theorem exists_right (h : ReorderedBy R l l') {a : α} (ha : a ∈ l) : ∃ b ∈ l', R a b := by
  obtain ⟨mid, hperm, hrel⟩ := h
  obtain ⟨i, hi, rfl⟩ := List.getElem_of_mem (hperm.mem_iff.mp ha)
  have hi' : i < l'.length := hrel.length_eq ▸ hi
  exact ⟨l'[i], List.getElem_mem hi', hrel.get hi hi'⟩

theorem exists_left (h : ReorderedBy R l l') {b : α} (hb : b ∈ l') : ∃ a ∈ l, R a b := by
  obtain ⟨mid, hperm, hrel⟩ := h
  obtain ⟨i, hi, rfl⟩ := List.getElem_of_mem hb
  have hi' : i < mid.length := hrel.length_eq ▸ hi
  exact ⟨mid[i], hperm.mem_iff.mpr (List.getElem_mem hi'), hrel.get hi' hi⟩

theorem map_perm (h : ReorderedBy R l l') {f g : α → β} (hfg : ∀ a b, R a b → f a = g b) :
    (l.map f).Perm (l'.map g) := by
  obtain ⟨mid, hperm, hrel⟩ := h
  refine (hperm.map f).trans ?_
  clear hperm
  induction hrel with
  | nil => exact .refl _
  | cons hab _ ih =>
    rw [List.map_cons, List.map_cons, hfg _ _ hab]
    exact ih.cons _

theorem flatMap_perm (h : ReorderedBy R l l') {f g : α → List β}
    (hfg : ∀ a b, R a b → (f a).Perm (g b)) : (l.flatMap f).Perm (l'.flatMap g) := by
  obtain ⟨mid, hperm, hrel⟩ := h
  refine (hperm.flatMap_right f).trans ?_
  clear hperm
  induction hrel with
  | nil => exact .refl _
  | cons hab _ ih =>
    rw [List.flatMap_cons, List.flatMap_cons]
    exact (hfg _ _ hab).append ih

theorem filter (h : ReorderedBy R l l') {p q : α → Bool} (hpq : ∀ a b, R a b → p a = q b) :
    ReorderedBy R (l.filter p) (l'.filter q) := by
  obtain ⟨mid, hperm, hrel⟩ := h
  refine ⟨mid.filter p, hperm.filter p, List.rel_filter (fun a b hab => ?_) hrel⟩
  exact iff_of_eq (congrArg (· = true) (hpq a b hab))

theorem symm (hR : ∀ a b, R a b → R b a) (h : ReorderedBy R l l') : ReorderedBy R l' l := by
  obtain ⟨mid, hperm, hrel⟩ := h
  obtain ⟨mid', hrel', hperm'⟩ := List.perm_comp_forall₂ hperm hrel
  exact ⟨mid', hperm'.symm, (hrel'.imp fun a b hab => hR a b hab).flip⟩

/-- Lists put one after the other may be exchanged. -/
theorem append_comm (h : ReorderedBy R l l') (h' : ReorderedBy R k k') :
    ReorderedBy R (l ++ k) (k' ++ l') := by
  obtain ⟨mid, hperm, hrel⟩ := h
  obtain ⟨mid', hperm', hrel'⟩ := h'
  exact ⟨mid' ++ mid, List.perm_append_comm.trans (hperm'.append hperm),
    List.rel_append hrel' hrel⟩

end ReorderedBy

structure State.Reordered (s s' : State) : Prop where
  name_eq : s.name = s'.name
  transitions_perm : s.transitions.Perm s'.transitions

theorem State.Reordered.symm {s s' : State} (h : s.Reordered s') : s'.Reordered s :=
  ⟨h.name_eq.symm, h.transitions_perm.symm⟩

structure Machine.Reordered (m m' : Machine) : Prop where
  name_eq : m.name = m'.name
  states : ReorderedBy State.Reordered m.states m'.states

/-- The machines are the same up to the order of machines, states and transitions; the models
may have different names. -/
def Model.Reordered (model model' : Model) : Prop :=
  ReorderedBy Machine.Reordered model.machines model'.machines

def Machine.WellNamed (m : Machine) : Prop := (m.states.map State.name).Nodup

structure Model.WellNamed (model : Model) : Prop where
  machines : model.machineNames.Nodup
  states : ∀ m ∈ model.machines, m.WellNamed

namespace Machine

theorem WellNamed.state?_eq_some_iff {m : Machine} (hm : m.WellNamed) {name : String}
    {s : State} : m.state? name = some s ↔ s ∈ m.states ∧ s.name = name :=
  find?_eq_some_iff_of_nodup hm

namespace Reordered

variable {m m' : Machine}

theorem symm (h : m.Reordered m') : m'.Reordered m :=
  ⟨h.name_eq.symm, h.states.symm fun _ _ hs => hs.symm⟩

theorem wellNamed (h : m.Reordered m') (hm : m.WellNamed) : m'.WellNamed :=
  (h.states.map_perm fun _ _ hs => hs.name_eq).nodup hm

theorem transitions_perm (h : m.Reordered m') : m.transitions.Perm m'.transitions :=
  h.states.flatMap_perm fun _ _ hs => hs.transitions_perm

/-- Under a name there is no state in either machine, or the same one up to its order. -/
theorem state?_cases (h : m.Reordered m') (hm : m.WellNamed) (name : String) :
    (m.state? name = none ∧ m'.state? name = none) ∨
      ∃ s s', m.state? name = some s ∧ m'.state? name = some s' ∧ s.Reordered s' := by
  have hm' := h.wellNamed hm
  cases hs : m.state? name with
  | some s =>
    obtain ⟨hmem, rfl⟩ := hm.state?_eq_some_iff.mp hs
    obtain ⟨s', hmem', hrel⟩ := h.states.exists_right hmem
    exact .inr ⟨s, s', rfl, hm'.state?_eq_some_iff.mpr ⟨hmem', hrel.name_eq.symm⟩, hrel⟩
  | none => cases hs' : m'.state? name with
    | none => exact .inl ⟨rfl, rfl⟩
    | some s' =>
      obtain ⟨hmem', rfl⟩ := hm'.state?_eq_some_iff.mp hs'
      obtain ⟨s, hmem, hrel⟩ := h.states.exists_left hmem'
      rw [hm.state?_eq_some_iff.mpr ⟨hmem, hrel.name_eq⟩] at hs
      cases hs

end Reordered

end Machine

namespace Model.Reordered

variable {model model' : Model}

theorem machineNames_perm (h : model.Reordered model') :
    model.machineNames.Perm model'.machineNames :=
  h.map_perm fun _ _ hm => hm.name_eq

theorem wellNamed (h : model.Reordered model') (hmodel : model.WellNamed) : model'.WellNamed where
  machines := h.machineNames_perm.nodup hmodel.machines
  states m' hm' := by
    obtain ⟨m, hm, hrel⟩ := h.exists_left hm'
    exact hrel.wellNamed (hmodel.states m hm)

/-- What is collected from the transitions is the same, up to its order. -/
theorem collect_perm (h : model.Reordered model') {α : Type} (items : Transition → List α) :
    (model.collect items).Perm (model'.collect items) := by
  apply ReorderedBy.flatMap_perm h
  intro m m' hm
  rw [hm.name_eq]
  exact hm.transitions_perm.flatMap_right _

end Model.Reordered

namespace Model

theorem isSome_machine?_iff {model : Model} {name : String} :
    (model.machine? name).isSome = true ↔ name ∈ model.machineNames := by
  simp [machine?, machineNames, List.find?_isSome]

theorem mem_and_name_of_machine? {model : Model} {name : String} {n : Machine}
    (h : model.machine? name = some n) : n ∈ model.machines ∧ n.name = name :=
  ⟨List.mem_of_find?_eq_some h,
    beq_iff_eq.mp (List.find?_some (p := fun m : Machine => m.name == name) h)⟩

theorem machine?_eq_some {model : Model} (hnames : model.machineNames.Nodup) {n : Machine}
    (hn : n ∈ model.machines) : model.machine? n.name = some n :=
  (find?_eq_some_iff_of_nodup hnames).mpr ⟨hn, rfl⟩

theorem compose_eq_ok_iff {primary proof model : Model} :
    primary.compose proof = .ok model ↔
      (∀ name ∈ proof.machineNames, name ∉ primary.machineNames) ∧
        model = ⟨primary.name ++ "+" ++ proof.name, primary.machines ++ proof.machines⟩ := by
  unfold compose
  cases hfind : proof.machines.find? fun m => (primary.machine? m.name).isSome with
  | some m =>
    have hm : m.name ∈ proof.machineNames := List.mem_map_of_mem (List.mem_of_find?_eq_some hfind)
    have hshared : (primary.machine? m.name).isSome = true :=
      List.find?_some (p := fun m : Machine => (primary.machine? m.name).isSome) hfind
    refine ⟨fun h => (nomatch h), fun h => ?_⟩
    exact absurd (isSome_machine?_iff.mp hshared) (h.1 _ hm)
  | none =>
    have hdisjoint : ∀ name ∈ proof.machineNames, name ∉ primary.machineNames := by
      intro name hname
      obtain ⟨m, hm, rfl⟩ := List.mem_map.mp hname
      rw [← isSome_machine?_iff]
      exact List.find?_eq_none.mp hfind m hm
    exact ⟨fun h => ⟨hdisjoint, (Except.ok.inj h).symm⟩, fun h => congrArg Except.ok h.2.symm⟩

/-- Models compose in either order, to models that differ in the order of their machines. -/
theorem exists_compose_swapped {primary proof primary' proof' model : Model}
    (hprimary : primary.Reordered primary') (hproof : proof.Reordered proof')
    (h : primary.compose proof = .ok model) :
    ∃ model', proof'.compose primary' = .ok model' ∧ model.Reordered model' := by
  obtain ⟨hdisjoint, rfl⟩ := compose_eq_ok_iff.mp h
  refine ⟨_, compose_eq_ok_iff.mpr ⟨?_, rfl⟩, ReorderedBy.append_comm hprimary hproof⟩
  intro name hname hname'
  exact hdisjoint name (hproof.machineNames_perm.mem_iff.mpr hname')
    (hprimary.machineNames_perm.mem_iff.mpr hname)

theorem WellNamed.compose {primary proof model : Model} (hprimary : primary.WellNamed)
    (hproof : proof.WellNamed) (h : primary.compose proof = .ok model) : model.WellNamed := by
  obtain ⟨hdisjoint, rfl⟩ := compose_eq_ok_iff.mp h
  constructor
  · show ((primary.machines ++ proof.machines).map Machine.name).Nodup
    rw [List.map_append, List.nodup_append]
    refine ⟨hprimary.machines, hproof.machines, ?_⟩
    rintro name hname _ hname' rfl
    exact hdisjoint name hname' hname
  · intro m hm
    rcases List.mem_append.mp hm with hm | hm
    · exact hprimary.states m hm
    · exact hproof.states m hm

end Model

end GuardedMachines
