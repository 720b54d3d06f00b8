import GuardedMachines.Proofs.Activation
import GuardedMachines.Proofs.Reordering
import Mathlib.Data.Set.Card

/-!
Who uses a variable. A register lists each key once, and under it each machine
once, so that what is reported about the keys of a register can be counted as a set
of identifiers. A variable has an entry exactly if it has a user, and an entry lists
several machines exactly if the variable has several users.
-/

namespace GuardedMachines

namespace Register

variable {κ : Type} [BEq κ]

/-- Each key has one entry, which lists each of its machines once. -/
structure Proper (register : Register κ) : Prop where
  keys : register.Pairwise fun entry entry' => ¬ (entry.1 == entry'.1) = true
  machines : ∀ entry ∈ register, entry.2.Nodup

theorem isSome_machines?_iff {register : Register κ} {k : κ} :
    (register.machines? k).isSome = true ↔ ∃ entry ∈ register, (entry.1 == k) = true := by
  simp [machines?, List.find?_isSome]

variable [EquivBEq κ]

theorem mem_key_add {register : Register κ} {key k : κ} {machine : String} :
    (∃ entry ∈ register.add key machine, (entry.1 == k) = true) ↔
      (key == k) = true ∨ ∃ entry ∈ register, (entry.1 == k) = true := by
  induction register with
  | nil => simp [add]
  | cons entry rest ih =>
    obtain ⟨k', machines⟩ := entry
    unfold add
    split
    · next hkey =>
      simp only [List.exists_mem_cons_iff, BEq.congr_left hkey]
      tauto
    · simp only [List.exists_mem_cons_iff, ih]
      tauto

theorem Proper.add {register : Register κ} (h : Proper register) (key : κ) (machine : String) :
    Proper (register.add key machine) := by
  induction register with
  | nil => exact ⟨List.pairwise_singleton _ _, by simp [Register.add]⟩
  | cons entry rest ih =>
    obtain ⟨k, machines⟩ := entry
    obtain ⟨hhead, hrest⟩ := List.pairwise_cons.mp h.keys
    have hproper : Proper rest := ⟨hrest, fun e he => h.machines e (List.mem_cons_of_mem _ he)⟩
    have hmachines : machines.Nodup := h.machines _ List.mem_cons_self
    unfold Register.add
    split
    · refine ⟨List.pairwise_cons.mpr ⟨hhead, hrest⟩, ?_⟩
      rw [List.forall_mem_cons]
      refine ⟨?_, hproper.machines⟩
      split
      · exact hmachines
      · next hnew =>
        rw [List.contains_iff_mem] at hnew
        refine List.nodup_append.mpr ⟨hmachines, List.nodup_singleton _, ?_⟩
        intro name hname name' hname' heq
        rw [heq, List.mem_singleton.mp hname'] at hname
        exact hnew hname
    · next hne =>
      have hadded := ih hproper
      refine ⟨List.pairwise_cons.mpr ⟨?_, hadded.keys⟩, ?_⟩
      · intro entry hentry heq
        rcases mem_key_add.mp ⟨entry, hentry, BEq.symm heq⟩ with hkey | ⟨e, he, hek⟩
        · exact hne (BEq.symm hkey)
        · exact hhead e he (BEq.symm hek)
      · rw [List.forall_mem_cons]
        exact ⟨hmachines, hadded.machines⟩

theorem proper_ofList (entries : List (κ × String)) : Proper (ofList entries) := by
  induction entries using List.reverseRecOn with
  | nil => exact ⟨.nil, fun entry h => absurd h List.not_mem_nil⟩
  | append_singleton entries entry ih =>
    rw [ofList_append_singleton]
    exact ih.add entry.1 entry.2

theorem mem_key_ofList {entries : List (κ × String)} {k : κ} :
    (∃ entry ∈ ofList entries, (entry.1 == k) = true) ↔
      ∃ entry ∈ entries, (entry.1 == k) = true := by
  induction entries using List.reverseRecOn with
  | nil => simp [ofList]
  | append_singleton entries entry ih =>
    rw [ofList_append_singleton, mem_key_add, ih]
    simp only [List.mem_append, List.mem_singleton, or_and_right, exists_or, exists_eq_left]
    exact or_comm

/-- The entry of a key holds the machines under it. -/
theorem Proper.under_eq {register : Register κ} (h : Proper register) {entry : κ × List String}
    (hentry : entry ∈ register) : register.under entry.1 = entry.2 := by
  induction register with
  | nil => exact absurd hentry List.not_mem_nil
  | cons first rest ih =>
    obtain ⟨k, machines⟩ := first
    obtain ⟨hhead, hrest⟩ := List.pairwise_cons.mp h.keys
    rw [under_cons]
    rcases List.mem_cons.mp hentry with rfl | hentry
    · rw [if_pos BEq.rfl]
    · rw [if_neg (hhead entry hentry)]
      exact ih ⟨hrest, fun e he => h.machines e (List.mem_cons_of_mem _ he)⟩ hentry

/-- The entries about which something is reported are as many as their identifiers. -/
theorem Proper.length_filterMap {register : Register Variable} (h : Proper register) {α : Type}
    {report : Variable × List String → Option α} {ids : Set VarId}
    (hids : ∀ id, id ∈ ids ↔ ∃ entry ∈ register, entry.1.id = id ∧ (report entry).isSome = true) :
    (register.filterMap report).length = ids.ncard := by
  let reported := (register.filter fun entry => (report entry).isSome).map fun entry => entry.1.id
  have hnodup : reported.Nodup := by
    refine List.pairwise_map.mpr ((h.keys.filter _).imp ?_)
    intro entry entry' hne heq
    exact hne ((Variable.beq_iff _ _).mpr heq)
  have hset : ids = (reported.toFinset : Set VarId) := by
    ext id
    simp only [hids, reported, List.coe_toFinset, Set.mem_ofPred_eq, List.mem_map, List.mem_filter]
    exact exists_congr fun entry => by tauto
  rw [hset, Set.ncard_coe_finset, List.toFinset_card_of_nodup hnodup, List.length_map,
    List.length_filterMap_eq_countP, List.countP_eq_length_filter]

end Register

namespace Model

variable {model model' : Model} {items : Transition → List Variable}

def users (model : Model) (items : Transition → List Variable) (id : VarId) : Set String :=
  {name | ∃ m ∈ model.machines, m.name = name ∧ ∃ t ∈ m.transitions, ∃ v ∈ items t, v.id = id}

def readers (model : Model) : VarId → Set String := model.users Transition.reads

def writers (model : Model) : VarId → Set String := model.users fun t => t.writes.map Prod.fst

theorem mem_users {id : VarId} {name : String} :
    name ∈ model.users items id ↔ ∃ v, (v, name) ∈ model.collect items ∧ v.id = id := by
  simp only [users, collect, Set.mem_ofPred_eq, List.mem_flatMap, List.mem_map, Prod.mk.injEq]
  constructor
  · rintro ⟨m, hm, rfl, t, ht, v, hv, hid⟩
    exact ⟨v, ⟨m, hm, t, ht, v, hv, rfl, rfl⟩, hid⟩
  · rintro ⟨_, ⟨m, hm, t, ht, v, hv, rfl, rfl⟩, hid⟩
    exact ⟨m, hm, rfl, t, ht, v, hv, hid⟩

theorem Reordered.users_eq (h : model.Reordered model') (items : Transition → List Variable) :
    model.users items = model'.users items := by
  funext id
  ext name
  simp only [mem_users, (h.collect_perm items).mem_iff]

theorem mem_under_iff {v : Variable} {name : String} :
    name ∈ (Register.ofList (model.collect items)).under v ↔ name ∈ model.users items v.id := by
  rw [Register.mem_under_ofList, mem_users]
  simp only [Variable.beq_iff]
  constructor
  · rintro ⟨⟨w, _⟩, hentry, hid, rfl⟩
    exact ⟨w, hentry, hid⟩
  · rintro ⟨w, hentry, hid⟩
    exact ⟨(w, name), hentry, hid, rfl⟩

theorem exists_entry_iff {id : VarId} :
    (∃ entry ∈ Register.ofList (model.collect items), entry.1.id = id) ↔
      (model.users items id).Nonempty := by
  have hkey : ∀ v : Variable, (∃ entry ∈ Register.ofList (model.collect items), entry.1.id = v.id) ↔
      ∃ entry ∈ model.collect items, entry.1.id = v.id := by
    intro v
    simp only [← Variable.beq_iff]
    exact Register.mem_key_ofList
  constructor
  · rintro ⟨entry, hentry, rfl⟩
    obtain ⟨⟨w, name⟩, hentry, hid⟩ := (hkey entry.1).mp ⟨entry, hentry, rfl⟩
    exact ⟨name, mem_users.mpr ⟨w, hentry, hid⟩⟩
  · rintro ⟨name, hname⟩
    obtain ⟨w, hentry, rfl⟩ := mem_users.mp hname
    exact (hkey w).mpr ⟨(w, name), hentry, rfl⟩

theorem isSome_machines?_iff {v : Variable} :
    ((Register.ofList (model.collect items)).machines? v).isSome = true ↔
      (model.users items v.id).Nonempty := by
  rw [Register.isSome_machines?_iff, ← exists_entry_iff]
  simp only [Variable.beq_iff]

/-- An entry lists several machines exactly if the variable has several users. -/
theorem one_lt_length_iff {entry : Variable × List String}
    (hentry : entry ∈ Register.ofList (model.collect items)) :
    1 < entry.2.length ↔ (model.users items entry.1.id).Nontrivial := by
  have hproper := Register.proper_ofList (model.collect items)
  have husers : model.users items entry.1.id = (entry.2.toFinset : Set String) := by
    ext name
    rw [← mem_under_iff, hproper.under_eq hentry]
    simp
  rw [husers, Finset.nontrivial_coe, ← Finset.one_lt_card_iff_nontrivial,
    List.toFinset_card_of_nodup (hproper.machines entry hentry)]

end Model

end GuardedMachines
