import GuardedMachines.Proofs.ClauseList
import GuardedMachines.Proofs.Usage
import GuardedMachines.Proofs.Verification.Loops

/-!
Verification of who writes a variable is exact. A register lists under a key the
machines entered with it, first occurrences only. The walk over a model comes to
its machines one after the other, so every such list goes along the machines in
the order of the model. The three properties read their violations off the
registers: one for each variable that several machines assign, that is mentioned
and not assigned, or that is assigned and not mentioned, with the machines that
assign or mention it.
-/

namespace GuardedMachines

/-- Names listed item by item are met in the order of the items. -/
theorem eraseDups_flatMap_sublist {α : Type} {l : List α} {name : α → String}
    {listed : α → List String} (h : ∀ a ∈ l, ∀ x ∈ listed a, x = name a) :
    (l.flatMap listed).eraseDups.Sublist (l.map name) := by
  induction l with
  | nil => exact .slnil
  | cons a rest ih =>
    have hhead : (listed a).eraseDups.Sublist [name a] := by
      have hnames := h a List.mem_cons_self
      cases hlisted : listed a with
      | nil => exact List.nil_sublist _
      | cons x xs =>
        rw [hlisted, List.forall_mem_cons] at hnames
        have hrepeated : (xs.filter fun y => !y == x) = [] := by
          rw [List.filter_eq_nil_iff]
          intro y hy
          simp [hnames.1, hnames.2 y hy]
        rw [List.eraseDups_cons, hrepeated, hnames.1]
        exact List.Sublist.refl _
    have hrest : ((rest.flatMap listed).removeAll (listed a)).eraseDups.Sublist
        (rest.flatMap listed).eraseDups := by
      unfold List.removeAll
      rw [eraseDups_filter (by simp)]
      exact List.filter_sublist
    rw [List.flatMap_cons, List.eraseDups_append, List.map_cons]
    exact hhead.append (hrest.trans (ih fun b hb => h b (List.mem_cons_of_mem _ hb)))

namespace Register

variable {κ : Type} [BEq κ]

theorem key_of_mem_add {register : Register κ} {key : κ} {machine : String}
    {entry : κ × List String} (h : entry ∈ register.add key machine) :
    entry.1 = key ∨ ∃ e ∈ register, e.1 = entry.1 := by
  induction register with
  | nil => exact .inl (congrArg Prod.fst (List.mem_singleton.mp h))
  | cons first rest ih =>
    unfold add at h
    split at h
    · rcases List.mem_cons.mp h with rfl | h
      · exact .inr ⟨first, List.mem_cons_self, rfl⟩
      · exact .inr ⟨entry, List.mem_cons_of_mem _ h, rfl⟩
    · rcases List.mem_cons.mp h with rfl | h
      · exact .inr ⟨_, List.mem_cons_self, rfl⟩
      · rcases ih h with hkey | ⟨e, he, hkey⟩
        · exact .inl hkey
        · exact .inr ⟨e, List.mem_cons_of_mem _ he, hkey⟩

/-- The keys of a register are keys that were entered. -/
theorem exists_mem_of_mem_ofList {entries : List (κ × String)} {entry : κ × List String}
    (h : entry ∈ ofList entries) : ∃ machine, (entry.1, machine) ∈ entries := by
  induction entries using List.reverseRecOn generalizing entry with
  | nil => exact absurd h List.not_mem_nil
  | append_singleton entries last ih =>
    rw [ofList_append_singleton] at h
    rcases key_of_mem_add h with hkey | ⟨e, he, hkey⟩
    · exact ⟨last.2, List.mem_append_right _ (List.mem_singleton.mpr (by rw [hkey]))⟩
    · obtain ⟨machine, hmachine⟩ := ih he
      exact ⟨machine, List.mem_append_left _ (hkey ▸ hmachine)⟩

variable [EquivBEq κ]

theorem under_add (register : Register κ) (key key' : κ) (machine : String) :
    (register.add key machine).under key' =
      if (key == key') = true ∧ machine ∉ register.under key' then
        register.under key' ++ [machine]
      else register.under key' := by
  induction register with
  | nil =>
    rw [add, under_cons]
    cases key == key' <;> simp [under, machines?]
  | cons entry rest ih =>
    obtain ⟨k, machines⟩ := entry
    unfold add
    split
    · next hk =>
      rw [under_cons, under_cons, BEq.congr_left hk]
      cases key == key' with
      | true => by_cases hmachine : machine ∈ machines <;> simp [hmachine]
      | false => simp
    · next hk =>
      rw [under_cons, under_cons]
      split
      · next hk' =>
        have hne : ¬ (key == key') = true := fun h => hk (BEq.trans hk' (BEq.symm h))
        simp [hne]
      · exact ih

/-- A key has the machines that were entered with it, in the order of their first entries. -/
theorem under_ofList (entries : List (κ × String)) (key : κ) :
    (ofList entries).under key =
      ((entries.filter fun entry => entry.1 == key).map Prod.snd).eraseDups := by
  induction entries using List.reverseRecOn with
  | nil => rfl
  | append_singleton entries entry ih =>
    have hsingle : [entry.2].eraseDups = [entry.2] := rfl
    rw [ofList_append_singleton, under_add, ih, List.filter_append, List.map_append,
      List.eraseDups_append]
    simp only [List.mem_eraseDups]
    cases hkey : entry.1 == key with
    | false => simp [hkey, List.removeAll]
    | true =>
      by_cases hold : entry.2 ∈ (entries.filter fun entry => entry.1 == key).map Prod.snd
      · simp only [hold, not_true_eq_false, and_false, if_false]
        simp [hkey, List.removeAll, hold]
      · simp only [hold, not_false_eq_true, and_self, if_true]
        simp [hkey, List.removeAll, hold, hsingle]

end Register

namespace Transition

def Assigns (t : Transition) (v : Variable) : Prop := ∃ x, Action.assign v x ∈ t.actions.members

def Mentions (t : Transition) (v : Variable) : Prop :=
  v ∈ Guard.atoms t.guard ∨ ∃ x, Event.change v x ∈ t.events.members

theorem reads_eq (t : Transition) :
    t.reads = Guard.vars t.guard ++ t.events.members.filterMap Event.changed? := by
  unfold reads
  cases t.guard <;> rfl

end Transition

def Machine.Uses (m : Machine) (uses : Transition → Variable → Prop) (id : VarId) : Prop :=
  ∃ t ∈ m.transitions, ∃ v, uses t v ∧ v.id = id

namespace Model

variable {model : Model} {items : Transition → List Variable}

/-- The entries list each identifier with the property once, by a variable of the model, and
with it the machines that use it, in the order of the model. -/
structure Lists (model : Model) (uses : Transition → Variable → Prop) (P : VarId → Prop)
    (entries : List (Variable × List String)) : Prop where
  once : (entries.map fun entry => entry.1.id).Nodup
  listed_iff : ∀ id, (∃ entry ∈ entries, entry.1.id = id) ↔ P id
  occurs : ∀ entry ∈ entries, ∃ m ∈ model.machines, ∃ t ∈ m.transitions, uses t entry.1
  mem_machines : ∀ entry ∈ entries, ∀ m ∈ model.machines,
    m.name ∈ entry.2 ↔ m.Uses uses entry.1.id
  in_order : ∀ entry ∈ entries, entry.2.Sublist model.machineNames
  nodup : ∀ entry ∈ entries, entry.2.Nodup

structure Represents (items : Transition → List Variable) (uses : Transition → Variable → Prop) :
    Prop where
  uses_of_mem : ∀ {t v}, v ∈ items t → uses t v
  exists_mem : ∀ {t v}, uses t v → ∃ w ∈ items t, w.id = v.id

theorem represents_writes : Represents (fun t => t.writes.map Prod.fst) Transition.Assigns where
  uses_of_mem {t v} h := by
    obtain ⟨⟨_, x⟩, hwrite, rfl⟩ := List.mem_map.mp h
    obtain ⟨a, ha, hwritten⟩ := List.mem_filterMap.mp hwrite
    cases a with
    | assign w y =>
      cases hwritten
      exact ⟨x, ha⟩
    | emit name => cases hwritten
  exists_mem {t v} h := by
    obtain ⟨x, ha⟩ := h
    exact ⟨v, List.mem_map.mpr ⟨(v, x), List.mem_filterMap.mpr ⟨_, ha, rfl⟩, rfl⟩, rfl⟩

theorem represents_reads : Represents Transition.reads Transition.Mentions where
  uses_of_mem {t v} h := by
    rw [t.reads_eq] at h
    rcases List.mem_append.mp h with hguard | hevent
    · exact .inl (Guard.mem_atoms_of_mem_vars hguard)
    · obtain ⟨e, he, hchanged⟩ := List.mem_filterMap.mp hevent
      cases e with
      | external name => cases hchanged
      | synchronization name => cases hchanged
      | change w x =>
        cases hchanged
        exact .inr ⟨x, he⟩
  exists_mem {t v} h := by
    rw [t.reads_eq]
    rcases h with hguard | ⟨x, he⟩
    · have hid : v.id ∈ idSet (Guard.vars t.guard) := by
        rw [Guard.idSet_vars]
        exact mem_idSet.mpr ⟨v, hguard, rfl⟩
      obtain ⟨w, hw, hwid⟩ := mem_idSet.mp hid
      exact ⟨w, List.mem_append_left _ hw, hwid⟩
    · exact ⟨v, List.mem_append_right _ (List.mem_filterMap.mpr ⟨_, he, rfl⟩), rfl⟩

section Registered

variable {uses : Transition → Variable → Prop}

/-- The users of a variable are the names of the machines that use it. -/
theorem Represents.mem_users (h : Represents items uses) {id : VarId} {name : String} :
    name ∈ model.users items id ↔ ∃ m ∈ model.machines, m.name = name ∧ m.Uses uses id := by
  constructor
  · rintro ⟨m, hm, hname, t, ht, v, hv, hid⟩
    exact ⟨m, hm, hname, t, ht, v, h.uses_of_mem hv, hid⟩
  · rintro ⟨m, hm, hname, t, ht, v, huses, rfl⟩
    obtain ⟨w, hw, hid⟩ := h.exists_mem huses
    exact ⟨m, hm, hname, t, ht, w, hw, hid⟩

theorem Represents.nonempty_users (h : Represents items uses) {id : VarId} :
    (model.users items id).Nonempty ↔ ∃ m ∈ model.machines, m.Uses uses id := by
  constructor
  · rintro ⟨name, hname⟩
    obtain ⟨m, hm, -, huses⟩ := h.mem_users.mp hname
    exact ⟨m, hm, huses⟩
  · rintro ⟨m, hm, huses⟩
    exact ⟨m.name, h.mem_users.mpr ⟨m, hm, rfl, huses⟩⟩

theorem Represents.nontrivial_users (h : Represents items uses) {id : VarId} :
    (model.users items id).Nontrivial ↔ ∃ m ∈ model.machines, ∃ n ∈ model.machines,
      m.name ≠ n.name ∧ m.Uses uses id ∧ n.Uses uses id := by
  constructor
  · rintro ⟨name, hname, name', hname', hne⟩
    obtain ⟨m, hm, rfl, huses⟩ := h.mem_users.mp hname
    obtain ⟨n, hn, rfl, huses'⟩ := h.mem_users.mp hname'
    exact ⟨m, hm, n, hn, hne, huses, huses'⟩
  · rintro ⟨m, hm, n, hn, hne, huses, huses'⟩
    exact ⟨_, h.mem_users.mpr ⟨m, hm, rfl, huses⟩, _, h.mem_users.mpr ⟨n, hn, rfl, huses'⟩, hne⟩

/-- What is entered along the machines of a model is listed in its order. -/
theorem under_sublist (model : Model) (items : Transition → List Variable) (key : Variable) :
    ((Register.ofList (model.collect items)).under key).Sublist model.machineNames := by
  rw [Register.under_ofList, collect, List.filter_flatMap, List.map_flatMap]
  apply eraseDups_flatMap_sublist
  intro m _ name hname
  obtain ⟨pair, hpair, rfl⟩ := List.mem_map.mp hname
  obtain ⟨t, -, hitem⟩ := List.mem_flatMap.mp (List.mem_filter.mp hpair).1
  obtain ⟨v, -, rfl⟩ := List.mem_map.mp hitem
  rfl

/-- Of the entries of a register those are kept that are about the variables in question. -/
theorem Represents.lists (h : Represents items uses) (hnames : model.machineNames.Nodup)
    {P : VarId → Prop} {keep : Variable × List String → Bool}
    (hused : ∀ id, P id → (model.users items id).Nonempty)
    (hkeep : ∀ entry ∈ Register.ofList (model.collect items), keep entry = true ↔ P entry.1.id) :
    model.Lists uses P ((Register.ofList (model.collect items)).filter keep) where
  once := by
    have hkeys := (Register.proper_ofList (model.collect items)).keys
    refine List.pairwise_map.mpr ((hkeys.filter _).imp ?_)
    intro entry entry' hne heq
    exact hne ((Variable.beq_iff _ _).mpr heq)
  listed_iff id := by
    constructor
    · rintro ⟨entry, hentry, rfl⟩
      obtain ⟨hentry, hkept⟩ := List.mem_filter.mp hentry
      exact (hkeep entry hentry).mp hkept
    · intro hid
      obtain ⟨entry, hentry, rfl⟩ := exists_entry_iff.mpr (hused id hid)
      exact ⟨entry, List.mem_filter.mpr ⟨hentry, (hkeep entry hentry).mpr hid⟩, rfl⟩
  occurs entry hentry := by
    obtain ⟨name, hmem⟩ := Register.exists_mem_of_mem_ofList (List.mem_filter.mp hentry).1
    obtain ⟨m, hm, hmem⟩ := List.mem_flatMap.mp hmem
    obtain ⟨t, ht, hmem⟩ := List.mem_flatMap.mp hmem
    obtain ⟨v, hv, heq⟩ := List.mem_map.mp hmem
    have hkey : v = entry.1 := congrArg Prod.fst heq
    exact ⟨m, hm, t, ht, hkey ▸ h.uses_of_mem hv⟩
  mem_machines entry hentry m hm := by
    rw [← (Register.proper_ofList _).under_eq (List.mem_filter.mp hentry).1, mem_under_iff,
      h.mem_users]
    constructor
    · rintro ⟨n, hn, hname, huses⟩
      rwa [List.inj_on_of_nodup_map hnames hn hm hname] at huses
    · intro huses
      exact ⟨m, hm, rfl, huses⟩
  in_order entry hentry := by
    rw [← (Register.proper_ofList _).under_eq (List.mem_filter.mp hentry).1]
    exact model.under_sublist items entry.1
  nodup entry hentry := (Register.proper_ofList _).machines entry (List.mem_filter.mp hentry).1

end Registered

end Model

namespace Verification

/-- A property that needs no oracle is always decided. -/
theorem result_verify_found {property : Property} {model : Model} {violations : List Violation}
    (h : property.probes model = [.found violations]) (oracle : Oracle) :
    (verify property model oracle .allViolations).result = .ok ⟨property, violations⟩ :=
  result_verify_single h

namespace Writing

variable {model : Model}

theorem concurrent_eq (usage : Usage) :
    concurrent usage = (usage.writers.filter fun entry => decide (1 < entry.2.length)).map
      fun entry => .concurrentWriting entry.1 entry.2 := by
  rw [← List.filterMap_eq_map, List.filterMap_filter]
  simp only [decide_eq_true_eq]
  rfl

theorem neverWritten_eq (usage : Usage) :
    neverWritten usage = (usage.readers.filter fun entry => !usage.isWritten entry.1).map
      fun entry => .neverWritten entry.1 entry.2 := by
  rw [← List.filterMap_eq_map, List.filterMap_filter]
  apply List.filterMap_congr
  rintro ⟨v, machines⟩ _
  cases hwritten : usage.isWritten v <;> simp [neverWritten?, hwritten]

theorem useless_eq (usage : Usage) :
    useless usage = (usage.writers.filter fun entry => !usage.isRead entry.1).map
      fun entry => .uselessVariable entry.1 entry.2 := by
  rw [← List.filterMap_eq_map, List.filterMap_filter]
  apply List.filterMap_congr
  rintro ⟨v, machines⟩ _
  cases hread : usage.isRead v <;> simp [useless?, hread]

theorem lists_concurrent (hnames : model.machineNames.Nodup) :
    model.Lists Transition.Assigns
      (fun id => ∃ m ∈ model.machines, ∃ n ∈ model.machines, m.name ≠ n.name ∧
        m.Uses Transition.Assigns id ∧ n.Uses Transition.Assigns id)
      ((Usage.ofModel model).writers.filter fun entry => decide (1 < entry.2.length)) := by
  apply Model.represents_writes.lists hnames
  · rintro id ⟨m, hm, -, -, -, huses, -⟩
    exact Model.represents_writes.nonempty_users.mpr ⟨m, hm, huses⟩
  · intro entry hentry
    rw [decide_eq_true_eq, Model.one_lt_length_iff hentry,
      Model.represents_writes.nontrivial_users]

/-- Entries of one register about variables that another one does not have. -/
theorem lists_difference {items items' : Transition → List Variable}
    {uses uses' : Transition → Variable → Prop} (h : Model.Represents items uses)
    (h' : Model.Represents items' uses') (hnames : model.machineNames.Nodup) :
    model.Lists uses
      (fun id => (∃ m ∈ model.machines, m.Uses uses id) ∧ ∀ m ∈ model.machines, ¬ m.Uses uses' id)
      ((Register.ofList (model.collect items)).filter fun entry =>
        !((Register.ofList (model.collect items')).machines? entry.1).isSome) := by
  apply h.lists hnames
  · rintro id ⟨hused, -⟩
    exact h.nonempty_users.mpr hused
  · intro entry hentry
    have hused : ∃ m ∈ model.machines, m.Uses uses entry.1.id :=
      h.nonempty_users.mp (Model.exists_entry_iff.mp ⟨entry, hentry, rfl⟩)
    rw [Bool.not_eq_true', ← Bool.not_eq_true, Model.isSome_machines?_iff, h'.nonempty_users]
    push Not
    exact (and_iff_right hused).symm

/-- The three properties of writing are always decided. There is one violation for each variable
that machines with different names assign, with the machines that assign it; one for each variable
that is mentioned by a guard or by a change that triggers a transition and not assigned, with the
machines that mention it; and one for each variable that is assigned and not mentioned, with the
machines that assign it. -/
theorem verify_writing_exact (model : Model) (hnames : model.machineNames.Nodup)
    (oracle : Oracle) :
    (∃ entries : List (Variable × List String),
      (verify .singleWriting model oracle .allViolations).result =
        .ok ⟨.singleWriting, entries.map fun entry => .concurrentWriting entry.1 entry.2⟩ ∧
      model.Lists Transition.Assigns
        (fun id => ∃ m ∈ model.machines, ∃ n ∈ model.machines, m.name ≠ n.name ∧
          m.Uses Transition.Assigns id ∧ n.Uses Transition.Assigns id) entries) ∧
    (∃ entries : List (Variable × List String),
      (verify .writtenAtLeastOnce model oracle .allViolations).result =
        .ok ⟨.writtenAtLeastOnce, entries.map fun entry => .neverWritten entry.1 entry.2⟩ ∧
      model.Lists Transition.Mentions
        (fun id => (∃ m ∈ model.machines, m.Uses Transition.Mentions id) ∧
          ∀ m ∈ model.machines, ¬ m.Uses Transition.Assigns id) entries) ∧
    (∃ entries : List (Variable × List String),
      (verify .noUselessVariables model oracle .allViolations).result =
        .ok ⟨.noUselessVariables, entries.map fun entry => .uselessVariable entry.1 entry.2⟩ ∧
      model.Lists Transition.Assigns
        (fun id => (∃ m ∈ model.machines, m.Uses Transition.Assigns id) ∧
          ∀ m ∈ model.machines, ¬ m.Uses Transition.Mentions id) entries) := by
  have hsingle : (verify .singleWriting model oracle .allViolations).result =
      .ok ⟨.singleWriting, concurrent (.ofModel model)⟩ := result_verify_found rfl oracle
  have hwritten : (verify .writtenAtLeastOnce model oracle .allViolations).result =
      .ok ⟨.writtenAtLeastOnce, neverWritten (.ofModel model)⟩ := result_verify_found rfl oracle
  have huseless : (verify .noUselessVariables model oracle .allViolations).result =
      .ok ⟨.noUselessVariables, useless (.ofModel model)⟩ := result_verify_found rfl oracle
  rw [concurrent_eq] at hsingle
  rw [neverWritten_eq] at hwritten
  rw [useless_eq] at huseless
  exact ⟨⟨_, hsingle, lists_concurrent hnames⟩,
    ⟨_, hwritten, lists_difference Model.represents_reads Model.represents_writes hnames⟩,
    ⟨_, huseless, lists_difference Model.represents_writes Model.represents_reads hnames⟩⟩

/-- Two machines assign a variable that nothing mentions; one of them has a guard about another
variable, and a third machine is triggered by a change of it. -/
theorem verify_writing_exact_on_three_machines :
    let x : Variable := ⟨⟨1, Nat.one_pos⟩, "X", .boolean⟩
    let y : Variable := ⟨⟨2, Nat.two_pos⟩, "Y", .boolean⟩
    let set : Transition := ⟨"s", "s", ⟨[.external "on"]⟩, none, ⟨[.assign x (.ofBool true)]⟩⟩
    let reset : Transition :=
      ⟨"s", "s", ⟨[.external "off"]⟩, some (.atom y), ⟨[.assign x (.ofBool false)]⟩⟩
    let wait : Transition := ⟨"s", "s", ⟨[.change y (.ofBool true)]⟩, none, ⟨[]⟩⟩
    let model : Model := ⟨"model",
      [⟨"n", [⟨"s", [set, set]⟩]⟩, ⟨"m", [⟨"s", [reset]⟩]⟩, ⟨"o", [⟨"s", [wait, wait]⟩]⟩]⟩
    let oracle : Oracle := .diagram ⟨none, 10⟩ .stopped
    model.machineNames.Nodup ∧
      (verify .singleWriting model oracle .allViolations).result =
        .ok ⟨.singleWriting, [.concurrentWriting x ["n", "m"]]⟩ ∧
      (verify .writtenAtLeastOnce model oracle .allViolations).result =
        .ok ⟨.writtenAtLeastOnce, [.neverWritten y ["m", "o"]]⟩ ∧
      (verify .noUselessVariables model oracle .allViolations).result =
        .ok ⟨.noUselessVariables, [.uselessVariable x ["n", "m"]]⟩ ∧
      ∀ m ∈ model.machines, m.name ∈ ["m", "o"] ↔ m.Uses Transition.Mentions y.id := by
  intro x y set reset wait model oracle
  have hnames : model.machineNames.Nodup := by decide
  have hwritten : (verify .writtenAtLeastOnce model oracle .allViolations).result =
      .ok ⟨.writtenAtLeastOnce, [.neverWritten y ["m", "o"]]⟩ := by decide +kernel
  obtain ⟨-, ⟨entries, hresult, hlists⟩, -⟩ := verify_writing_exact model hnames oracle
  refine ⟨hnames, by decide +kernel, hwritten, by decide +kernel, ?_⟩
  have hviolations := congrArg Report.violations (Except.ok.inj (hwritten.symm.trans hresult))
  obtain ⟨entry, rfl, hentry⟩ := List.map_eq_singleton_iff.mp hviolations.symm
  obtain ⟨hvar, hmachines⟩ := Violation.neverWritten.inj hentry
  rw [← hvar, ← hmachines]
  exact hlists.mem_machines entry List.mem_cons_self

end Writing

end Verification

end GuardedMachines
