import GuardedMachines.Activation
import GuardedMachines.Proofs.Ascending

/-!
The activation of a model misses no reaction. A register holds under a key
exactly the machines entered under a key equal to it, so that whatever one
machine writes and another one reads links the two, and likewise for what is
emitted and listened to. A machine with a transition that is triggered by what a
transition of another machine produces is therefore among its successors.
-/

namespace GuardedMachines

instance : EquivBEq Variable where
  rfl {v} := (Variable.beq_iff v v).mpr rfl
  symm {v w} h := (Variable.beq_iff w v).mpr ((Variable.beq_iff v w).mp h).symm
  trans {u v w} h h' :=
    (Variable.beq_iff u w).mpr (((Variable.beq_iff u v).mp h).trans ((Variable.beq_iff v w).mp h'))

namespace Register

variable {κ : Type} [BEq κ]

def under (register : Register κ) (key : κ) : List String := (register.machines? key).getD []

theorem under_cons (k key : κ) (machines : List String) (rest : Register κ) :
    under ((k, machines) :: rest) key = if k == key then machines else under rest key := by
  unfold under machines?
  rw [List.find?_cons]
  cases k == key <;> rfl

theorem mem_of_mem_under {register : Register κ} {key : κ} {machine : String}
    (h : machine ∈ register.under key) :
    ∃ entry ∈ register, (entry.1 == key) = true ∧ machine ∈ entry.2 := by
  induction register with
  | nil => exact absurd h List.not_mem_nil
  | cons entry rest ih =>
    obtain ⟨k, machines⟩ := entry
    rw [under_cons] at h
    split at h
    · next hk => exact ⟨_, List.mem_cons_self, hk, h⟩
    · obtain ⟨entry, hentry, hkey, hmachine⟩ := ih h
      exact ⟨entry, List.mem_cons_of_mem _ hentry, hkey, hmachine⟩

theorem ofList_append_singleton (entries : List (κ × String)) (entry : κ × String) :
    ofList (entries ++ [entry]) = (ofList entries).add entry.1 entry.2 := by
  simp [ofList]

variable [EquivBEq κ]

theorem under_congr {key key' : κ} (h : (key == key') = true) (register : Register κ) :
    register.under key = register.under key' := by
  induction register with
  | nil => rfl
  | cons entry rest ih => rw [under_cons, under_cons, ih, BEq.congr_right h]

theorem mem_under_add (register : Register κ) (key key' : κ) (machine machine' : String) :
    machine' ∈ (register.add key machine).under key' ↔
      ((key == key') = true ∧ machine' = machine) ∨ machine' ∈ register.under key' := by
  induction register with
  | nil =>
    rw [add, under_cons]
    cases key == key' <;> simp [under, machines?]
  | cons entry rest ih =>
    obtain ⟨k, machines⟩ := entry
    have henter : machine' ∈
        (if machines.contains machine then machines else machines ++ [machine]) ↔
          machine' = machine ∨ machine' ∈ machines := by
      cases hmem : machines.contains machine with
      | true =>
        have hmachine : machine ∈ machines := List.contains_iff_mem.mp hmem
        exact ⟨.inr, fun h => h.elim (fun heq => heq ▸ hmachine) id⟩
      | false =>
        rw [if_neg Bool.false_ne_true, List.mem_append, List.mem_singleton]
        exact or_comm
    unfold add
    split
    · next hk =>
      rw [under_cons, under_cons, BEq.congr_left hk]
      cases key == key' with
      | true => simpa using henter
      | false => simp
    · next hk =>
      rw [under_cons, under_cons]
      split
      · next hk' =>
        have hne : ¬ (key == key') = true := fun h => hk (BEq.trans hk' (BEq.symm h))
        simp [hne]
      · exact ih

theorem mem_under_ofList (entries : List (κ × String)) (key : κ) (machine : String) :
    machine ∈ (ofList entries).under key ↔
      ∃ entry ∈ entries, (entry.1 == key) = true ∧ machine = entry.2 := by
  induction entries using List.reverseRecOn with
  | nil => simp [ofList, under, machines?]
  | append_singleton entries entry ih =>
    rw [ofList_append_singleton, mem_under_add, ih]
    simp only [List.mem_append, List.mem_singleton]
    constructor
    · rintro (h | ⟨entry', hentry', h⟩)
      · exact ⟨entry, .inr rfl, h⟩
      · exact ⟨entry', .inl hentry', h⟩
    · rintro ⟨entry', hentry' | rfl, h⟩
      · exact .inr ⟨entry', hentry', h⟩
      · exact .inl h

end Register

namespace Activation

variable {κ : Type} [BEq κ] [EquivBEq κ]

theorem exists_mem_arcsOf {sources targets : List (κ × String)} (link : κ → Link) {k k' : κ}
    {source target : String} (hsource : (k, source) ∈ sources) (htarget : (k', target) ∈ targets)
    (hkey : (k == k') = true) :
    ∃ arc ∈ arcsOf (.ofList sources) (.ofList targets) link,
      arc.source = source ∧ arc.target = target := by
  have hunder : source ∈ (Register.ofList sources).under k :=
    (Register.mem_under_ofList sources k source).mpr ⟨_, hsource, BEq.rfl, rfl⟩
  obtain ⟨⟨key, machines⟩, hentry, hk, hmachine⟩ := Register.mem_of_mem_under hunder
  have hreact : target ∈ (Register.ofList targets).under key := by
    rw [Register.under_congr (BEq.trans hk hkey)]
    exact (Register.mem_under_ofList targets k' target).mpr ⟨_, htarget, BEq.rfl, rfl⟩
  -- The arc carries the key under which the source was entered first, which only equals `k`.
  refine ⟨⟨source, target, link key⟩, ?_, rfl, rfl⟩
  unfold arcsOf
  simp only [List.mem_flatMap, List.mem_map]
  exact ⟨_, hentry, source, hmachine, target, hreact, rfl⟩

theorem mem_successors_of_arc {activation : Activation} {source target : String}
    (htarget : target ∈ activation.machines)
    (harc : ∃ arc ∈ activation.arcs, arc.source = source ∧ arc.target = target) :
    target ∈ activation.successors source := by
  obtain ⟨arc, harc, rfl, rfl⟩ := harc
  unfold successors
  rw [List.mem_filter, List.any_eq_true]
  exact ⟨htarget, arc, harc, by simp⟩

end Activation

theorem Event.kind_eq_of_compare {e f : Event} (h : compare e f = .eq) :
    e.kind = f.kind ∧ e.name = f.name ∧ e.subject.1 = f.subject.1 := by
  change compareLex _ _ _ _ = .eq at h
  simp only [compareLex, compareOn, Ordering.then_eq_eq, Std.LawfulEqCmp.compare_eq_iff_eq] at h
  exact ⟨h.1, h.2.1, h.2.2.1⟩

/-- An event equal to the change of a variable is a change of that variable. -/
theorem Event.exists_change {v : Variable} {x : Value} {e : Event}
    (h : compare (change v x) e = .eq) : ∃ w, e.changed? = some w ∧ (v == w) = true := by
  obtain ⟨hkind, -, hsubject⟩ := kind_eq_of_compare h
  cases e with
  | external => exact absurd hkind (by simp [kind])
  | synchronization => exact absurd hkind (by simp [kind])
  | change w y =>
    refine ⟨w, rfl, ?_⟩
    rw [Variable.beq_iff, ← Variable.compare_eq_iff]
    exact Nat.compare_eq_eq.mpr hsubject

/-- An event equal to a synchronization is that synchronization. -/
theorem Event.synchronized?_of_compare {name : String} {e : Event}
    (h : compare (synchronization name) e = .eq) : e.synchronized? = some name := by
  obtain ⟨hkind, hname, -⟩ := kind_eq_of_compare h
  cases e with
  | external => exact absurd hkind (by simp [kind])
  | synchronization other => exact congrArg some hname.symm
  | change => exact absurd hkind (by simp [kind])

theorem Model.mem_collect {α : Type} {model : Model} {items : Transition → List α} {m : Machine}
    (hm : m ∈ model.machines) {t : Transition} (ht : t ∈ m.transitions) {a : α} (ha : a ∈ items t) :
    (a, m.name) ∈ model.collect items := by
  unfold collect
  simp only [List.mem_flatMap, List.mem_map]
  exact ⟨m, hm, t, ht, a, ha, rfl⟩

/-- A machine is linked to every machine that what it produces can trigger. -/
theorem Activation.mem_successors {model : Model} {m n : Machine} (hm : m ∈ model.machines)
    (hn : n ∈ model.machines) {t u : Transition} (ht : t ∈ m.transitions) (hu : u ∈ n.transitions)
    {a : Action} (ha : a ∈ t.actions.members) (hevent : u.events.contains a.produced = true) :
    n.name ∈ (ofModel model).successors m.name := by
  apply mem_successors_of_arc (List.mem_map_of_mem hn)
  obtain ⟨e, he, hcompare⟩ := Ascending.contains_iff.mp hevent
  cases a with
  | assign v x =>
    obtain ⟨w, hchanged, hkey⟩ := Event.exists_change hcompare
    have hwrites : v ∈ t.writes.map Prod.fst :=
      List.mem_map.mpr ⟨(v, x), List.mem_filterMap.mpr ⟨_, ha, rfl⟩, rfl⟩
    have hreads : w ∈ u.reads :=
      List.mem_append_right _ (List.mem_filterMap.mpr ⟨e, he, hchanged⟩)
    have hsource : (v, m.name) ∈ model.collect fun t => t.writes.map Prod.fst :=
      Model.mem_collect hm ht hwrites
    obtain ⟨arc, harc, hends⟩ :=
      exists_mem_arcsOf .written hsource (Model.mem_collect hn hu hreads) hkey
    exact ⟨arc, List.mem_append_left _ harc, hends⟩
  | emit name =>
    have hemits : name ∈ t.emits := List.mem_filterMap.mpr ⟨_, ha, rfl⟩
    have hlistens : name ∈ u.listens :=
      List.mem_filterMap.mpr ⟨e, he, Event.synchronized?_of_compare hcompare⟩
    obtain ⟨arc, harc, hends⟩ := exists_mem_arcsOf .synchronization
      (Model.mem_collect hm ht hemits) (Model.mem_collect hn hu hlistens) BEq.rfl
    exact ⟨arc, List.mem_append_right _ harc, hends⟩

end GuardedMachines
