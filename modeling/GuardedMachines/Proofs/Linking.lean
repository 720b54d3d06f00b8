import GuardedMachines.Proofs.Verification.Writing

/-!
The links between machines are exact. The arcs of an activation are laid out key
by key: every machine under a key is joined to every machine that reacts to it. A
register has each key once and under it each machine once, so two machines are
joined at most once for each key, and they are joined if one is registered as a
source and the other one as a target of the key. A machine is therefore linked to
another one once for each variable that it assigns and the other one mentions, and
once for each synchronization that it emits and the other one waits for. The order
in which the arcs are kept does not matter.
-/

namespace GuardedMachines

/-- What a link is about. Variables count as the same if they have one identifier. -/
def Link.subject : Link → VarId ⊕ String
  | written v => .inl v.id
  | synchronization name => .inr name

theorem Link.subject_written_eq_iff (v w : Variable) :
    (written v).subject = (written w).subject ↔ (v == w) = true := by
  rw [Variable.beq_iff]
  exact Sum.inl_injective.eq_iff

theorem Link.subject_synchronization_eq_iff (name name' : String) :
    (synchronization name).subject = (synchronization name').subject ↔ (name == name') = true := by
  rw [beq_iff_eq]
  exact Sum.inr_injective.eq_iff

/-- What a machine does in some transition that another one, or itself, can react to. -/
inductive Machine.Activates (a b : Machine) : VarId ⊕ String → Prop
  | written {id : VarId} (assigned : a.Uses Transition.Assigns id)
      (mentioned : b.Uses Transition.Mentions id) : Activates a b (.inl id)
  | synchronization {name : String}
      (emitted : ∃ t ∈ a.transitions, Action.emit name ∈ t.actions.members)
      (awaited : ∃ t ∈ b.transitions, Event.synchronization name ∈ t.events.members) :
      Activates a b (.inr name)

namespace Transition

variable {t : Transition} {name : String}

theorem mem_emits : name ∈ t.emits ↔ Action.emit name ∈ t.actions.members := by
  unfold emits
  rw [List.mem_filterMap]
  constructor
  · rintro ⟨a, ha, hname⟩
    cases a with
    | assign v x => cases hname
    | emit other =>
      cases hname
      exact ha
  · intro h
    exact ⟨_, h, rfl⟩

theorem mem_listens : name ∈ t.listens ↔ Event.synchronization name ∈ t.events.members := by
  unfold listens
  rw [List.mem_filterMap]
  constructor
  · rintro ⟨e, he, hname⟩
    cases e with
    | external other => cases hname
    | synchronization other =>
      cases hname
      exact he
    | change v x => cases hname
  · intro h
    exact ⟨_, h, rfl⟩

end Transition

namespace Model

variable {model : Model} {a : Machine}

/-- What is collected comes from a transition of the machine under whose name it is. -/
theorem exists_of_mem_collect {α : Type} {items : Transition → List α} {entry : α × String}
    (h : entry ∈ model.collect items) :
    ∃ m ∈ model.machines, ∃ t ∈ m.transitions, entry.1 ∈ items t ∧ m.name = entry.2 := by
  obtain ⟨m, hm, h⟩ := List.mem_flatMap.mp h
  obtain ⟨t, ht, h⟩ := List.mem_flatMap.mp h
  obtain ⟨x, hx, rfl⟩ := List.mem_map.mp h
  exact ⟨m, hm, t, ht, hx, rfl⟩

/-- Where names are unique, what is collected under a name comes from the machine. -/
theorem mem_collect_iff (hnames : model.machineNames.Nodup) (ha : a ∈ model.machines) {α : Type}
    {items : Transition → List α} {x : α} :
    (x, a.name) ∈ model.collect items ↔ ∃ t ∈ a.transitions, x ∈ items t := by
  constructor
  · intro h
    obtain ⟨m, hm, t, ht, hx, hname⟩ := exists_of_mem_collect h
    obtain rfl := List.inj_on_of_nodup_map hnames hm ha hname
    exact ⟨t, ht, hx⟩
  · rintro ⟨t, ht, hx⟩
    exact mem_collect ha ht hx

theorem mem_under_collect (hnames : model.machineNames.Nodup) (ha : a ∈ model.machines)
    {items : Transition → List String} {name : String} :
    a.name ∈ (Register.ofList (model.collect items)).under name ↔
      ∃ t ∈ a.transitions, name ∈ items t := by
  rw [← mem_collect_iff hnames ha, Register.mem_under_ofList]
  constructor
  · rintro ⟨⟨key, machine⟩, hentry, hkey, rfl⟩
    rwa [← eq_of_beq hkey]
  · intro h
    exact ⟨_, h, BEq.rfl, rfl⟩

theorem Represents.mem_under (hnames : model.machineNames.Nodup) (ha : a ∈ model.machines)
    {items : Transition → List Variable} {uses : Transition → Variable → Prop}
    (h : Represents items uses) {v : Variable} :
    a.name ∈ (Register.ofList (model.collect items)).under v ↔ a.Uses uses v.id := by
  rw [mem_under_iff, h.mem_users]
  constructor
  · rintro ⟨m, hm, hname, huses⟩
    rwa [List.inj_on_of_nodup_map hnames hm ha hname] at huses
  · intro huses
    exact ⟨a, ha, rfl, huses⟩

end Model

theorem Register.Proper.nodup_under {κ : Type} [BEq κ] {register : Register κ}
    (h : register.Proper) (key : κ) : (register.under key).Nodup := by
  unfold under machines?
  cases hfound : register.find? fun entry => entry.1 == key with
  | none => exact List.nodup_nil
  | some entry => exact h.machines entry (List.mem_of_find?_eq_some hfound)

namespace Activation

def linksAmong (arcs : List Arc) (source target : String) : List Link :=
  (arcs.filter fun arc => arc.source == source && arc.target == target).map Arc.link

section Arcs

variable {source target : String}

theorem linksAmong_append (arcs arcs' : List Arc) :
    linksAmong (arcs ++ arcs') source target =
      linksAmong arcs source target ++ linksAmong arcs' source target := by
  unfold linksAmong
  rw [List.filter_append, List.map_append]

/-- Machines that are listed once are joined at most once by the arcs of a key. -/
theorem linksAmong_pairs {sources targets : List String} (hsources : sources.Nodup)
    (htargets : targets.Nodup) (link : Link) :
    linksAmong (sources.flatMap fun s => targets.map fun t => ⟨s, t, link⟩) source target =
      if source ∈ sources ∧ target ∈ targets then [link] else [] := by
  have hrow : ∀ s, linksAmong (targets.map fun t => ⟨s, t, link⟩) source target =
      if s = source ∧ target ∈ targets then [link] else [] := by
    intro s
    unfold linksAmong
    rw [List.filter_map, List.map_map]
    by_cases hs : s = source
    · have hfilter : (targets.filter fun t => t == target) =
          List.replicate (targets.count target) target := List.filter_beq target
      simp only [Function.comp_def, hs, BEq.rfl, Bool.true_and, hfilter, true_and,
        htargets.count]
      split <;> rfl
    · simp [Function.comp_def, hs]
  induction sources with
  | nil => simp [linksAmong]
  | cons s rest ih =>
    obtain ⟨hnew, hrest⟩ := List.nodup_cons.mp hsources
    rw [List.flatMap_cons, linksAmong_append, hrow, ih hrest]
    by_cases hs : s = source
    · subst hs
      simp [hnew]
    · have hne : source ≠ s := fun h => hs h.symm
      simp [hs, hne]

end Arcs

section Keys

variable {κ : Type} [BEq κ] {link : κ → Link} {a b : String}

/-- Two machines are joined once for each key that has one as a source and the other one as a
target. -/
theorem linksAmong_arcsOf {register register' : Register κ} (h : register.Proper)
    (h' : register'.Proper) :
    linksAmong (arcsOf register register' link) a b =
      (register.filter fun entry => decide (a ∈ entry.2 ∧ b ∈ register'.under entry.1)).map
        fun entry => link entry.1 := by
  have hmachines := h.machines
  clear h
  induction register with
  | nil => rfl
  | cons entry rest ih =>
    obtain ⟨hfirst, hrest⟩ := List.forall_mem_cons.mp hmachines
    have harcs : arcsOf (entry :: rest) register' link =
        (entry.2.flatMap fun s => (register'.under entry.1).map fun t => ⟨s, t, link entry.1⟩) ++
          arcsOf rest register' link := rfl
    rw [harcs, linksAmong_append, ih hrest, linksAmong_pairs hfirst (h'.nodup_under entry.1)]
    by_cases hjoined : a ∈ entry.2 ∧ b ∈ register'.under entry.1
    · rw [if_pos hjoined, List.filter_cons_of_pos (by simpa using hjoined)]
      rfl
    · rw [if_neg hjoined, List.filter_cons_of_neg (by simpa using hjoined)]
      rfl

variable [EquivBEq κ] {sources targets : List (κ × String)}

theorem mem_linksAmong_arcsOf {l : Link} :
    l ∈ linksAmong (arcsOf (.ofList sources) (.ofList targets) link) a b ↔
      ∃ entry ∈ Register.ofList sources, link entry.1 = l ∧ a ∈ entry.2 ∧
        b ∈ (Register.ofList targets).under entry.1 := by
  rw [linksAmong_arcsOf (Register.proper_ofList sources) (Register.proper_ofList targets)]
  simp only [List.mem_map, List.mem_filter, decide_eq_true_eq]
  constructor
  · rintro ⟨entry, ⟨hentry, hjoined⟩, hlink⟩
    exact ⟨entry, hentry, hlink, hjoined⟩
  · rintro ⟨entry, hentry, hlink, hjoined⟩
    exact ⟨entry, ⟨hentry, hjoined⟩, hlink⟩

variable (hlink : ∀ k k', (link k).subject = (link k').subject ↔ (k == k') = true)
include hlink

theorem nodup_subjects :
    ((linksAmong (arcsOf (.ofList sources) (.ofList targets) link) a b).map
      Link.subject).Nodup := by
  have hproper := Register.proper_ofList sources
  rw [linksAmong_arcsOf hproper (Register.proper_ofList targets), List.map_map]
  refine List.pairwise_map.mpr ((hproper.keys.filter _).imp ?_)
  intro entry entry' hne heq
  exact hne ((hlink _ _).mp heq)

/-- The links are about the keys under which both machines are registered. -/
theorem mem_subjects {s : VarId ⊕ String} :
    s ∈ (linksAmong (arcsOf (.ofList sources) (.ofList targets) link) a b).map Link.subject ↔
      ∃ k, (link k).subject = s ∧ a ∈ (Register.ofList sources).under k ∧
        b ∈ (Register.ofList targets).under k := by
  rw [List.mem_map]
  constructor
  · rintro ⟨l, hl, rfl⟩
    obtain ⟨entry, hentry, rfl, ha, hb⟩ := mem_linksAmong_arcsOf.mp hl
    rw [← (Register.proper_ofList sources).under_eq hentry] at ha
    exact ⟨entry.1, rfl, ha, hb⟩
  · rintro ⟨k, rfl, ha, hb⟩
    -- The link carries the key of the entry, which only equals `k`.
    obtain ⟨entry, hentry, hkey, hmachine⟩ := Register.mem_of_mem_under ha
    rw [← Register.under_congr hkey] at hb
    exact ⟨_, mem_linksAmong_arcsOf.mpr ⟨entry, hentry, rfl, hmachine, hb⟩, (hlink _ _).mpr hkey⟩

end Keys

theorem mem_machines_of_mem_arcsOf {κ : Type} [BEq κ] [EquivBEq κ] {model : Model}
    {items items' : Transition → List κ} {link : κ → Link} {arc : Arc}
    (h : arc ∈ arcsOf (.ofList (model.collect items)) (.ofList (model.collect items')) link) :
    arc.source ∈ model.machineNames ∧ arc.target ∈ model.machineNames := by
  have hcollected : ∀ {items : Transition → List κ} {key : κ} {name : String},
      name ∈ (Register.ofList (model.collect items)).under key → name ∈ model.machineNames := by
    intro items key name hname
    obtain ⟨entry, hentry, -, rfl⟩ := (Register.mem_under_ofList _ _ _).mp hname
    obtain ⟨m, hm, -, -, -, hm'⟩ := Model.exists_of_mem_collect hentry
    rw [← hm']
    exact List.mem_map_of_mem hm
  obtain ⟨entry, hentry, h⟩ := List.mem_flatMap.mp h
  obtain ⟨source, hsource, h⟩ := List.mem_flatMap.mp h
  obtain ⟨target, htarget, rfl⟩ := List.mem_map.mp h
  rw [← (Register.proper_ofList _).under_eq hentry] at hsource
  exact ⟨hcollected hsource, hcollected htarget⟩

section Model

variable {model : Model} {a b : Machine}

theorem links_ofModel (model : Model) (source target : String) :
    (ofModel model).links source target =
      linksAmong (arcsOf (Usage.ofModel model).writers (Usage.ofModel model).readers .written)
          source target ++
        linksAmong (arcsOf (.ofList (model.collect Transition.emits))
          (.ofList (model.collect Transition.listens)) .synchronization) source target :=
  linksAmong_append _ _

theorem nodup_subjects_links (model : Model) (source target : String) :
    (((ofModel model).links source target).map Link.subject).Nodup := by
  rw [links_ofModel, List.map_append, List.nodup_append]
  refine ⟨nodup_subjects Link.subject_written_eq_iff,
    nodup_subjects Link.subject_synchronization_eq_iff, ?_⟩
  intro s hs s' hs' heq
  obtain ⟨l, hl, rfl⟩ := List.mem_map.mp hs
  obtain ⟨l', hl', rfl⟩ := List.mem_map.mp hs'
  obtain ⟨entry, -, rfl, -⟩ := mem_linksAmong_arcsOf.mp hl
  obtain ⟨entry', -, rfl, -⟩ := mem_linksAmong_arcsOf.mp hl'
  cases heq

/-- A link by a variable carries a variable that is assigned in the model. -/
theorem assigned_of_mem_links {v : Variable} {source target : String}
    (h : .written v ∈ (ofModel model).links source target) :
    ∃ m ∈ model.machines, ∃ t ∈ m.transitions, t.Assigns v := by
  rw [links_ofModel, List.mem_append] at h
  rcases h with h | h
  · obtain ⟨entry, hentry, hlink, -⟩ := mem_linksAmong_arcsOf.mp h
    cases hlink
    obtain ⟨machine, hmem⟩ := Register.exists_mem_of_mem_ofList hentry
    obtain ⟨m, hm, t, ht, hwrites, -⟩ := Model.exists_of_mem_collect hmem
    exact ⟨m, hm, t, ht, Model.represents_writes.uses_of_mem hwrites⟩
  · obtain ⟨entry, -, hlink, -⟩ := mem_linksAmong_arcsOf.mp h
    cases hlink

theorem mem_machines_of_mem_arcs {arc : Arc} (h : arc ∈ (ofModel model).arcs) :
    arc.source ∈ model.machineNames ∧ arc.target ∈ model.machineNames := by
  rcases List.mem_append.mp h with h | h
  · exact mem_machines_of_mem_arcsOf h
  · exact mem_machines_of_mem_arcsOf h

variable (hnames : model.machineNames.Nodup) (ha : a ∈ model.machines) (hb : b ∈ model.machines)
include hnames ha hb

theorem mem_subjects_written {s : VarId ⊕ String} :
    s ∈ (linksAmong (arcsOf (Usage.ofModel model).writers (Usage.ofModel model).readers .written)
        a.name b.name).map Link.subject ↔
      ∃ id, s = .inl id ∧ a.Uses Transition.Assigns id ∧ b.Uses Transition.Mentions id := by
  refine (mem_subjects Link.subject_written_eq_iff).trans ?_
  constructor
  · rintro ⟨v, rfl, hsource, htarget⟩
    exact ⟨v.id, rfl, (Model.represents_writes.mem_under hnames ha).mp hsource,
      (Model.represents_reads.mem_under hnames hb).mp htarget⟩
  · rintro ⟨id, rfl, hassigns, hmentions⟩
    obtain ⟨t, ht, v, hv, rfl⟩ := hassigns
    exact ⟨v, rfl, (Model.represents_writes.mem_under hnames ha).mpr ⟨t, ht, v, hv, rfl⟩,
      (Model.represents_reads.mem_under hnames hb).mpr hmentions⟩

theorem mem_subjects_synchronization {s : VarId ⊕ String} :
    s ∈ (linksAmong (arcsOf (.ofList (model.collect Transition.emits))
        (.ofList (model.collect Transition.listens)) .synchronization) a.name b.name).map
          Link.subject ↔
      ∃ name, s = .inr name ∧ (∃ t ∈ a.transitions, Action.emit name ∈ t.actions.members) ∧
        ∃ t ∈ b.transitions, Event.synchronization name ∈ t.events.members := by
  refine (mem_subjects Link.subject_synchronization_eq_iff).trans ?_
  simp only [Model.mem_under_collect hnames ha, Model.mem_under_collect hnames hb,
    Transition.mem_emits, Transition.mem_listens]
  constructor
  · rintro ⟨name, rfl, h⟩
    exact ⟨name, rfl, h⟩
  · rintro ⟨name, rfl, h⟩
    exact ⟨name, rfl, h⟩

/-- The links of two machines are about what the one does and the other one reacts to. -/
theorem mem_subjects_links {s : VarId ⊕ String} :
    s ∈ ((ofModel model).links a.name b.name).map Link.subject ↔ a.Activates b s := by
  rw [links_ofModel, List.map_append, List.mem_append, mem_subjects_written hnames ha hb,
    mem_subjects_synchronization hnames ha hb]
  constructor
  · rintro (⟨id, rfl, hassigns, hmentions⟩ | ⟨name, rfl, hemits, hlistens⟩)
    · exact .written hassigns hmentions
    · exact .synchronization hemits hlistens
  · intro h
    cases h with
    | written hassigns hmentions => exact .inl ⟨_, rfl, hassigns, hmentions⟩
    | synchronization hemits hlistens => exact .inr ⟨_, rfl, hemits, hlistens⟩

end Model

theorem mem_successors_iff {activation : Activation} {source target : String} :
    target ∈ activation.successors source ↔
      target ∈ activation.machines ∧ activation.links source target ≠ [] := by
  unfold successors links
  rw [List.mem_filter, ne_eq, List.map_eq_nil_iff, List.filter_eq_nil_iff]
  simp

structure Rearranged (activation activation' : Activation) : Prop where
  machines : activation.machines = activation'.machines
  arcs : activation.arcs.Perm activation'.arcs

theorem rearranged_reverse (activation : Activation) :
    Rearranged ⟨activation.machines, activation.arcs.reverse⟩ activation :=
  ⟨rfl, List.reverse_perm _⟩

theorem Rearranged.links_perm {activation activation' : Activation}
    (h : activation.Rearranged activation') (source target : String) :
    (activation.links source target).Perm (activation'.links source target) :=
  (h.arcs.filter _).map _

/-- Two machines have one link for each variable that the first one assigns and the second one
mentions in a guard or in a change that triggers it, one for each synchronization that the first
one emits and the second one waits for, and no other links; a machine and itself are such a pair
too. The successors of a machine are the machines that it is linked to, each once and in the order
of the model. Arcs lead from machines of the model to machines of the model. All this holds in
whatever order the arcs are kept. -/
theorem activation_exact (model : Model) (hnames : model.machineNames.Nodup)
    (activation : Activation) (harranged : activation.Rearranged (ofModel model)) :
    (∀ a ∈ model.machines, ∀ b ∈ model.machines,
      ((activation.links a.name b.name).map Link.subject).Nodup ∧
      (∀ s, s ∈ (activation.links a.name b.name).map Link.subject ↔ a.Activates b s) ∧
      ∀ v, .written v ∈ activation.links a.name b.name →
        ∃ m ∈ model.machines, ∃ t ∈ m.transitions, t.Assigns v) ∧
    (∀ a ∈ model.machines,
      (activation.successors a.name).Sublist model.machineNames ∧
      (activation.successors a.name).Nodup ∧
      ∀ name, name ∈ activation.successors a.name ↔
        ∃ b ∈ model.machines, b.name = name ∧ activation.links a.name b.name ≠ []) ∧
    activation.machines = model.machineNames ∧
    ∀ arc ∈ activation.arcs,
      arc.source ∈ activation.machines ∧ arc.target ∈ activation.machines := by
  have hmachines : activation.machines = model.machineNames := harranged.machines
  refine ⟨?_, ?_, hmachines, ?_⟩
  · intro a ha b hb
    have hlinks := harranged.links_perm a.name b.name
    have hsubjects := hlinks.map Link.subject
    refine ⟨hsubjects.nodup_iff.mpr (nodup_subjects_links model _ _), fun s => ?_, fun v hv => ?_⟩
    · rw [hsubjects.mem_iff]
      exact mem_subjects_links hnames ha hb
    · exact assigned_of_mem_links (hlinks.mem_iff.mp hv)
  · intro a _
    have hsublist : (activation.successors a.name).Sublist model.machineNames :=
      hmachines ▸ List.filter_sublist
    refine ⟨hsublist, hsublist.nodup hnames, fun name => ?_⟩
    rw [mem_successors_iff, hmachines]
    constructor
    · rintro ⟨hname, hlinks⟩
      obtain ⟨b, hb, rfl⟩ := List.mem_map.mp hname
      exact ⟨b, hb, rfl, hlinks⟩
    · rintro ⟨b, hb, rfl, hlinks⟩
      exact ⟨List.mem_map_of_mem hb, hlinks⟩
  · intro arc harc
    rw [hmachines]
    exact mem_machines_of_mem_arcs (harranged.arcs.mem_iff.mp harc)

/-- A machine assigns one variable in two transitions and reads it itself; another machine reads
it too, in a guard and in a trigger, and waits for what the first one emits. With the arcs the
other way round the links are too. -/
theorem activation_exact_on_two_machines :
    let x : Variable := ⟨⟨1, Nat.one_pos⟩, "X", .boolean⟩
    let set : Transition :=
      ⟨"s", "s", ⟨[.external "on"]⟩, none, ⟨[.assign x (.ofBool true), .emit "go"]⟩⟩
    let reset : Transition :=
      ⟨"s", "s", ⟨[.external "off"]⟩, some (.atom x), ⟨[.assign x (.ofBool false)]⟩⟩
    let follow : Transition :=
      ⟨"s", "s", ⟨[.synchronization "go", .change x (.ofBool true)]⟩, some (.atom x), ⟨[]⟩⟩
    let reader : Machine := ⟨"reader", [⟨"s", [follow, follow]⟩]⟩
    let writer : Machine := ⟨"writer", [⟨"s", [set, reset]⟩]⟩
    let model : Model := ⟨"model", [reader, writer]⟩
    let reversed : Activation := ⟨model.machineNames, (ofModel model).arcs.reverse⟩
    model.machineNames.Nodup ∧ reversed.Rearranged (ofModel model) ∧
      (ofModel model).links "writer" "reader" = [.written x, .synchronization "go"] ∧
      reversed.links "writer" "reader" = [.synchronization "go", .written x] ∧
      reversed.links "writer" "writer" = [.written x] ∧
      reversed.successors "writer" = ["reader", "writer"] ∧
      reversed.successors "reader" = [] ∧
      ∀ s, writer.Activates reader s ↔ s = .inl x.id ∨ s = .inr "go" := by
  intro x set reset follow reader writer model reversed
  have hnames : model.machineNames.Nodup := by decide
  have hreversed : reversed.Rearranged (ofModel model) := rearranged_reverse (ofModel model)
  have hlinks : reversed.links "writer" "reader" = [.synchronization "go", .written x] := by
    decide +kernel
  refine ⟨hnames, hreversed, by decide +kernel, hlinks, by decide +kernel, by decide +kernel,
    by decide +kernel, fun s => ?_⟩
  have hexact := ((activation_exact model hnames reversed hreversed).1 writer (by simp [model])
    reader (by simp [model])).2.1 s
  rw [← hexact, show writer.name = "writer" from rfl, show reader.name = "reader" from rfl, hlinks]
  simp [Link.subject, or_comm]

end Activation

end GuardedMachines
