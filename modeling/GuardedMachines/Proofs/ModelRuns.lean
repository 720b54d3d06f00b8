import GuardedMachines.Proofs.Building
import Mathlib.Data.List.Induction
import Mathlib.Data.List.TakeWhile

/-!
Runs of calls that build a model, granted or refused. What calls on a machine leave
can be said without running them: its states are the names that the calls mention,
each where it came first, and the transitions of a state are those added with it as
their source. A model is put together from its machines in the same way, where the
calls on a machine count from the one that created it.
-/

namespace GuardedMachines

theorem eraseDups_concat_of_mem {l : List String} {name : String} (h : name ∈ l) :
    (l ++ [name]).eraseDups = l.eraseDups := by
  simp [List.eraseDups_append, List.removeAll, h]

theorem eraseDups_concat_of_notMem {l : List String} {name : String} (h : name ∉ l) :
    (l ++ [name]).eraseDups = l.eraseDups ++ [name] := by
  have hsingle : [name].eraseDups = [name] := rfl
  simp [List.eraseDups_append, List.removeAll, h, hsingle]

namespace Machine

inductive Edit where
  | addState (name : String)
  | ensureState (name : String)
  | addTransition (t : Transition)

namespace Edit

def run (m : Machine) : Edit → Except ModelError Machine
  | addState name => m.addState name
  | ensureState name => .ok (m.ensureState name)
  | addTransition t => .ok (m.addTransition t)

theorem grows {m m' : Machine} {edit : Edit} (h : edit.run m = .ok m') : m.Grows m' := by
  cases edit with
  | addState name => exact .addState h
  | ensureState name =>
    cases h
    exact .ensureState m name
  | addTransition t =>
    cases h
    exact .addTransition m t

theorem run_eq_error_iff {m : Machine} {edit : Edit} {e : ModelError} :
    edit.run m = .error e ↔ ∃ state, edit = .addState state ∧ state ∈ m.states.map State.name ∧
      e = .duplicateState m.name state := by
  cases edit with
  | addState state =>
    rw [run, Machine.addState]
    by_cases h : (m.state? state).isSome = true
    · rw [if_pos h]
      constructor
      · intro heq
        exact ⟨state, rfl, isSome_state?_iff.mp h, (Except.error.inj heq).symm⟩
      · rintro ⟨_, hedit, -, rfl⟩
        cases hedit
        rfl
    · rw [if_neg h]
      constructor
      · intro heq
        cases heq
      · rintro ⟨_, hedit, hmem, -⟩
        cases hedit
        exact absurd (isSome_state?_iff.mpr hmem) h
  | ensureState state => simp [run]
  | addTransition t => simp [run]

def mentions : Edit → List String
  | addState name => [name]
  | ensureState name => [name]
  | addTransition t => [t.destination, t.source]

def transition? : Edit → Option Transition
  | addTransition t => some t
  | _ => none

def mentioned (edits : List Edit) : List String := edits.flatMap mentions

def added (edits : List Edit) : List Transition := edits.filterMap transition?

theorem addTransition_mem_of_mem_added {edits : List Edit} {t : Transition} (h : t ∈ added edits) :
    .addTransition t ∈ edits := by
  obtain ⟨edit, hedit, ht⟩ := List.mem_filterMap.mp h
  cases edit with
  | addTransition u =>
    cases ht
    exact hedit
  | addState name => cases ht
  | ensureState name => cases ht

theorem source_mem_mentioned {edits : List Edit} {t : Transition} (h : t ∈ added edits) :
    t.source ∈ mentioned edits :=
  List.mem_flatMap.mpr
    ⟨_, addTransition_mem_of_mem_added h, List.mem_cons_of_mem _ List.mem_cons_self⟩

theorem destination_mem_mentioned {edits : List Edit} {t : Transition} (h : t ∈ added edits) :
    t.destination ∈ mentioned edits :=
  List.mem_flatMap.mpr ⟨_, addTransition_mem_of_mem_added h, List.mem_cons_self⟩

end Edit

def edited (m : Machine) (edit : Edit) : Machine :=
  match edit.run m with
  | .ok m' => m'
  | .error _ => m

theorem edited_addState (m : Machine) (s : String) : m.edited (.addState s) = m.ensureState s := by
  simp only [edited, Edit.run, addState]
  by_cases hs : (m.state? s).isSome = true
  · rw [if_pos hs, ensureState, if_pos hs]
  · rw [if_neg hs]

def after (m : Machine) (edits : List Edit) : Machine := edits.foldl edited m

theorem after_concat (m : Machine) (edits : List Edit) (edit : Edit) :
    m.after (edits ++ [edit]) = (m.after edits).edited edit :=
  List.foldl_append

/-- The machine that has the states, each where it came first and with the transitions that
leave it. -/
def assembled (name : String) (states : List String) (transitions : List Transition) : Machine :=
  ⟨name, states.eraseDups.map fun s => ⟨s, transitions.filter fun t => t.source == s⟩⟩

section Assembled

variable {name s : String} {states : List String} {transitions : List Transition}

theorem map_name_assembled :
    (assembled name states transitions).states.map State.name = states.eraseDups := by
  unfold assembled
  rw [List.map_map]
  exact List.map_id _

theorem isSome_state?_assembled :
    ((assembled name states transitions).state? s).isSome = true ↔ s ∈ states := by
  rw [isSome_state?_iff, map_name_assembled, List.mem_eraseDups]

theorem mem_states_assembled (h : s ∈ states) :
    ⟨s, transitions.filter fun t => t.source == s⟩ ∈ (assembled name states transitions).states :=
  List.mem_map_of_mem (List.mem_eraseDups.mpr h)

theorem transitions_of_mem_assembled {state : State}
    (h : state ∈ (assembled name states transitions).states) :
    state.transitions = transitions.filter fun t => t.source == state.name := by
  obtain ⟨s, -, rfl⟩ := List.mem_map.mp h
  rfl

variable (h : ∀ t ∈ transitions, t.source ∈ states)

include h

theorem ensureState_assembled (s : String) :
    (assembled name states transitions).ensureState s =
      assembled name (states ++ [s]) transitions := by
  unfold ensureState
  by_cases hs : s ∈ states
  · rw [if_pos (isSome_state?_assembled.mpr hs), assembled, assembled, eraseDups_concat_of_mem hs]
  · -- A state that is new leaves no transition behind that was added before it.
    have hnone : (transitions.filter fun t => t.source == s) = [] := by
      rw [List.filter_eq_nil_iff]
      intro t ht hsource
      exact hs (beq_iff_eq.mp hsource ▸ h t ht)
    rw [if_neg (mt isSome_state?_assembled.mp hs), assembled, assembled,
      eraseDups_concat_of_notMem hs, List.map_append, List.map_singleton, hnone]

theorem addTransition_assembled (t : Transition) :
    (assembled name states transitions).addTransition t =
      assembled name (states ++ [t.destination, t.source]) (transitions ++ [t]) := by
  have h' : ∀ u ∈ transitions, u.source ∈ states ++ [t.destination] :=
    fun u hu => List.mem_append_left _ (h u hu)
  unfold addTransition
  rw [ensureState_assembled h, ensureState_assembled h', List.append_assoc, List.singleton_append]
  unfold assembled
  dsimp only
  rw [List.map_map]
  congr 1
  apply List.map_congr_left
  intro s _
  rw [Function.comp_apply, List.filter_append]
  dsimp only
  by_cases hs : s = t.source
  · subst hs
    simp
  · simp [hs, Ne.symm hs]

/-- A call adds what it mentions, whether or not it is granted. -/
theorem edited_assembled (edit : Edit) :
    (assembled name states transitions).edited edit =
      assembled name (states ++ edit.mentions) (transitions ++ edit.transition?.toList) := by
  cases edit with
  | addTransition t => exact addTransition_assembled h t
  | ensureState s =>
    show _ = assembled name (states ++ [s]) (transitions ++ [])
    rw [List.append_nil]
    exact ensureState_assembled h s
  | addState s =>
    show _ = assembled name (states ++ [s]) (transitions ++ [])
    rw [List.append_nil, edited_addState]
    exact ensureState_assembled h s

end Assembled

/-- What calls leave of a new machine. -/
theorem after_new (name : String) (edits : List Edit) :
    (new name).after edits = assembled name (Edit.mentioned edits) (Edit.added edits) := by
  induction edits using List.reverseRecOn with
  | nil => rfl
  | append_singleton edits edit ih =>
    rw [after_concat, ih, edited_assembled fun t => Edit.source_mem_mentioned]
    unfold Edit.mentioned Edit.added
    rw [List.flatMap_append, List.filterMap_append]
    cases edit <;> rfl

end Machine

namespace Model

/-- The calls that build a model. A call on a machine looks it up by its name. -/
inductive Call where
  | addMachine (name : String)
  | onMachine (name : String) (edit : Machine.Edit)

structure Reply where
  refusal? : Option ModelError
  model : Model

def Reply.ofResult (model : Model) : Except ModelError Model → Reply
  | .ok model' => ⟨none, model'⟩
  | .error e => ⟨some e, model⟩

namespace Call

def run (model : Model) : Call → Reply
  | addMachine name => .ofResult model (model.addMachine name)
  | onMachine name edit =>
    match model.machine? name with
    | some m => .ofResult model ((edit.run m).map model.setMachine)
    | none => ⟨none, model⟩

def created? : Call → Option String
  | addMachine name => some name
  | onMachine _ _ => none

def edit? (name : String) : Call → Option Machine.Edit
  | addMachine _ => none
  | onMachine other edit => if other = name then some edit else none

def created (calls : List Call) : List String := calls.filterMap created?

/-- The calls on a machine, from the one that creates it on. -/
def edits (name : String) (calls : List Call) : List Machine.Edit :=
  (calls.dropWhile fun call => call.created? != some name).filterMap (edit? name)

variable {name : String} {calls : List Call}

theorem edits_append (h : name ∈ created calls) (call : Call) :
    edits name (calls ++ [call]) = edits name calls ++ (call.edit? name).toList := by
  obtain ⟨creation, hmem, hcreates⟩ := List.mem_filterMap.mp h
  have hreached : ¬ (calls.dropWhile fun call => call.created? != some name).isEmpty = true := by
    rw [List.isEmpty_iff, List.dropWhile_eq_nil_iff]
    intro hall
    simpa [hcreates] using hall creation hmem
  unfold edits
  rw [List.dropWhile_append, if_neg hreached, List.filterMap_append, List.filterMap_cons]
  cases call.edit? name <;> rfl

theorem dropWhile_of_notMem (h : name ∉ created calls) :
    calls.dropWhile (fun call => call.created? != some name) = [] := by
  rw [List.dropWhile_eq_nil_iff]
  intro call hcall
  rw [bne_iff_ne]
  intro hcreates
  exact h (List.mem_filterMap.mpr ⟨call, hcall, hcreates⟩)

theorem edits_of_notMem (h : name ∉ created calls) : edits name calls = [] := by
  rw [edits, dropWhile_of_notMem h, List.filterMap_nil]

/-- Creating a machine is no call on one. -/
theorem edits_addMachine (name other : String) (calls : List Call) :
    edits name (calls ++ [.addMachine other]) = edits name calls := by
  by_cases h : name ∈ created calls
  · rw [edits_append h, edit?, Option.toList_none, List.append_nil]
  · rw [edits_of_notMem h, edits, List.dropWhile_append, dropWhile_of_notMem h]
    by_cases hother : other = name <;> simp [created?, edit?, hother]

end Call

def after (model : Model) (calls : List Call) : Model :=
  calls.foldl (fun model call => (call.run model).model) model

theorem after_concat (model : Model) (calls : List Call) (call : Call) :
    model.after (calls ++ [call]) = (call.run (model.after calls)).model :=
  List.foldl_append

/-- The model that has the machines, each where its name came first. -/
def assembled (title : String) (names : List String) (machine : String → Machine) : Model :=
  ⟨title, names.eraseDups.map machine⟩

section Assembled

variable {title name : String} {names : List String} {machine : String → Machine}

theorem assembled_congr {machine' : String → Machine}
    (h : ∀ name ∈ names, machine name = machine' name) :
    assembled title names machine = assembled title names machine' := by
  unfold assembled
  congr 1
  apply List.map_congr_left
  intro name hname
  exact h name (List.mem_eraseDups.mp hname)

variable (hname : ∀ name, (machine name).name = name)

include hname

theorem machineNames_assembled :
    (assembled title names machine).machineNames = names.eraseDups := by
  have hid : Machine.name ∘ machine = id := funext hname
  unfold machineNames assembled
  rw [List.map_map, hid, List.map_id]

theorem isSome_machine?_assembled :
    ((assembled title names machine).machine? name).isSome = true ↔ name ∈ names := by
  rw [isSome_machine?_iff, machineNames_assembled hname, List.mem_eraseDups]

theorem machine?_assembled (h : name ∈ names) :
    (assembled title names machine).machine? name = some (machine name) := by
  have hsome : ((assembled title names machine).machine? name).isSome = true :=
    (isSome_machine?_assembled hname).mpr h
  cases hfound : (assembled title names machine).machine? name with
  | none =>
    rw [hfound] at hsome
    cases hsome
  | some m =>
    obtain ⟨hmem, hm⟩ := mem_and_name_of_machine? hfound
    obtain ⟨other, -, rfl⟩ := List.mem_map.mp hmem
    rw [hname] at hm
    rw [hm]

theorem setMachine_assembled {m : Machine} (hm : m.name = name) :
    (assembled title names machine).setMachine m =
      assembled title names (Function.update machine name m) := by
  unfold setMachine assembled
  dsimp only
  rw [List.map_map]
  congr 1
  apply List.map_congr_left
  intro other _
  rw [Function.comp_apply, hname, hm]
  by_cases hother : other = name
  · rw [if_pos (beq_iff_eq.mpr hother), hother, Function.update_self]
  · rw [if_neg (mt beq_iff_eq.mp hother), Function.update_of_ne hother]

/-- Asking for a machine adds it where its name is new, and else does nothing. -/
theorem run_addMachine_assembled (hnew : name ∉ names → machine name = .new name) :
    ((Call.addMachine name).run (assembled title names machine)).model =
      assembled title (names ++ [name]) machine := by
  have hknown : ((assembled title names machine).machine? name).isSome = true ↔ name ∈ names :=
    isSome_machine?_assembled hname
  rw [Call.run, addMachine]
  by_cases h : name ∈ names
  · rw [if_pos (hknown.mpr h), assembled, assembled, eraseDups_concat_of_mem h]
    rfl
  · rw [if_neg (mt hknown.mp h), assembled, assembled, eraseDups_concat_of_notMem h,
      List.map_append, List.map_singleton, hnew h]
    rfl

/-- A call on a machine changes that machine only. -/
theorem run_onMachine_assembled (h : name ∈ names) (edit : Machine.Edit) :
    ((Call.onMachine name edit).run (assembled title names machine)).model =
      assembled title names (Function.update machine name ((machine name).edited edit)) := by
  rw [Call.run, machine?_assembled hname h, Machine.edited]
  dsimp only
  cases hrun : edit.run (machine name) with
  | error e =>
    rw [Function.update_eq_self]
    rfl
  | ok m =>
    have hm : m.name = name := (Machine.Edit.grows hrun).name_eq.trans (hname name)
    exact setMachine_assembled hname hm

theorem run_onMachine_assembled_of_notMem (h : name ∉ names) (edit : Machine.Edit) :
    ((Call.onMachine name edit).run (assembled title names machine)).model =
      assembled title names machine := by
  have hnone : (assembled title names machine).machine? name = none := by
    rw [← Option.not_isSome_iff_eq_none, isSome_machine?_assembled hname]
    exact h
  rw [Call.run, hnone]

end Assembled

/-- What calls leave of a new model. -/
theorem after_new (title : String) (calls : List Call) :
    (new title).after calls = assembled title (Call.created calls) fun name =>
      (Machine.new name).after (Call.edits name calls) := by
  have hname : ∀ calls name, ((Machine.new name).after (Call.edits name calls)).name = name := by
    intro calls name
    rw [Machine.after_new]
    rfl
  induction calls using List.reverseRecOn with
  | nil => rfl
  | append_singleton calls call ih =>
    rw [after_concat, ih]
    have hcreated : Call.created (calls ++ [call]) =
        Call.created calls ++ call.created?.toList := by
      rw [Call.created, List.filterMap_append]
      cases call <;> rfl
    rw [hcreated]
    cases call with
    | addMachine name =>
      simp only [Call.edits_addMachine]
      apply run_addMachine_assembled (hname calls)
      intro h
      rw [Call.edits_of_notMem h]
      rfl
    | onMachine name edit =>
      rw [Call.created?, Option.toList_none, List.append_nil]
      by_cases h : name ∈ Call.created calls
      · refine (run_onMachine_assembled (hname calls) h edit).trans (assembled_congr ?_)
        intro other hother
        rw [Call.edits_append hother, Call.edit?]
        by_cases heq : other = name
        · subst heq
          rw [Function.update_self, if_pos rfl, Option.toList_some, Machine.after_concat]
        · rw [Function.update_of_ne heq, if_neg (Ne.symm heq), Option.toList_none, List.append_nil]
      · refine (run_onMachine_assembled_of_notMem (hname calls) h edit).trans (assembled_congr ?_)
        intro other hother
        have hne : name ≠ other := fun heq => h (heq ▸ hother)
        rw [Call.edits_append hother, Call.edit?, if_neg hne, Option.toList_none, List.append_nil]

section Refusal

variable {model : Model} {result : Except ModelError Model} {e : ModelError}

theorem refusal?_ofResult :
    (Reply.ofResult model result).refusal? = some e ↔ result = .error e := by
  cases result <;> simp [Reply.ofResult]

theorem addMachine_eq_error_iff {name : String} :
    model.addMachine name = .error e ↔ name ∈ model.machineNames ∧ e = .duplicateMachine name := by
  rw [addMachine, ← isSome_machine?_iff]
  by_cases h : (model.machine? name).isSome = true
  · rw [if_pos h, Except.error.injEq, eq_comm]
    exact ⟨fun he => ⟨h, he⟩, And.right⟩
  · rw [if_neg h]
    constructor
    · intro heq
      cases heq
    · intro hmem
      exact absurd hmem.1 h

/-- A call is refused for a name that is in use, and only then. -/
theorem Call.refused_iff {call : Call} :
    (call.run model).refusal? = some e ↔
      (∃ name, call = .addMachine name ∧ name ∈ model.machineNames ∧
        e = .duplicateMachine name) ∨
      ∃ name state m, call = .onMachine name (.addState state) ∧ model.machine? name = some m ∧
        state ∈ m.states.map State.name ∧ e = .duplicateState name state := by
  cases call with
  | addMachine name =>
    rw [run, refusal?_ofResult, addMachine_eq_error_iff]
    constructor
    · intro h
      exact .inl ⟨name, rfl, h⟩
    · rintro (⟨_, hcall, h⟩ | ⟨_, _, _, hcall, -⟩)
      · cases hcall
        exact h
      · cases hcall
  | onMachine name edit =>
    rw [run]
    cases hm : model.machine? name with
    | none =>
      constructor
      · intro h
        cases h
      · rintro (⟨_, hcall, -⟩ | ⟨_, _, m, hcall, hmachine, -⟩)
        · cases hcall
        · cases hcall
          cases hm.symm.trans hmachine
    | some m =>
      have hmap : (edit.run m).map model.setMachine = .error e ↔ edit.run m = .error e := by
        cases edit.run m <;> simp [Except.map]
      have hname := (mem_and_name_of_machine? hm).2
      rw [refusal?_ofResult, hmap, Machine.Edit.run_eq_error_iff, hname]
      constructor
      · rintro ⟨state, rfl, hstate, he⟩
        exact .inr ⟨name, state, m, rfl, hm, hstate, he⟩
      · rintro (⟨_, hcall, -⟩ | ⟨_, state, m', hcall, hmachine, hstate, he⟩)
        · cases hcall
        · cases hcall
          cases hm.symm.trans hmachine
          exact ⟨state, rfl, hstate, he⟩

theorem model_ofResult (h : (Reply.ofResult model result).refusal? = some e) :
    (Reply.ofResult model result).model = model := by
  rw [refusal?_ofResult.mp h]
  rfl

theorem Call.unchanged_of_refused {call : Call} (h : (call.run model).refusal? = some e) :
    (call.run model).model = model := by
  cases call with
  | addMachine name => exact model_ofResult h
  | onMachine name edit =>
    rw [run] at h ⊢
    cases hm : model.machine? name with
    | none => rfl
    | some m =>
      rw [hm] at h
      exact model_ofResult h

end Refusal

theorem Built.run {model : Model} (h : model.Built) (call : Call) :
    (call.run model).model.Built := by
  cases call with
  | addMachine name =>
    rw [Call.run]
    cases hadd : model.addMachine name with
    | error e => exact h
    | ok model' => exact h.addMachine hadd
  | onMachine name edit =>
    rw [Call.run]
    cases hm : model.machine? name with
    | none => exact h
    | some m =>
      dsimp only
      cases hrun : edit.run m with
      | error e => exact h
      | ok m' => exact h.grow (mem_and_name_of_machine? hm).1 (Machine.Edit.grows hrun)

theorem built_after (title : String) (calls : List Call) : ((new title).after calls).Built := by
  induction calls using List.reverseRecOn with
  | nil => exact .new title
  | append_singleton calls call ih =>
    rw [after_concat]
    exact ih.run call

/-- A machine of a model is what the calls on it made of a new one. -/
theorem exists_assembled_of_mem_after {title : String} {calls : List Call} {m : Machine}
    (h : m ∈ ((new title).after calls).machines) :
    ∃ name, m = .assembled name (Machine.Edit.mentioned (Call.edits name calls))
      (Machine.Edit.added (Call.edits name calls)) := by
  rw [after_new] at h
  obtain ⟨name, -, rfl⟩ := List.mem_map.mp h
  exact ⟨name, Machine.after_new name _⟩

/-- Models over whole runs of calls, refused ones included. Names of machines are unique and in
the order in which they were first asked for, and so are the names of states within a machine; a
transition adds its destination before its source. The transitions of a state are those that were
added with it as their source, in order, and each of them leads to a state of the machine. A call
is refused exactly for a name that is in use, and then changes nothing. -/
theorem building_of_calls (title : String) (calls : List Call) :
    let model := (new title).after calls
    model.machineNames.Nodup ∧ (∀ m ∈ model.machines, (m.states.map State.name).Nodup) ∧
    model.machineNames = (Call.created calls).eraseDups ∧
    (∀ m ∈ model.machines, let edits := Call.edits m.name calls
      m.states.map State.name = (Machine.Edit.mentioned edits).eraseDups ∧
      (∀ s ∈ m.states, s.transitions =
        (Machine.Edit.added edits).filter fun t => t.source == s.name) ∧
      (∀ s ∈ m.states, ∀ t ∈ s.transitions, t.source = s.name ∧
        ∃ s' ∈ m.states, s'.name = t.destination) ∧
      ∀ t ∈ Machine.Edit.added edits, ∃ s ∈ m.states, s.name = t.source ∧ t ∈ s.transitions) ∧
    ∀ (call : Call) (e : ModelError),
      ((call.run model).refusal? = some e ↔
        (∃ name, call = .addMachine name ∧ name ∈ model.machineNames ∧
          e = .duplicateMachine name) ∨
        ∃ name state m, call = .onMachine name (.addState state) ∧ model.machine? name = some m ∧
          state ∈ m.states.map State.name ∧ e = .duplicateState name state) ∧
      ((call.run model).refusal? = some e → (call.run model).model = model) := by
  intro model
  have hnamed := (built_after title calls).wellNamed
  refine ⟨hnamed.machines, hnamed.states, ?_, ?_, ?_⟩
  · show ((new title).after calls).machineNames = _
    rw [after_new]
    apply machineNames_assembled
    intro name
    rw [Machine.after_new]
    rfl
  · intro m hm edits
    obtain ⟨name, rfl⟩ := exists_assembled_of_mem_after hm
    refine ⟨Machine.map_name_assembled, fun s => Machine.transitions_of_mem_assembled, ?_, ?_⟩
    · intro s hs t ht
      rw [Machine.transitions_of_mem_assembled hs] at ht
      obtain ⟨hadded, hsource⟩ := List.mem_filter.mp ht
      have hdestination := Machine.Edit.destination_mem_mentioned hadded
      exact ⟨beq_iff_eq.mp hsource, _, Machine.mem_states_assembled hdestination, rfl⟩
    · intro t ht
      have hsource := Machine.Edit.source_mem_mentioned ht
      exact ⟨_, Machine.mem_states_assembled hsource, rfl,
        List.mem_filter.mpr ⟨ht, beq_self_eq_true _⟩⟩
  · exact fun call e => ⟨Call.refused_iff, Call.unchanged_of_refused⟩

/-- A call on a machine before there is one, a destination that comes before its source and is
then asked for as a new state, a machine that is asked for twice and a transition from a state to
itself. -/
theorem building_of_refused_calls :
    let go (source destination : String) : Transition :=
      ⟨source, destination, ⟨[.external "go"]⟩, none, .empty⟩
    let calls : List Call := [.onMachine "m" (.addState "9"), .addMachine "m", .addMachine "n",
      .onMachine "m" (.addTransition (go "2" "0")), .onMachine "m" (.addState "0"),
      .addMachine "m", .onMachine "m" (.ensureState "1"),
      .onMachine "m" (.addTransition (go "0" "0")), .onMachine "m" (.addTransition (go "2" "1"))]
    let m : Machine :=
      ⟨"m", [⟨"0", [go "0" "0"]⟩, ⟨"2", [go "2" "0", go "2" "1"]⟩, ⟨"1", []⟩]⟩
    let model : Model := ⟨"model", [m, .new "n"]⟩
    (new "model").after calls = model ∧
    Machine.Edit.mentioned (Call.edits "m" calls) = ["0", "2", "0", "1", "0", "0", "1", "2"] ∧
    Machine.Edit.added (Call.edits "m" calls) = [go "2" "0", go "0" "0", go "2" "1"] ∧
    m.states.map State.name = (Machine.Edit.mentioned (Call.edits "m" calls)).eraseDups ∧
    (∃ s ∈ m.states, s.name = "2" ∧ go "2" "1" ∈ s.transitions) ∧
    ((Call.onMachine "m" (.addState "0")).run model).refusal? = some (.duplicateState "m" "0") ∧
    ((Call.onMachine "m" (.addState "0")).run model).model = model := by
  intro go calls m model
  have hmodel : (new "model").after calls = model := by decide +kernel
  have hadded : Machine.Edit.added (Call.edits "m" calls) =
      [go "2" "0", go "0" "0", go "2" "1"] := by decide +kernel
  have hlast : go "2" "1" ∈ Machine.Edit.added (Call.edits "m" calls) := by
    rw [hadded]
    simp
  have hbuilding := building_of_calls "model" calls
  rw [hmodel] at hbuilding
  obtain ⟨-, -, -, hmachines, hcalls⟩ := hbuilding
  obtain ⟨hstates, -, -, hkept⟩ := hmachines m List.mem_cons_self
  have hrefused : ((Call.onMachine "m" (.addState "0")).run model).refusal? =
      some (.duplicateState "m" "0") :=
    (hcalls _ _).1.mpr (.inr ⟨"m", "0", m, rfl, by decide +kernel, List.mem_cons_self, rfl⟩)
  exact ⟨hmodel, by decide +kernel, hadded, hstates, hkept _ hlast, hrefused,
    (hcalls _ _).2 hrefused⟩

end Model

end GuardedMachines
