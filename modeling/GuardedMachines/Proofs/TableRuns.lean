import GuardedMachines.Proofs.Condition.Declaring
import Mathlib.Data.List.Induction

/-!
Runs of calls on a variable table. All holders of a table work on the same one,
so that whatever they do is a single sequence of calls. A call comes down to
requests for names with a domain, one after the other: a request for a new name
appends a variable with the next identifier and every other one leaves the table
as it is. A table is therefore the list of the names asked for, each where it
came first and with the domain it was first asked for with, and what a holder
got from the table at any time is what the table says later on.
-/

namespace GuardedMachines.VariableTable

/-- Identifiers count from one, and each variable is found under its name. -/
structure WellFormed (table : VariableTable) : Prop where
  numbered : table.vars.map (fun v => v.id.number) = List.range' 1 table.size
  found : ∀ v ∈ table.vars, table.get? v.name = some v

def enter (table : VariableTable) (request : String × Domain) : VariableTable :=
  match table.intern request.1 request.2 with
  | .ok (_, table') => table'
  | .error _ => table

variable {table : VariableTable} {name other : String} {domain : Domain} {v w : Variable}

theorem intern_of_get? (h : table.get? name = some v) :
    table.intern name domain =
      if v.domain = domain then .ok (v, table) else .error (.domainMismatch name v.domain) := by
  simp only [intern, h]

theorem intern_of_none (h : table.get? name = none) :
    table.intern name domain =
      .ok (⟨table.nextId, name, domain⟩, ⟨table.vars ++ [⟨table.nextId, name, domain⟩]⟩) := by
  simp only [intern, h]

/-- A request is refused exactly where the name has another domain, and the refusal tells it. -/
theorem intern_eq_error_iff {cause : VariableError} :
    table.intern name domain = .error cause ↔
      ∃ v, table.get? name = some v ∧ v.domain ≠ domain ∧
        cause = .domainMismatch name v.domain := by
  cases h : table.get? name with
  | none => simp [intern_of_none h]
  | some v =>
    rw [intern_of_get? h]
    by_cases hdomain : v.domain = domain
    · simp [hdomain]
    · rw [if_neg hdomain]
      constructor
      · intro heq
        cases heq
        exact ⟨v, rfl, hdomain, rfl⟩
      · rintro ⟨w, hw, -, rfl⟩
        cases hw
        rfl

theorem enter_of_get? (h : table.get? name = some v) : table.enter (name, domain) = table := by
  simp only [enter, intern_of_get? h]
  by_cases hdomain : v.domain = domain
  · simp only [if_pos hdomain]
  · simp only [if_neg hdomain]

theorem enter_of_none (h : table.get? name = none) :
    table.enter (name, domain) = ⟨table.vars ++ [⟨table.nextId, name, domain⟩]⟩ := by
  simp only [enter, intern_of_none h]

theorem enter_boolean (table : VariableTable) (name : String) :
    table.enter (name, .boolean) = (table.getOrBoolean name).2 := by
  cases h : table.get? name with
  | none => rw [enter_of_none h, getOrBoolean_of_none h]
  | some v => rw [enter_of_get? h, getOrBoolean_of_get? h]

/-- A request makes its name known where it was not, and changes nothing else. -/
theorem get?_enter (table : VariableTable) (name other : String) (domain : Domain) :
    (table.enter (name, domain)).get? other =
      (table.get? other).or
        (if name = other then some ⟨table.nextId, name, domain⟩ else none) := by
  cases h : table.get? name with
  | none => rw [enter_of_none h, get?_append]
  | some v =>
    rw [enter_of_get? h]
    by_cases heq : name = other
    · rw [← heq, h, Option.some_or]
    · rw [if_neg heq, Option.or_none]

theorem mem_names_iff : name ∈ table.vars.map Variable.name ↔ ∃ v, table.get? name = some v := by
  constructor
  · intro h
    obtain ⟨w, hw, hname⟩ := List.mem_map.mp h
    cases hget : table.get? name with
    | some v => exact ⟨v, rfl⟩
    | none => exact absurd (beq_iff_eq.mpr hname) (List.find?_eq_none.mp hget w hw)
  · rintro ⟨v, hv⟩
    exact List.mem_map.mpr ⟨v, List.mem_of_find?_eq_some hv, name_of_get? hv⟩

theorem empty_wellFormed : empty.WellFormed := ⟨rfl, fun _ h => absurd h List.not_mem_nil⟩

theorem WellFormed.enter (h : table.WellFormed) (request : String × Domain) :
    (table.enter request).WellFormed := by
  obtain ⟨name, domain⟩ := request
  cases hget : table.get? name with
  | some v =>
    rw [enter_of_get? hget]
    exact h
  | none =>
    constructor
    · rw [enter_of_none hget]
      have hsize : size ⟨table.vars ++ [⟨table.nextId, name, domain⟩]⟩ = table.size + 1 :=
        List.length_append
      rw [hsize, List.range'_1_concat, Nat.add_comm 1, List.map_append, h.numbered]
      rfl
    · intro v hv
      rw [get?_enter]
      rw [enter_of_none hget, List.mem_append, List.mem_singleton] at hv
      rcases hv with hv | rfl
      · rw [h.found v hv, Option.some_or]
      · rw [hget, Option.none_or, if_pos rfl]

theorem prefix_enter (table : VariableTable) (request : String × Domain) :
    table.vars <+: (table.enter request).vars := by
  obtain ⟨name, domain⟩ := request
  cases h : table.get? name with
  | some v => rw [enter_of_get? h]
  | none =>
    rw [enter_of_none h]
    exact List.prefix_append _ _

/-- What is found in a table is found in every table that continues it. -/
theorem get?_of_prefix {table' : VariableTable} (hstart : table.vars <+: table'.vars)
    (h : table.get? name = some v) : table'.get? name = some v := by
  obtain ⟨rest, hrest⟩ := hstart
  unfold get? at h ⊢
  rw [← hrest, List.find?_append, h, Option.some_or]

/-- Equal variables are those with one name, since both identifiers and names are given once. -/
theorem WellFormed.beq_iff_name (h : table.WellFormed) (hv : table.get? v.name = some v)
    (hw : table.get? w.name = some w) : (v == w) = true ↔ v.name = w.name := by
  have hids : (table.vars.map fun v => v.id.number).Nodup := by
    rw [h.numbered]
    exact List.nodup_range'
  constructor
  · intro heq
    have hid : v.id = w.id := (Variable.beq_iff v w).mp heq
    have hsame := List.inj_on_of_nodup_map hids (List.mem_of_find?_eq_some hv)
      (List.mem_of_find?_eq_some hw) (congrArg VarId.number hid)
    rw [hsame]
  · intro hname
    rw [hname, hw] at hv
    cases hv
    exact (Variable.beq_iff v v).mpr rfl

def enterAll (table : VariableTable) (requests : List (String × Domain)) : VariableTable :=
  requests.foldl enter table

theorem enterAll_append (table : VariableTable) (requests requests' : List (String × Domain)) :
    table.enterAll (requests ++ requests') = (table.enterAll requests).enterAll requests' :=
  List.foldl_append

theorem enterAll_boolean (table : VariableTable) (names : List String) :
    table.enterAll (names.map fun name => (name, .boolean)) = table.declare names := by
  induction names generalizing table with
  | nil => rfl
  | cons name names ih =>
    rw [declare_cons, ← enter_boolean]
    exact ih _

theorem WellFormed.enterAll (h : table.WellFormed) (requests : List (String × Domain)) :
    (table.enterAll requests).WellFormed := by
  induction requests generalizing table with
  | nil => exact h
  | cons request requests ih => exact ih (h.enter request)

theorem prefix_enterAll (table : VariableTable) (requests : List (String × Domain)) :
    table.vars <+: (table.enterAll requests).vars := by
  induction requests generalizing table with
  | nil => exact List.prefix_refl _
  | cons request requests ih => exact (table.prefix_enter request).trans (ih _)

/-- The variables stand in the order in which their names were first asked for. -/
theorem names_enterAll (requests : List (String × Domain)) :
    (empty.enterAll requests).vars.map Variable.name = (requests.map Prod.fst).eraseDups := by
  induction requests using List.reverseRecOn with
  | nil => rfl
  | append_singleton requests request ih =>
    obtain ⟨name, domain⟩ := request
    rw [enterAll_append, List.map_append, List.eraseDups_append, ← ih]
    show ((empty.enterAll requests).enter (name, domain)).vars.map Variable.name = _
    have hmem : name ∈ requests.map Prod.fst ↔
        name ∈ (empty.enterAll requests).vars.map Variable.name := by
      rw [ih, List.mem_eraseDups]
    cases hget : (empty.enterAll requests).get? name with
    | some v =>
      have hold := hmem.mpr (mem_names_iff.mpr ⟨v, hget⟩)
      rw [enter_of_get? hget]
      simp [List.removeAll, hold]
    | none =>
      have hnew : name ∉ requests.map Prod.fst := by
        rw [hmem, mem_names_iff, hget]
        rintro ⟨v, hv⟩
        cases hv
      have hsingle : [name].eraseDups = [name] := rfl
      rw [enter_of_none hget]
      simp [List.removeAll, hnew, hsingle]

/-- A name has the domain that it was first asked for with. -/
theorem domain_enterAll (requests : List (String × Domain)) (name : String) :
    ((empty.enterAll requests).get? name).map Variable.domain = requests.lookup name := by
  induction requests using List.reverseRecOn with
  | nil => rfl
  | append_singleton requests request ih =>
    obtain ⟨asked, domain⟩ := request
    rw [enterAll_append, List.lookup_append, ← ih]
    show (((empty.enterAll requests).enter (asked, domain)).get? name).map Variable.domain = _
    rw [get?_enter]
    cases (empty.enterAll requests).get? name with
    | some v => rfl
    | none =>
      by_cases heq : asked = name
      · simp [heq]
      · have hne : (name == asked) = false := beq_false_of_ne (Ne.symm heq)
        simp [heq, List.lookup_cons, hne]

inductive Call where
  | boolean (name : String)
  | enumerated (name : String) (values : List String)
  | intern (name : String) (domain : Domain)
  | parse (text : String)
  | get (name : String)
  | vars

/-- What a call hands out, why it was refused if it was, and the table that it leaves. -/
structure Reply where
  handles : List Variable
  refusal? : Option VariableError
  table : VariableTable

def Reply.ofInterning (table : VariableTable) :
    Except VariableError (Variable × VariableTable) → Reply
  | .ok (v, table') => ⟨[v], none, table'⟩
  | .error cause => ⟨[], some cause, table⟩

def Reply.ofParsed (parsed : Condition.Parsed) : Reply :=
  match parsed.result with
  | .ok (some f) => ⟨f.atoms, none, parsed.table⟩
  | _ => ⟨[], none, parsed.table⟩

namespace Call

def run (table : VariableTable) : Call → Reply
  | boolean name => .ofInterning table (table.boolean name)
  | enumerated name values => .ofInterning table (table.enumerated name values)
  | intern name domain => .ofInterning table (table.intern name domain)
  | parse text => .ofParsed (Condition.parse table text)
  | get name => ⟨(table.get? name).toList, none, table⟩
  | vars => ⟨table.vars, none, table⟩

def asks (table : VariableTable) : Call → List (String × Domain)
  | boolean name => [(name, .boolean)]
  | enumerated name values => [(name, .enumerated values)]
  | intern name domain => [(name, domain)]
  | parse text => (Condition.namesRead table text).map fun name => (name, .boolean)
  | get _ => []
  | vars => []

end Call

def after (table : VariableTable) : List Call → VariableTable
  | [] => table
  | call :: calls => after (call.run table).table calls

def handles (table : VariableTable) : List Call → List Variable
  | [] => []
  | call :: calls => (call.run table).handles ++ handles (call.run table).table calls

def asked (table : VariableTable) : List Call → List (String × Domain)
  | [] => []
  | call :: calls => call.asks table ++ asked (call.run table).table calls

theorem table_ofInterning (table : VariableTable) (name : String) (domain : Domain) :
    (Reply.ofInterning table (table.intern name domain)).table = table.enter (name, domain) := by
  unfold enter
  rcases table.intern name domain with cause | ⟨v, table'⟩ <;> rfl

theorem table_ofParsed (parsed : Condition.Parsed) :
    (Reply.ofParsed parsed).table = parsed.table := by
  unfold Reply.ofParsed
  split <;> rfl

theorem refusal?_ofParsed (parsed : Condition.Parsed) :
    (Reply.ofParsed parsed).refusal? = none := by
  unfold Reply.ofParsed
  split <;> rfl

/-- A call does to the table what its requests do. -/
theorem Call.table_run (table : VariableTable) (call : Call) :
    (call.run table).table = table.enterAll (call.asks table) := by
  cases call with
  | boolean name => exact table_ofInterning table name .boolean
  | enumerated name values => exact table_ofInterning table name (.enumerated values)
  | intern name domain => exact table_ofInterning table name domain
  | parse text =>
    show (Reply.ofParsed (Condition.parse table text)).table = _
    rw [table_ofParsed, Condition.table_parse]
    exact (table.enterAll_boolean _).symm
  | get name => rfl
  | vars => rfl

theorem after_eq_enterAll (table : VariableTable) (calls : List Call) :
    table.after calls = table.enterAll (table.asked calls) := by
  induction calls generalizing table with
  | nil => rfl
  | cons call calls ih =>
    rw [after, ih, asked, enterAll_append, call.table_run]

theorem after_append (table : VariableTable) (calls calls' : List Call) :
    table.after (calls ++ calls') = (table.after calls).after calls' := by
  induction calls generalizing table with
  | nil => rfl
  | cons call calls ih => exact ih _

theorem WellFormed.after (h : table.WellFormed) (calls : List Call) :
    (table.after calls).WellFormed := by
  rw [after_eq_enterAll]
  exact h.enterAll _

theorem prefix_after (table : VariableTable) (calls : List Call) :
    table.vars <+: (table.after calls).vars := by
  rw [after_eq_enterAll]
  exact table.prefix_enterAll _

/-- An interned variable is found under its name. -/
theorem get?_of_mem_ofInterning
    (hv : v ∈ (Reply.ofInterning table (table.intern name domain)).handles) :
    (Reply.ofInterning table (table.intern name domain)).table.get? v.name = some v := by
  rw [table_ofInterning, get?_enter]
  cases hget : table.get? name with
  | none =>
    rw [intern_of_none hget] at hv
    obtain rfl := List.mem_singleton.mp hv
    rw [hget, if_pos rfl, Option.none_or]
  | some w =>
    rw [intern_of_get? hget] at hv
    by_cases hdomain : w.domain = domain
    · rw [if_pos hdomain] at hv
      obtain rfl := List.mem_singleton.mp hv
      rw [name_of_get? hget, hget, Option.some_or]
    · rw [if_neg hdomain] at hv
      cases hv

theorem get?_of_mem_ofParsed {text : String}
    (hv : v ∈ (Reply.ofParsed (Condition.parse table text)).handles) :
    (Reply.ofParsed (Condition.parse table text)).table.get? v.name = some v := by
  rw [table_ofParsed]
  unfold Reply.ofParsed at hv
  split at hv
  · next f hf => exact Condition.get?_of_mem_atoms hf hv
  · cases hv

/-- What a call hands out is found, under its name, in the table that the call leaves. -/
theorem WellFormed.get?_of_mem_handles_run (h : table.WellFormed) {call : Call}
    (hv : v ∈ (call.run table).handles) : (call.run table).table.get? v.name = some v := by
  cases call with
  | boolean name => exact get?_of_mem_ofInterning hv
  | enumerated name values => exact get?_of_mem_ofInterning hv
  | intern name domain => exact get?_of_mem_ofInterning hv
  | parse text => exact get?_of_mem_ofParsed hv
  | get name =>
    have hget : table.get? name = some v := Option.mem_toList.mp hv
    show table.get? v.name = some v
    rw [name_of_get? hget, hget]
  | vars => exact h.found v hv

/-- What was handed out at any time is found under its name at the end. -/
theorem WellFormed.get?_of_mem_handles (h : table.WellFormed) {calls : List Call}
    (hv : v ∈ table.handles calls) : (table.after calls).get? v.name = some v := by
  induction calls generalizing table with
  | nil => cases hv
  | cons call calls ih =>
    rcases List.mem_append.mp hv with hnow | hlater
    · exact get?_of_prefix (prefix_after _ calls) (h.get?_of_mem_handles_run hnow)
    · apply ih _ hlater
      rw [call.table_run]
      exact h.enterAll _

theorem refused_of_ofInterning (name : String) (domain : Domain) {cause : VariableError}
    (h : (Reply.ofInterning table (table.intern name domain)).refusal? = some cause) :
    (Reply.ofInterning table (table.intern name domain)).table = table ∧
      table.intern name domain = .error cause := by
  cases hintern : table.intern name domain with
  | ok answer =>
    rw [hintern] at h
    cases h
  | error cause' =>
    rw [hintern] at h
    cases h
    exact ⟨rfl, rfl⟩

/-- A refused call was a single request, and it leaves the table as it was. -/
theorem Call.refused {call : Call} {cause : VariableError}
    (h : (call.run table).refusal? = some cause) :
    (call.run table).table = table ∧ ∃ name domain, call.asks table = [(name, domain)] ∧
      table.intern name domain = .error cause := by
  cases call with
  | boolean name =>
    obtain ⟨htable, hcause⟩ := refused_of_ofInterning name .boolean h
    exact ⟨htable, name, .boolean, rfl, hcause⟩
  | enumerated name values =>
    obtain ⟨htable, hcause⟩ := refused_of_ofInterning name (.enumerated values) h
    exact ⟨htable, name, .enumerated values, rfl, hcause⟩
  | intern name domain =>
    obtain ⟨htable, hcause⟩ := refused_of_ofInterning name domain h
    exact ⟨htable, name, domain, rfl, hcause⟩
  | parse text => cases (refusal?_ofParsed (Condition.parse table text)).symm.trans h
  | get name => cases h
  | vars => cases h

/-- A table over whole runs of calls, refused ones included. Names are numbered in the order in
which they were first asked for; the variables that the table has handed out, whenever and to
whom it did, are equal exactly if their names are; a look-up gives the variable that the name
has had from the first request for it on, with the domain of that request; and a refused call
changes nothing. -/
theorem interning_of_calls (before later : List Call) :
    let table := empty.after before
    let final := empty.after (before ++ later)
    let asked := empty.asked (before ++ later)
    let handles := empty.handles (before ++ later)
    final.vars.map Variable.name = (asked.map Prod.fst).eraseDups ∧
    final.vars.map (fun v => v.id.number) = List.range' 1 final.size ∧
    (∀ v ∈ handles, ∀ w ∈ handles, (v == w) = true ↔ v.name = w.name) ∧
    (∀ v ∈ handles, final.get? v.name = some v) ∧
    (∀ name, (final.get? name).map Variable.domain = asked.lookup name) ∧
    table.vars <+: final.vars ∧
    (∀ name v, table.get? name = some v → final.get? name = some v) ∧
    (∀ name domain cause, table.intern name domain = .error cause ↔
      ∃ v, table.get? name = some v ∧ v.domain ≠ domain ∧
        cause = .domainMismatch name v.domain) ∧
    (∀ call cause, (Call.run table call).refusal? = some cause →
      (Call.run table call).table = table ∧ ∃ name domain, call.asks table = [(name, domain)] ∧
        table.intern name domain = .error cause) := by
  intro table final asked handles
  have hfinal : final.WellFormed := empty_wellFormed.after _
  have hhandles : ∀ v ∈ handles, final.get? v.name = some v :=
    fun v hv => empty_wellFormed.get?_of_mem_handles hv
  have hstart : table.vars <+: final.vars := by
    show table.vars <+: (empty.after (before ++ later)).vars
    rw [after_append]
    exact table.prefix_after later
  have hasked : final = empty.enterAll asked := empty.after_eq_enterAll _
  refine ⟨?_, hfinal.numbered, ?_, hhandles, ?_, hstart, ?_, ?_, ?_⟩
  · rw [hasked]
    exact names_enterAll asked
  · intro v hv w hw
    exact hfinal.beq_iff_name (hhandles v hv) (hhandles w hw)
  · rw [hasked]
    exact domain_enterAll asked
  · exact fun name v => get?_of_prefix hstart
  · exact fun name domain cause => intern_eq_error_iff
  · exact fun call cause => Call.refused

/-- A name with its own values is asked for as a Boolean, first directly and then in a condition
that has interned another name before it is refused. The name keeps its values and identifier,
the other name stays, and a later condition mentions the variables handed out before. -/
theorem interning_of_refused_calls :
    let before : List Call := [.boolean "A", .enumerated "MODE" ["auto", "manual"]]
    let later : List Call := [.boolean "MODE", .parse "B et MODE", .parse "A ou B", .get "MODE"]
    let table := empty.after before
    let final := empty.after (before ++ later)
    (Call.run table (.boolean "MODE")).refusal? =
      some (.domainMismatch "MODE" (.enumerated ["auto", "manual"])) ∧
    (Call.run table (.boolean "MODE")).table = table ∧
    final.labels = ["A#1", "MODE#2", "B#3"] ∧
    (final.get? "MODE").map Variable.domain = some (.enumerated ["auto", "manual"]) ∧
    (empty.handles (before ++ later)).map Variable.label =
      ["A#1", "MODE#2", "A#1", "B#3", "MODE#2"] ∧
    ∀ v ∈ empty.handles (before ++ later), final.get? v.name = some v := by
  intro before later table final
  obtain ⟨-, -, -, hhandles, hdomain, -, -, -, hrefused⟩ := interning_of_calls before later
  have hrefusal : (Call.run table (.boolean "MODE")).refusal? =
      some (.domainMismatch "MODE" (.enumerated ["auto", "manual"])) := by decide +kernel
  refine ⟨hrefusal, (hrefused _ _ hrefusal).1, by decide +kernel, ?_, by decide +kernel, hhandles⟩
  rw [hdomain]
  decide +kernel

end GuardedMachines.VariableTable
