import GuardedMachines.VariableTable

/-!
Interning names as Boolean variables. A table refuses a name only if it has the
name with another domain. Interning keeps what a table knows and makes the name
known; a list of names is interned one after the other, so that each new name
gets its variable where it comes first.
-/

namespace GuardedMachines.VariableTable

def AdmitsBoolean (table : VariableTable) (name : String) : Prop :=
  ∀ v, table.get? name = some v → v.isBoolean = true

def declare (table : VariableTable) (names : List String) : VariableTable :=
  names.foldl (fun table name => (table.getOrBoolean name).2) table

/-- The variable that a name stands for, or would stand for if it were interned now. -/
def naming (table : VariableTable) (name : String) : Variable := (table.getOrBoolean name).1

variable {table : VariableTable} {name other : String} {v : Variable}

theorem name_of_get? (h : table.get? name = some v) : v.name = name := by
  have hname := List.find?_some h
  simpa using hname

theorem get?_append (table : VariableTable) (v : Variable) (name : String) :
    VariableTable.get? ⟨table.vars ++ [v]⟩ name =
      (table.get? name).or (if v.name = name then some v else none) := by
  unfold get?
  rw [List.find?_append]
  by_cases h : v.name = name <;> simp [h]

theorem getOrBoolean_of_get? (h : table.get? name = some v) :
    table.getOrBoolean name = (v, table) := by
  unfold getOrBoolean
  rw [h]

theorem getOrBoolean_of_none (h : table.get? name = none) :
    table.getOrBoolean name =
      (⟨table.nextId, name, .boolean⟩, ⟨table.vars ++ [⟨table.nextId, name, .boolean⟩]⟩) := by
  unfold getOrBoolean
  rw [h]

/-- Interning a name changes what the table knows at that name only. -/
theorem get?_getOrBoolean (table : VariableTable) (name other : String) :
    (table.getOrBoolean name).2.get? other =
      if other = name then some (table.getOrBoolean name).1 else table.get? other := by
  cases h : table.get? name with
  | some v =>
    rw [getOrBoolean_of_get? h]
    by_cases heq : other = name
    · rw [if_pos heq, heq, h]
    · rw [if_neg heq]
  | none =>
    rw [getOrBoolean_of_none h, get?_append]
    by_cases heq : other = name
    · rw [if_pos heq, heq, h, if_pos rfl]
      rfl
    · have hne : name ≠ other := fun hsame => heq hsame.symm
      rw [if_neg heq, if_neg hne, Option.or_none]

@[simp] theorem name_naming (table : VariableTable) (name : String) :
    (table.naming name).name = name := by
  unfold naming
  cases h : table.get? name with
  | some v =>
    rw [getOrBoolean_of_get? h]
    exact name_of_get? h
  | none => rw [getOrBoolean_of_none h]

theorem map_name_naming (table : VariableTable) (names : List String) :
    (names.map table.naming).map Variable.name = names := by
  induction names with
  | nil => rfl
  | cons first names ih => rw [List.map_cons, List.map_cons, name_naming, ih]

theorem naming_of_get? (h : table.get? name = some v) : table.naming name = v := by
  unfold naming
  rw [getOrBoolean_of_get? h]

/-- The table interns a name as a Boolean variable exactly when it admits it. -/
theorem boolean_eq_ok_iff {answer : Variable × VariableTable} :
    table.boolean name = .ok answer ↔
      table.AdmitsBoolean name ∧ answer = table.getOrBoolean name := by
  unfold boolean intern AdmitsBoolean
  cases h : table.get? name with
  | none =>
    rw [getOrBoolean_of_none h]
    constructor
    · intro heq
      cases heq
      exact ⟨fun v hv => (nomatch hv), rfl⟩
    · rintro ⟨-, rfl⟩
      rfl
  | some v =>
    rw [getOrBoolean_of_get? h]
    dsimp only
    by_cases hdomain : v.domain = .boolean
    · rw [if_pos hdomain]
      constructor
      · intro heq
        cases heq
        refine ⟨fun w hw => ?_, rfl⟩
        cases hw
        rw [Variable.isBoolean, hdomain]
        rfl
      · rintro ⟨-, rfl⟩
        rfl
    · rw [if_neg hdomain]
      constructor
      · intro heq
        cases heq
      · rintro ⟨hadmits, -⟩
        have hboolean := hadmits v rfl
        unfold Variable.isBoolean Domain.isBoolean at hboolean
        split at hboolean
        · next heq => exact absurd heq hdomain
        · cases hboolean

theorem admitsBoolean_getOrBoolean (h : table.AdmitsBoolean name) :
    (table.getOrBoolean name).1.isBoolean = true := by
  cases hget : table.get? name with
  | some v =>
    rw [getOrBoolean_of_get? hget]
    exact h v hget
  | none =>
    rw [getOrBoolean_of_none hget]
    rfl

@[simp] theorem declare_nil (table : VariableTable) : table.declare [] = table := rfl

@[simp] theorem declare_cons (table : VariableTable) (name : String) (names : List String) :
    table.declare (name :: names) = (table.getOrBoolean name).2.declare names := rfl

theorem declare_append (table : VariableTable) (names names' : List String) :
    table.declare (names ++ names') = (table.declare names).declare names' :=
  List.foldl_append

/-- What a table knows it keeps. -/
theorem get?_declare_of_some (names : List String) (h : table.get? name = some v) :
    (table.declare names).get? name = some v := by
  induction names generalizing table with
  | nil => exact h
  | cons first names ih =>
    rw [declare_cons]
    apply ih
    rw [get?_getOrBoolean]
    by_cases heq : name = first
    · subst first
      rw [if_pos rfl, getOrBoolean_of_get? h]
    · rw [if_neg heq, h]

/-- An interned name is known, as a Boolean variable unless it was known before. -/
theorem exists_get?_declare {names : List String} (hname : name ∈ names) :
    ∃ v, (table.declare names).get? name = some v ∧
      (table.AdmitsBoolean name → v.isBoolean = true) := by
  induction names generalizing table with
  | nil => cases hname
  | cons first names ih =>
    rw [declare_cons]
    by_cases heq : name = first
    · subst first
      refine ⟨(table.getOrBoolean name).1, ?_, admitsBoolean_getOrBoolean⟩
      apply get?_declare_of_some
      rw [get?_getOrBoolean, if_pos rfl]
    · have hrest : name ∈ names := (List.mem_cons.mp hname).resolve_left heq
      obtain ⟨v, hv, hboolean⟩ := @ih (table.getOrBoolean first).2 hrest
      refine ⟨v, hv, fun hadmits => hboolean ?_⟩
      intro w hw
      rw [get?_getOrBoolean, if_neg heq] at hw
      exact hadmits w hw

theorem get?_declare_naming {names : List String} (hname : name ∈ names) :
    (table.declare names).get? name = some ((table.declare names).naming name) := by
  obtain ⟨v, hv, -⟩ : ∃ v, (table.declare names).get? name = some v ∧ _ :=
    exists_get?_declare hname
  rw [naming_of_get? hv, hv]

/-- The variable of an interned name is settled where the name was interned. -/
theorem get?_declare_of_append {names names' : List String} (hname : name ∈ names)
    (h : (table.declare (names ++ names')).get? name = some v) :
    (table.declare names).get? name = some v := by
  obtain ⟨w, hw, -⟩ : ∃ w, (table.declare names).get? name = some w ∧ _ :=
    exists_get?_declare hname
  have hlater := get?_declare_of_some names' hw
  rw [← declare_append, h] at hlater
  rw [hw, hlater]

/-- Interning makes no name unfit for a Boolean variable, nor any fit. -/
theorem admitsBoolean_declare (names : List String) :
    (table.declare names).AdmitsBoolean name ↔ table.AdmitsBoolean name := by
  induction names generalizing table with
  | nil => rfl
  | cons first names ih =>
    rw [declare_cons, ih]
    unfold AdmitsBoolean
    rw [get?_getOrBoolean]
    by_cases heq : name = first
    · subst first
      rw [if_pos rfl]
      constructor
      · intro h v hv
        apply h v
        rw [getOrBoolean_of_get? hv]
      · intro h v hv
        cases hv
        exact admitsBoolean_getOrBoolean h
    · rw [if_neg heq]

/-- Names that are known need no interning. -/
theorem declare_of_known {names : List String}
    (h : ∀ name ∈ names, ∃ v, table.get? name = some v) : table.declare names = table := by
  induction names with
  | nil => rfl
  | cons first names ih =>
    obtain ⟨v, hv⟩ := h first List.mem_cons_self
    rw [declare_cons, getOrBoolean_of_get? hv]
    exact ih fun name hname => h name (List.mem_cons_of_mem first hname)

end GuardedMachines.VariableTable
