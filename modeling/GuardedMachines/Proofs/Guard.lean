import GuardedMachines.Formula.Basic
import GuardedMachines.Proofs.Ascending
import Mathlib.Data.Finset.Lattice.Lemmas

/-!
What a guard says. A guard holds under an assignment if its formula does, and
an absent guard always holds. Its value depends only on the identifiers that
occur in it, and these are the identifiers of the variables listed for it. The
second half of the module is about valuations: setting a variable overrides the
assignment that a valuation stands for at one identifier.
-/

namespace GuardedMachines

def idSet (vars : List Variable) : Finset VarId := (vars.map Variable.id).toFinset

@[simp] theorem mem_idSet {vars : List Variable} {id : VarId} :
    id ∈ idSet vars ↔ ∃ v ∈ vars, v.id = id := by
  simp [idSet]

@[simp] theorem idSet_append (vars vars' : List Variable) :
    idSet (vars ++ vars') = idSet vars ∪ idSet vars' := by
  simp [idSet]

theorem contains_iff_mem_idSet {vars : List Variable} {v : Variable} :
    Ascending.contains vars v = true ↔ v.id ∈ idSet vars := by
  rw [Ascending.contains_iff, mem_idSet]
  simp only [Variable.compare_eq_iff]
  exact exists_congr fun w => and_congr_right fun _ => eq_comm

theorem Ascending.Entered.idSet_eq {v : Variable} {vars vars' : List Variable}
    (h : Ascending.Entered v vars vars') : idSet vars' = {v.id} ∪ idSet vars := by
  ext id
  -- A variable with this identifier turns the question into one about the lists.
  have hcontains := h.contains_iff (b := ⟨id, "", .boolean⟩)
  rw [contains_iff_mem_idSet, contains_iff_mem_idSet, Variable.compare_eq_iff] at hcontains
  rw [hcontains, Finset.mem_union, Finset.mem_singleton]

theorem idSet_ofList (vars : List Variable) : idSet (Ascending.ofList vars) = idSet vars := by
  ext id
  have hcontains := Ascending.contains_ofList (l := vars) (b := ⟨id, "", .boolean⟩)
  rwa [contains_iff_mem_idSet, contains_iff_mem_idSet] at hcontains

namespace Ascending.Sorted

theorem pairwise_number {vars : List Variable} (h : Ascending.Sorted vars) :
    (vars.map Variable.id).Pairwise fun i j => i.number < j.number := by
  rw [List.pairwise_map]
  exact h.imp fun hvw => (Variable.compare_lt_iff _ _).mp hvw

theorem nodup_ids {vars : List Variable} (h : Ascending.Sorted vars) :
    (vars.map Variable.id).Nodup := by
  refine h.pairwise_number.imp fun hij heq => ?_
  rw [heq] at hij
  exact Nat.lt_irrefl _ hij

/-- Ascending lists of variables with the same identifiers list them alike. -/
theorem map_id_eq {vars vars' : List Variable} (h : Ascending.Sorted vars)
    (h' : Ascending.Sorted vars') (hids : idSet vars = idSet vars') :
    vars.map Variable.id = vars'.map Variable.id := by
  refine List.Perm.eq_of_pairwise ?_ h.pairwise_number h'.pairwise_number ?_
  · intro i j _ _ hij hji
    exact absurd hij (Nat.lt_asymm hji)
  · rw [List.perm_ext_iff_of_nodup h.nodup_ids h'.nodup_ids]
    intro id
    have hid := congrArg (id ∈ ·) hids
    simpa [idSet] using hid

end Ascending.Sorted

namespace Formula

def atoms : Formula → List Variable
  | atom v => [v]
  | neg f => f.atoms
  | conj p q => p.atoms ++ q.atoms
  | disj p q => p.atoms ++ q.atoms

theorem idSet_addVars (f : Formula) (acc : List Variable) :
    idSet (f.addVars acc) = idSet f.atoms ∪ idSet acc := by
  induction f generalizing acc with
  | atom v => exact (Ascending.entered_insert v acc).idSet_eq
  | neg f ih => exact ih acc
  | conj p q ihp ihq =>
    rw [addVars, ihq, ihp, atoms, idSet_append, Finset.union_left_comm, Finset.union_assoc]
  | disj p q ihp ihq =>
    rw [addVars, ihq, ihp, atoms, idSet_append, Finset.union_left_comm, Finset.union_assoc]

theorem sorted_addVars (f : Formula) {acc : List Variable} (hacc : Ascending.Sorted acc) :
    Ascending.Sorted (f.addVars acc) := by
  induction f generalizing acc with
  | atom v => exact (Ascending.entered_insert v acc).sorted hacc
  | neg f ih => exact ih hacc
  | conj p q ihp ihq => exact ihq (ihp hacc)
  | disj p q ihp ihq => exact ihq (ihp hacc)

theorem mem_atoms_of_mem_addVars {f : Formula} {acc : List Variable} {v : Variable}
    (h : v ∈ f.addVars acc) : v ∈ f.atoms ∨ v ∈ acc := by
  induction f generalizing acc with
  | atom w => exact ((Ascending.entered_insert w acc).mem_or_eq h).imp List.mem_singleton.mpr id
  | neg f ih => exact ih h
  | conj p q ihp ihq =>
    rcases ihq h with hq | h
    · exact .inl (List.mem_append_right _ hq)
    · exact (ihp h).imp (List.mem_append_left _) id
  | disj p q ihp ihq =>
    rcases ihq h with hq | h
    · exact .inl (List.mem_append_right _ hq)
    · exact (ihp h).imp (List.mem_append_left _) id

theorem holds_congr {a b : VarId → Bool} (f : Formula)
    (h : ∀ id ∈ idSet f.atoms, a id = b id) : f.holds a = f.holds b := by
  induction f with
  | atom v => exact h v.id (mem_idSet.mpr ⟨v, List.mem_singleton.mpr rfl, rfl⟩)
  | neg f ih => rw [holds, holds, ih h]
  | conj p q ihp ihq =>
    rw [atoms, idSet_append] at h
    rw [holds, holds, ihp fun id hid => h id (Finset.mem_union_left _ hid),
      ihq fun id hid => h id (Finset.mem_union_right _ hid)]
  | disj p q ihp ihq =>
    rw [atoms, idSet_append] at h
    rw [holds, holds, ihp fun id hid => h id (Finset.mem_union_left _ hid),
      ihq fun id hid => h id (Finset.mem_union_right _ hid)]

end Formula

namespace Guard

def holds (a : VarId → Bool) : Option Formula → Bool
  | some f => f.holds a
  | none => true

def eval (guard : Option Formula) (valuation : Valuation) : Bool :=
  match guard with
  | some f => f.eval valuation
  | none => true

theorem eval_eq_holds (guard : Option Formula) (valuation : Valuation) :
    eval guard valuation = holds valuation.assignment guard := by
  cases guard <;> rfl

def vars : Option Formula → List Variable
  | some f => f.vars
  | none => []

def atoms : Option Formula → List Variable
  | some f => f.atoms
  | none => []

def ids (guard : Option Formula) : Finset VarId := idSet (atoms guard)

/-- An identifier stands for one variable, as among the variables of one table. -/
def Coherent (guard : Option Formula) : Prop :=
  ∀ v ∈ atoms guard, ∀ w ∈ atoms guard, v.id = w.id → v = w

theorem idSet_vars (guard : Option Formula) : idSet (vars guard) = ids guard := by
  cases guard with
  | none => rfl
  | some f => exact (f.idSet_addVars []).trans (Finset.union_empty _)

theorem mem_atoms_of_mem_vars {guard : Option Formula} {v : Variable} (h : v ∈ vars guard) :
    v ∈ atoms guard := by
  cases guard with
  | none => exact h
  | some f => exact (Formula.mem_atoms_of_mem_addVars h).resolve_right List.not_mem_nil

theorem sorted_vars (guard : Option Formula) : Ascending.Sorted (vars guard) := by
  cases guard with
  | none => exact .nil
  | some f => exact f.sorted_addVars .nil

theorem holds_congr {a b : VarId → Bool} {guard : Option Formula}
    (h : ∀ id ∈ ids guard, a id = b id) : holds a guard = holds b guard := by
  cases guard with
  | none => rfl
  | some f => exact f.holds_congr h

@[simp] theorem holds_conjunction (a : VarId → Bool) (g h : Option Formula) :
    holds a (Formula.conjunction g h) = (holds a g && holds a h) := by
  cases g <;> cases h <;> simp [Formula.conjunction, holds, Formula.holds]

@[simp] theorem ids_conjunction (g h : Option Formula) :
    ids (Formula.conjunction g h) = ids g ∪ ids h := by
  cases g <;> cases h <;> simp [Formula.conjunction, ids, atoms, Formula.atoms, idSet]

end Guard

namespace Valuation

theorem lookupId_set (valuation : Valuation) (v : Variable) (b : Bool) (id : VarId) :
    (valuation.set v b).lookupId id = if v.id = id then some b else valuation.lookupId id := by
  obtain ⟨entries⟩ := valuation
  unfold set lookupId
  induction entries with
  | nil => by_cases h : v.id = id <;> simp [setEntry, h]
  | cons entry rest ih =>
    obtain ⟨w, c⟩ := entry
    unfold setEntry
    split
    · by_cases h : v.id = id <;> simp [h]
    · next heq =>
      rw [Variable.compare_eq_iff] at heq
      by_cases h : w.id = id <;> simp [heq, h]
    · next hgt =>
      have hne : v.id ≠ w.id := by
        rw [ne_eq, ← Variable.compare_eq_iff, hgt]
        exact nofun
      by_cases h : w.id = id
      · have hid : v.id ≠ id := fun heq => hne (heq.trans h.symm)
        simp [h, hid]
      · simpa [h] using ih

theorem assignment_set (valuation : Valuation) (v : Variable) (b : Bool) :
    (valuation.set v b).assignment = Function.update valuation.assignment v.id b := by
  funext id
  unfold assignment
  rw [lookupId_set]
  by_cases h : v.id = id
  · subst h
    simp
  · simp [h, Ne.symm h]

/-- Literals of different variables are all satisfied by the valuation they give. -/
theorem assignment_ofLiterals {literals : List Literal}
    (hnodup : (literals.map fun l => l.var.id).Nodup) {l : Literal} (hl : l ∈ literals) :
    (ofLiterals literals).assignment l.var.id = l.positive := by
  have hsnoc : ∀ (init : List Literal) (last : Literal),
      ofLiterals (init ++ [last]) = (ofLiterals init).set last.var last.positive := by
    simp [ofLiterals]
  induction literals using List.reverseRecOn with
  | nil => exact absurd hl List.not_mem_nil
  | append_singleton init last ih =>
    rw [List.map_append, List.nodup_append] at hnodup
    obtain ⟨hinit, -, hdisjoint⟩ := hnodup
    rw [hsnoc, assignment_set]
    rcases List.mem_append.mp hl with hl | hl
    · have hne : l.var.id ≠ last.var.id :=
        hdisjoint _ (List.mem_map_of_mem hl) _ (List.mem_singleton.mpr rfl)
      rw [Function.update_of_ne hne, ih hinit hl]
    · rw [List.mem_singleton.mp hl, Function.update_self]

end Valuation

end GuardedMachines
