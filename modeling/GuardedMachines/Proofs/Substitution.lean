import GuardedMachines.Proofs.Propagation

/-!
Partial assignment is substitution. A valuation that is put over another one
hides what the other one says about the same variables. The residual of a
formula under a partial valuation has, under any valuation, the value that the
formula has once the partial one is put over it. Every variable left in the
residual occurs in the formula and has no value yet; since a formula has a
variable, nothing but a constant is left where all of them have a value.
-/

namespace GuardedMachines

namespace Valuation

/-- The valuation with the entries of another one put over its own. -/
def overriddenBy (valuation fixed : Valuation) : Valuation :=
  fixed.entries.foldr (fun (v, b) below => below.set v b) valuation

theorem lookupId_overriddenBy (valuation fixed : Valuation) (id : VarId) :
    (valuation.overriddenBy fixed).lookupId id =
      (fixed.lookupId id).or (valuation.lookupId id) := by
  obtain ⟨entries⟩ := fixed
  induction entries with
  | nil => rfl
  | cons entry rest ih =>
    obtain ⟨v, b⟩ := entry
    have hhead : (valuation.overriddenBy ⟨(v, b) :: rest⟩).lookupId id =
        if v.id = id then some b else (valuation.overriddenBy ⟨rest⟩).lookupId id :=
      lookupId_set _ v b id
    rw [hhead, ih]
    by_cases hid : v.id = id
    · simp [lookupId, hid]
    · simp [lookupId, hid]

theorem assignment_overriddenBy (valuation fixed : Valuation) (id : VarId) :
    (valuation.overriddenBy fixed).assignment id =
      (fixed.lookupId id).getD (valuation.assignment id) := by
  unfold assignment
  rw [lookupId_overriddenBy]
  cases fixed.lookupId id <;> rfl

end Valuation

namespace Residual

def eval (r : Residual) (valuation : Valuation) : Bool := r.holds valuation.assignment

def atoms : Residual → List Variable
  | constant _ => []
  | formula f => f.atoms

theorem atoms_neg (r : Residual) : r.neg.atoms = r.atoms := by
  cases r <;> rfl

/-- A conjunction keeps an operand whole, or drops it. -/
theorem mem_atoms_conj {r s : Residual} {v : Variable} (h : v ∈ (r.conj s).atoms) :
    v ∈ r.atoms ∨ v ∈ s.atoms := by
  rcases r with (_ | _) | p <;> rcases s with (_ | _) | q <;>
    simp_all [conj, atoms, Formula.atoms]

theorem mem_atoms_disj {r s : Residual} {v : Variable} (h : v ∈ (r.disj s).atoms) :
    v ∈ r.atoms ∨ v ∈ s.atoms := by
  rcases r with (_ | _) | p <;> rcases s with (_ | _) | q <;>
    simp_all [disj, atoms, Formula.atoms]

end Residual

namespace Formula

variable {f : Formula} {fixed : Valuation}

theorem exists_mem_atoms (f : Formula) : ∃ v, v ∈ f.atoms := by
  induction f with
  | atom v => exact ⟨v, List.mem_singleton.mpr rfl⟩
  | neg f ih => exact ih
  | conj p q ihp ihq => exact ihp.imp fun v hv => List.mem_append_left _ hv
  | disj p q ihp ihq => exact ihp.imp fun v hv => List.mem_append_left _ hv

/-- What is left mentions variables of the formula that have no value yet. -/
theorem mem_atoms_assign {v : Variable} (h : v ∈ (f.assign fixed).atoms) :
    v ∈ f.atoms ∧ fixed.lookup v = none := by
  induction f with
  | atom w =>
    rw [assign] at h
    cases hlookup : fixed.lookup w with
    | some b =>
      rw [hlookup] at h
      exact absurd h List.not_mem_nil
    | none =>
      rw [hlookup] at h
      have hv : v = w := List.mem_singleton.mp h
      exact ⟨h, hv ▸ hlookup⟩
  | neg f ih =>
    rw [assign, Residual.atoms_neg] at h
    exact ih h
  | conj p q ihp ihq =>
    rcases Residual.mem_atoms_conj h with hp | hq
    · exact (ihp hp).imp_left (List.mem_append_left _)
    · exact (ihq hq).imp_left (List.mem_append_right _)
  | disj p q ihp ihq =>
    rcases Residual.mem_atoms_disj h with hp | hq
    · exact (ihp hp).imp_left (List.mem_append_left _)
    · exact (ihq hq).imp_left (List.mem_append_right _)

theorem assign_eq_constant (h : ∀ v ∈ f.atoms, fixed.lookup v ≠ none) :
    ∃ b, f.assign fixed = .constant b := by
  cases hleft : f.assign fixed with
  | constant b => exact ⟨b, rfl⟩
  | formula g =>
    obtain ⟨v, hv⟩ := g.exists_mem_atoms
    have hmem : v ∈ (f.assign fixed).atoms := by
      rw [hleft]
      exact hv
    obtain ⟨hf, hnone⟩ := mem_atoms_assign hmem
    exact absurd hnone (h v hf)

theorem assign_eq_self (h : ∀ v ∈ f.atoms, fixed.lookup v = none) :
    f.assign fixed = .formula f := by
  induction f with
  | atom v => rw [assign, h v (List.mem_singleton.mpr rfl)]
  | neg f ih => rw [assign, ih h, Residual.neg]
  | conj p q ihp ihq =>
    rw [assign, ihp fun v hv => h v (List.mem_append_left _ hv),
      ihq fun v hv => h v (List.mem_append_right _ hv), Residual.conj]
  | disj p q ihp ihq =>
    rw [assign, ihp fun v hv => h v (List.mem_append_left _ hv),
      ihq fun v hv => h v (List.mem_append_right _ hv), Residual.disj]

/-- Values are looked up by identifier, so the listed variables speak for all occurrences. -/
theorem exists_mem_vars_lookup (fixed : Valuation) {v : Variable} (hv : v ∈ f.atoms) :
    ∃ w ∈ f.vars, fixed.lookup w = fixed.lookup v := by
  have hids : idSet f.vars = idSet f.atoms := Guard.idSet_vars (some f)
  have hid : v.id ∈ idSet f.vars := by
    rw [hids]
    exact mem_idSet.mpr ⟨v, hv, rfl⟩
  obtain ⟨w, hw, hwid⟩ := mem_idSet.mp hid
  exact ⟨w, hw, congrArg fixed.lookupId hwid⟩

/-- What is left of a formula under a partial valuation has, under every valuation, the value of
the formula under that valuation with the partial one put over it. It mentions only variables of
the formula without a value; it is a constant if all of them have one, and the formula itself if
none has. -/
theorem assign_is_substitution (f : Formula) (fixed : Valuation) :
    (∀ valuation, (f.assign fixed).eval valuation = f.eval (valuation.overriddenBy fixed)) ∧
    (∀ g, f.assign fixed = .formula g → ∀ v ∈ g.atoms, v ∈ f.atoms ∧ fixed.lookup v = none) ∧
    ((∀ v ∈ f.vars, fixed.lookup v ≠ none) → ∃ b, f.assign fixed = .constant b) ∧
    ((∀ v ∈ f.vars, fixed.lookup v = none) → f.assign fixed = .formula f) := by
  refine ⟨?_, ?_, ?_, ?_⟩
  · intro valuation
    rw [Residual.eval, holds_assign, eval]
    congr 1
    funext id
    exact (valuation.assignment_overriddenBy fixed id).symm
  · intro g hleft v hv
    apply mem_atoms_assign
    rw [hleft]
    exact hv
  · intro hall
    apply assign_eq_constant
    intro v hv
    obtain ⟨w, hw, heq⟩ := exists_mem_vars_lookup fixed hv
    exact heq ▸ hall w hw
  · intro hnone
    apply assign_eq_self
    intro v hv
    obtain ⟨w, hw, heq⟩ := exists_mem_vars_lookup fixed hv
    exact heq ▸ hnone w hw

/-- With the first and the third variable true, a disjunction of the first two variables in
conjunction and the negated third one is the second variable. -/
theorem assign_is_substitution_on_disjunction :
    let a : Variable := ⟨⟨1, Nat.one_pos⟩, "A", .boolean⟩
    let b : Variable := ⟨⟨2, Nat.two_pos⟩, "B", .boolean⟩
    let c : Variable := ⟨⟨3, Nat.succ_pos 2⟩, "C", .boolean⟩
    let f : Formula := .disj (.conj (.atom a) (.atom b)) (.neg (.atom c))
    let fixed : Valuation := ⟨[(a, true), (c, true)]⟩
    f.assign fixed = .formula (.atom b) ∧ b ∈ f.atoms ∧ fixed.lookup b = none ∧
    (∀ valuation : Valuation, valuation.get b = f.eval (valuation.overriddenBy fixed)) ∧
    (∃ value, f.assign (fixed.set b false) = .constant value) ∧
    f.assign .empty = .formula f := by
  intro a b c f fixed
  have hleft : f.assign fixed = .formula (.atom b) := rfl
  obtain ⟨heval, hmentions, -, -⟩ := assign_is_substitution f fixed
  obtain ⟨hb, hnone⟩ := hmentions _ hleft b (List.mem_singleton.mpr rfl)
  refine ⟨hleft, hb, hnone, heval, ?_, ?_⟩
  · apply (assign_is_substitution f (fixed.set b false)).2.2.1
    decide
  · apply (assign_is_substitution f .empty).2.2.2
    intro v _
    rfl

end Formula

end GuardedMachines
