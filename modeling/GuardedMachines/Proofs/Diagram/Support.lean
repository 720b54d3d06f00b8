import GuardedMachines.Proofs.Diagram.GreedyPath

/-!
The support of an edge: the variables of the nodes that are met on the ways down
from it. In a valid and ordered store these are exactly the variables on which
the function of the edge depends, since an edge depends on its own variable and
on whatever one of its children depends on, and on nothing else.
-/

namespace GuardedMachines

variable {α : Type} [DecidableEq α]

/-- A variable that a function does not depend on may be set to anything. -/
theorem update_of_not_dependsOn {φ : (α → Bool) → Bool} {v : α} (h : ¬ DependsOn φ v)
    (ρ : α → Bool) (b : Bool) : φ (Function.update ρ v b) = φ ρ := by
  have hboth : ∀ c, φ (Function.update ρ v c) = φ (Function.update ρ v false) := by
    intro c
    by_contra hne
    cases c with
    | false => exact hne rfl
    | true => exact h ⟨ρ, hne⟩
  have hself := hboth (ρ v)
  rw [Function.update_eq_self] at hself
  rw [hself, hboth b]

end GuardedMachines

namespace GuardedMachines.Diagram.Store

def supportWithin (s : Store) : Nat → Edge → Finset Nat
  | 0, _ => ∅
  | fuel + 1, e =>
    if e.isTerminal then ∅
    else insert (s.var e) (s.supportWithin fuel (s.low e) ∪ s.supportWithin fuel (s.high e))

def support (s : Store) (e : Edge) : Finset Nat := s.supportWithin e.index e

variable {s : Store} {V : Nat → Prop} {e : Edge}

/-- Any fuel from the index on gives the same variables. -/
theorem Layered.supportWithin_eq (hs : s.Layered) (he : s.Has e) {fuel fuel' : Nat}
    (hfuel : e.index ≤ fuel) (hfuel' : e.index ≤ fuel') :
    s.supportWithin fuel e = s.supportWithin fuel' e := by
  have hpos := he.1
  induction fuel generalizing e fuel' with
  | zero => omega
  | succ fuel ih =>
    obtain ⟨fuel', rfl⟩ : ∃ n, fuel' = n + 1 := ⟨fuel' - 1, by omega⟩
    by_cases ht : e.isTerminal
    · simp [supportWithin, ht]
    · have hchild : ∀ b, s.supportWithin fuel (s.child b e) =
          s.supportWithin fuel' (s.child b e) := by
        intro b
        have hlt := hs.index_child_lt he ht b
        have hhas := hs.has_child he ht b
        exact ih hhas (by omega) (by omega) hhas.1
      have hlow : s.supportWithin fuel (s.low e) = _ := hchild false
      have hhigh : s.supportWithin fuel (s.high e) = _ := hchild true
      rw [supportWithin, supportWithin, if_neg ht, if_neg ht, hlow, hhigh]
      rfl

theorem support_of_isTerminal (ht : e.isTerminal) : s.support e = ∅ := by
  have hindex : e.index = 1 := (Edge.isTerminal_iff e).mp ht
  rw [support, hindex, supportWithin, if_pos ht]

theorem Layered.mem_support_of_not_isTerminal (hs : s.Layered) (he : s.Has e)
    (ht : ¬ e.isTerminal) {v : Nat} :
    v ∈ s.support e ↔ v = s.var e ∨ ∃ b, v ∈ s.support (s.child b e) := by
  have hpos := he.1
  obtain ⟨fuel, hfuel⟩ : ∃ n, e.index = n + 1 := ⟨e.index - 1, by omega⟩
  have hchild : ∀ b, s.supportWithin fuel (s.child b e) = s.support (s.child b e) := by
    intro b
    have hlt := hs.index_child_lt he ht b
    exact hs.supportWithin_eq (hs.has_child he ht b) (by omega) (Nat.le_refl _)
  have hlow : s.supportWithin fuel (s.low e) = _ := hchild false
  have hhigh : s.supportWithin fuel (s.high e) = _ := hchild true
  rw [support, hfuel, supportWithin, if_neg ht, hlow, hhigh]
  simp [Bool.exists_bool]

theorem Layered.support_child_subset (hs : s.Layered) (he : s.Has e) (ht : ¬ e.isTerminal)
    (b : Bool) : s.support (s.child b e) ⊆ s.support e := by
  intro v hv
  exact (hs.mem_support_of_not_isTerminal he ht).mpr (Or.inr ⟨b, hv⟩)

/-- An edge depends on its own variable and on what one of its children depends on. -/
theorem Ordered.dependsOn_iff (ho : s.Ordered V) (hs : s.Valid) (he : s.Has e)
    (ht : ¬ e.isTerminal) (v : Nat) :
    DependsOn (fun ρ => s.value ρ e) v ↔
      v = s.var e ∨ ∃ b, DependsOn (fun ρ => s.value ρ (s.child b e)) v := by
  by_cases hv : v = s.var e
  · subst hv
    exact ⟨fun _ => Or.inl rfl, fun _ => ho.dependsOn_var hs he ht⟩
  constructor
  · intro h
    obtain ⟨ρ, hρ⟩ := h
    refine Or.inr ⟨ρ (s.var e), ρ, ?_⟩
    have hside : ∀ c, s.value (Function.update ρ v c) e =
        s.value (Function.update ρ v c) (s.child (ρ (s.var e)) e) := by
      intro c
      rw [hs.value_child _ he ht, Function.update_of_ne (Ne.symm hv)]
    simpa [restrict, hside] using hρ
  · intro h
    obtain ⟨b, ρ, hρ⟩ := h.resolve_left hv
    -- With its own variable set to the side of that child, the edge is the child.
    refine ⟨Function.update ρ (s.var e) b, ?_⟩
    have hside : ∀ c, s.value (Function.update (Function.update ρ (s.var e) b) v c) e =
        s.value (Function.update ρ v c) (s.child b e) := by
      intro c
      rw [Function.update_comm (Ne.symm hv)]
      exact ho.value_update_var hs.toLayered he ht _ b
    simpa [restrict, hside] using hρ

/-- The support has exactly the variables on which the edge depends. -/
theorem Ordered.mem_support_iff (ho : s.Ordered V) (hs : s.Valid) (he : s.Has e) {v : Nat} :
    v ∈ s.support e ↔ DependsOn (fun ρ => s.value ρ e) v := by
  induction hindex : e.index using Nat.strong_induction_on generalizing e with
  | h index ih =>
    by_cases ht : e.isTerminal
    · rw [support_of_isTerminal ht]
      constructor
      · intro h
        exact absurd h (Finset.notMem_empty v)
      · intro h
        obtain ⟨ρ, hρ⟩ := h
        simp [restrict, s.value_of_isTerminal _ ht] at hρ
    · rw [hs.mem_support_of_not_isTerminal he ht, ho.dependsOn_iff hs he ht]
      refine or_congr_right (exists_congr fun b => ?_)
      have hlt := hs.index_child_lt he ht b
      exact ih _ (by omega) (hs.has_child he ht b) rfl

theorem Ordered.var_of_mem_support (ho : s.Ordered V) (hs : s.Layered) (he : s.Has e) {v : Nat}
    (hv : v ∈ s.support e) : V v := by
  induction hindex : e.index using Nat.strong_induction_on generalizing e with
  | h index ih =>
    by_cases ht : e.isTerminal
    · rw [support_of_isTerminal ht] at hv
      exact absurd hv (Finset.notMem_empty v)
    · rcases (hs.mem_support_of_not_isTerminal he ht).mp hv with hvar | ⟨b, hb⟩
      · rw [hvar]
        exact ho.var_mem_of_has he ht
      · have hlt := hs.index_child_lt he ht b
        exact ih _ (by omega) (hs.has_child he ht b) hb rfl

theorem Layered.within_support (hs : s.Layered) (he : s.Has e) {U : Finset Nat}
    (hU : s.support e ⊆ U) : s.Within (· ∈ U) e := by
  induction hindex : e.index using Nat.strong_induction_on generalizing e with
  | h index ih =>
    by_cases ht : e.isTerminal
    · exact .terminal ht
    · have hvar := (hs.mem_support_of_not_isTerminal he ht).mpr (Or.inl rfl)
      refine .node (hU hvar) fun b => ?_
      have hlt := hs.index_child_lt he ht b
      exact ih _ (by omega) (hs.has_child he ht b)
        ((hs.support_child_subset he ht b).trans hU) rfl

end GuardedMachines.Diagram.Store
