import GuardedMachines.Proofs.Diagram.Canonicity
import GuardedMachines.Proofs.Greedy

/-!
The path of an edge is the greedy assignment of its function. An edge depends on
its own variable, because its children differ and so have different functions, and
on none before it; and its high child can be satisfied exactly if it is not zero.
So a variable that the path goes past is one on which nothing depends any more, and
a variable that it decides is true whenever it can be.
-/

namespace GuardedMachines.Diagram

theorem pathAssignment_eq_false {path : List Decision} {var : Nat}
    (h : ∀ d ∈ path, var < d.var) : pathAssignment path var = false := by
  rw [pathAssignment, Bool.eq_false_iff]
  intro hmem
  exact absurd (h _ (List.contains_iff_mem.mp hmem)) (Nat.lt_irrefl var)

theorem pathAssignment_cons (d : Decision) (path : List Decision) (var : Nat) :
    pathAssignment (d :: path) var = ((var == d.var && d.value) || pathAssignment path var) := by
  obtain ⟨var', value⟩ := d
  unfold pathAssignment
  rw [List.contains_cons]
  congr 1
  rw [Bool.eq_iff_iff, beq_iff_eq, Bool.and_eq_true, beq_iff_eq, Decision.mk.injEq,
    eq_comm (a := true)]

namespace Store

variable {s : Store} {V : Nat → Prop} {e : Edge}

theorem Ordered.satisfiable_iff (ho : s.Ordered V) (hs : s.Valid) (he : s.Has e) :
    Satisfiable (fun ρ => s.value ρ e) ↔ e ≠ .zero := by
  constructor
  · rintro ⟨ρ, hρ⟩ rfl
    exact absurd hρ (by simp)
  · intro hzero
    by_contra hnone
    apply hzero
    apply ho.eq_of_same hs he hs.has_zero
    intro ρ
    rw [value_zero, Bool.eq_false_iff]
    exact fun hρ => hnone ⟨ρ, hρ⟩

theorem Ordered.restrict_after (ho : s.Ordered V) (hs : s.Valid) (he : s.Has e) {var : Nat}
    (hafter : s.After var e) (b : Bool) :
    restrict (fun ρ => s.value ρ e) var b = fun ρ => s.value ρ e := by
  funext ρ
  exact ho.value_update hs.toLayered he hafter ρ b

theorem Ordered.restrict_var (ho : s.Ordered V) (hs : s.Valid) (he : s.Has e)
    (ht : ¬ e.isTerminal) (b : Bool) :
    restrict (fun ρ => s.value ρ e) (s.var e) b = fun ρ => s.value ρ (s.child b e) := by
  funext ρ
  exact ho.value_update_var hs.toLayered he ht ρ b

theorem Ordered.dependsOn_var (ho : s.Ordered V) (hs : s.Valid) (he : s.Has e)
    (ht : ¬ e.isTerminal) : DependsOn (fun ρ => s.value ρ e) (s.var e) := by
  unfold DependsOn
  rw [ho.restrict_var hs he ht, ho.restrict_var hs he ht]
  by_contra hnone
  push Not at hnone
  have hsame := ho.eq_of_same hs (hs.has_child he ht true) (hs.has_child he ht false) hnone
  exact hs.low_ne_high he ht hsame.symm

/-- From any variable on that the edge does not precede, the path makes the greedy choices. -/
theorem Ordered.greedy_pathWithin (ho : s.Ordered V) (hs : s.Valid) (he : s.Has e)
    (hzero : e ≠ .zero) {fuel : Nat} (hfuel : e.index ≤ fuel) (start count : Nat)
    (hstart : ∀ var < start, s.After var e) :
    Greedy (fun ρ => s.value ρ e) ((List.range' start count).map fun var =>
      (var, pathAssignment (pathWithin fuel s e) var)) := by
  induction count generalizing start e fuel with
  | zero => exact trivial
  | succ count ih =>
    rw [List.range'_succ, List.map_cons]
    by_cases hafter : s.After start e
    · -- Nothing depends on the variable, and the path goes past it.
      have hpast := pathAssignment_eq_false
        ((ho.pathWithin_sorted hs.toLayered fuel he hzero).2 start hafter)
      have hsame := ho.restrict_after hs he hafter
      constructor
      · rw [hpast]
        refine ⟨fun h => absurd h Bool.false_ne_true, ?_⟩
        rintro ⟨⟨ρ, hρ⟩, -⟩
        rw [hsame, hsame] at hρ
        exact absurd rfl hρ
      · rw [hsame]
        exact ih he hzero hfuel (start + 1) fun var hvar => hafter.mono (Nat.le_of_lt_succ hvar)
    · -- The variable is that of the edge, and the path decides it.
      have ht : ¬ e.isTerminal := fun ht => hafter (Or.inl ht)
      obtain rfl : start = s.var e := by
        have hle : ¬ start < s.var e := fun hlt => hafter (Or.inr hlt)
        have hge : ¬ s.var e < start := fun hlt =>
          absurd ((hstart _ hlt).resolve_left ht) (Nat.lt_irrefl _)
        omega
      obtain ⟨fuel, rfl⟩ : ∃ n, fuel = n + 1 := ⟨fuel - 1, by have := he.1; omega⟩
      obtain ⟨b, hb, hchild, hpath⟩ := hs.pathWithin_succ he ht fuel
      have hhas := hs.has_child he ht b
      have hlater := ho.after_child he ht b
      have hdecided : pathAssignment (pathWithin (fuel + 1) s e) (s.var e) = b := by
        have hpast := pathAssignment_eq_false
          ((ho.pathWithin_sorted hs.toLayered fuel hhas hchild).2 (s.var e) hlater)
        rw [hpath, pathAssignment_cons, hpast]
        simp
      have hrest : ∀ var ∈ List.range' (s.var e + 1) count,
          (var, pathAssignment (pathWithin (fuel + 1) s e) var) =
            (var, pathAssignment (pathWithin fuel s (s.child b e)) var) := by
        intro var hmem
        have hne : var ≠ s.var e := by
          have := (List.mem_range'_1.mp hmem).1
          omega
        simp [hpath, pathAssignment_cons, hne]
      have hchildren := ho.restrict_var hs he ht
      rw [hdecided, List.map_congr_left hrest]
      constructor
      · rw [hchildren, ho.satisfiable_iff hs (hs.has_child he ht true), hb]
        exact ⟨fun h => ⟨ho.dependsOn_var hs he ht, h⟩, And.right⟩
      · rw [hchildren]
        have hlt := hs.index_child_lt he ht b
        exact ih hhas hchild (by omega) (s.var e + 1) fun var h => hlater.mono (Nat.le_of_lt_succ h)

end Store

end GuardedMachines.Diagram
