import Mathlib.Data.List.Nodup
import Mathlib.Tactic.ByContra
import GuardedMachines.Diagram.Path
import GuardedMachines.Proofs.Diagram.Ordering

/-!
Paths satisfy their edge. A path exists for every edge but zero, because the two
children of an edge differ; whatever agrees with its decisions satisfies the
edge. In an ordered store the variables along a path increase, so that a path
decides every variable at most once and some assignment agrees with it.
-/

namespace GuardedMachines.Diagram

theorem Edge.negateIf_injective {d e : Edge} (b : Bool) (h : d.negateIf b = e.negateIf b) :
    d = e := by
  cases b with
  | false => exact h
  | true =>
    have hneg : -d = -e := h
    rw [← Edge.neg_neg d, hneg, Edge.neg_neg]

def pathAssignment (path : List Decision) (var : Nat) : Bool := path.contains ⟨var, true⟩

namespace Store

theorem not_isTerminal_of_ne {e : Edge} (hone : e ≠ .one) (hzero : e ≠ .zero) :
    ¬ e.isTerminal := by
  intro ht
  rcases e.eq_one_or_zero ht with h | h
  · exact hone h
  · exact hzero h

theorem Layered.low_ne_high {s : Store} (hs : s.Layered) {e : Edge} (he : s.Has e)
    (ht : ¬ e.isTerminal) : s.low e ≠ s.high e := by
  intro heq
  exact (hs.node_proper he ht).low_ne_high (Edge.negateIf_injective e.isNegated heq)

/-- A path goes to the high child unless that is zero, and never to zero. -/
theorem Layered.pathWithin_succ {s : Store} (hs : s.Layered) {e : Edge} (he : s.Has e)
    (ht : ¬ e.isTerminal) (fuel : Nat) :
    ∃ b, (b = true ↔ s.high e ≠ .zero) ∧ s.child b e ≠ .zero ∧
      pathWithin (fuel + 1) s e = ⟨s.var e, b⟩ :: pathWithin fuel s (s.child b e) := by
  have hone : e ≠ .one := fun h => ht (h ▸ rfl)
  rw [pathWithin, if_neg hone]
  by_cases hhigh : s.high e = .zero
  · rw [if_pos hhigh]
    refine ⟨false, by simp [hhigh], ?_, rfl⟩
    exact fun hlow => hs.low_ne_high he ht (hlow.trans hhigh.symm)
  · rw [if_neg hhigh]
    exact ⟨true, by simp [hhigh], hhigh, rfl⟩

/-- An assignment that agrees with the path of an edge satisfies the edge. -/
theorem Layered.value_of_pathWithin {s : Store} (hs : s.Layered) (ρ : Nat → Bool) (fuel : Nat)
    {e : Edge} (he : s.Has e) (hzero : e ≠ .zero) (hfuel : e.index ≤ fuel)
    (hagree : ∀ d ∈ pathWithin fuel s e, ρ d.var = d.value) : s.value ρ e = true := by
  induction fuel generalizing e with
  | zero =>
    have := he.1
    omega
  | succ fuel ih =>
    by_cases hone : e = .one
    · rw [hone, value_one]
    have ht := not_isTerminal_of_ne hone hzero
    obtain ⟨b, -, hchild, hpath⟩ := hs.pathWithin_succ he ht fuel
    rw [hpath] at hagree
    have hvar : ρ (s.var e) = b := hagree _ List.mem_cons_self
    have hlt := hs.index_child_lt he ht b
    rw [hs.value_child ρ he ht, hvar]
    exact ih (hs.has_child he ht b) hchild (by omega) fun d hd =>
      hagree d (List.mem_cons_of_mem _ hd)

/-- The variables along a path increase, beginning after any variable before the edge. -/
theorem Ordered.pathWithin_sorted {s : Store} {V : Nat → Prop} (ho : s.Ordered V)
    (hs : s.Layered) (fuel : Nat) {e : Edge} (he : s.Has e) (hzero : e ≠ .zero) :
    ((pathWithin fuel s e).map Decision.var).Pairwise (· < ·) ∧
      ∀ var, s.After var e → ∀ d ∈ pathWithin fuel s e, var < d.var := by
  induction fuel generalizing e with
  | zero => exact ⟨List.Pairwise.nil, fun _ _ d hd => (nomatch hd)⟩
  | succ fuel ih =>
    by_cases hone : e = .one
    · rw [pathWithin, if_pos hone]
      exact ⟨List.Pairwise.nil, fun _ _ d hd => (nomatch hd)⟩
    have ht := not_isTerminal_of_ne hone hzero
    obtain ⟨b, -, hchild, hpath⟩ := hs.pathWithin_succ he ht fuel
    -- The path goes on from a child, which comes after the variable of the edge.
    obtain ⟨hsorted, hafter⟩ := ih (hs.has_child he ht b) hchild
    have hlater := hafter (s.var e) (ho.after_child he ht b)
    rw [hpath]
    constructor
    · rw [List.map_cons, List.pairwise_cons]
      refine ⟨fun var hvar => ?_, hsorted⟩
      obtain ⟨d, hd, rfl⟩ := List.mem_map.mp hvar
      exact hlater d hd
    · intro var hvar d hd
      have hlt : var < s.var e := hvar.resolve_left ht
      rcases List.mem_cons.mp hd with rfl | hd
      · exact hlt
      · exact Nat.lt_trans hlt (hlater d hd)

theorem Ordered.var_of_mem_pathWithin {s : Store} {V : Nat → Prop} (ho : s.Ordered V)
    (hs : s.Layered) (fuel : Nat) {e : Edge} (he : s.Has e) (hzero : e ≠ .zero) {d : Decision}
    (hd : d ∈ pathWithin fuel s e) : V d.var := by
  induction fuel generalizing e with
  | zero => exact absurd hd List.not_mem_nil
  | succ fuel ih =>
    by_cases hone : e = .one
    · rw [pathWithin, if_pos hone] at hd
      exact absurd hd List.not_mem_nil
    have ht := not_isTerminal_of_ne hone hzero
    obtain ⟨b, -, hchild, hpath⟩ := hs.pathWithin_succ he ht fuel
    rw [hpath] at hd
    rcases List.mem_cons.mp hd with rfl | hd
    · exact ho.var_mem_of_has he ht
    · exact ih (hs.has_child he ht b) hchild hd

/-- A path that decides no variable twice agrees with the variables it sets to true. -/
theorem pathAssignment_agrees {path : List Decision}
    (hsorted : (path.map Decision.var).Pairwise (· < ·)) :
    ∀ d ∈ path, pathAssignment path d.var = d.value := by
  intro d hd
  obtain ⟨var, value⟩ := d
  cases value with
  | true => exact List.contains_iff_mem.mpr hd
  | false =>
    by_contra hne
    have htrue : pathAssignment path var = true := by simpa using hne
    have hmem : (⟨var, true⟩ : Decision) ∈ path := List.contains_iff_mem.mp htrue
    have hnodup : (path.map Decision.var).Nodup := hsorted.imp fun hlt => Nat.ne_of_lt hlt
    have heq := List.inj_on_of_nodup_map hnodup hd hmem rfl
    cases heq

/-- The variables that the path of an edge sets to true satisfy the edge. -/
theorem Ordered.value_pathAssignment {s : Store} {V : Nat → Prop} (ho : s.Ordered V)
    (hs : s.Layered) {e : Edge} (he : s.Has e) {path : List Decision}
    (hpath : s.path? e = some path) : s.value (pathAssignment path) e = true := by
  unfold path? at hpath
  split at hpath
  · cases hpath
  · next hzero =>
    cases hpath
    have hsorted := (ho.pathWithin_sorted hs (e.index + 1) he hzero).1
    exact hs.value_of_pathWithin _ _ he hzero (Nat.le_succ _) (pathAssignment_agrees hsorted)

theorem path?_eq_none (s : Store) (e : Edge) : s.path? e = none ↔ e = .zero := by
  unfold path?
  split
  · next h => exact ⟨fun _ => h, fun _ => rfl⟩
  · next h => exact ⟨fun hnone => (nomatch hnone), fun hzero => absurd hzero h⟩

end Store

end GuardedMachines.Diagram
