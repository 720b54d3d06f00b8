import GuardedMachines.Proofs.TruthTable
import Mathlib.Data.List.FinRange

/-!
The clause list of a formula. Distribution leaves at least one clause, and no
empty one. Of the distributed clauses those are kept that repeat no clause before
them, in their order. What is dropped agrees with a clause that is kept in
identifiers and signs, so the list has the value of the formula and its variables.
-/

namespace GuardedMachines

section FirstOccurrences

variable {α : Type} [BEq α]

/-- The members at positions before which there is no equal one, in their order. -/
def firstOccurrences (l : List α) : List α :=
  ((List.finRange l.length).filter fun i => !(l.take i.val).contains (l.get i)).map l.get

theorem firstOccurrences_cons (a : α) (l : List α) :
    firstOccurrences (a :: l) = a :: (firstOccurrences l).filter fun b => !b == a := by
  have hpositions : List.finRange (a :: l).length =
      (0 : Fin (l.length + 1)) :: (List.finRange l.length).map Fin.succ := List.finRange_succ
  unfold firstOccurrences
  rw [hpositions, List.filter_cons_of_pos (by simp), List.map_cons, List.filter_map,
    List.map_map, List.filter_map, List.filter_filter]
  simp [Function.comp_def, Bool.not_or]

/-- Of two members kept, the later one does not repeat the earlier one. -/
theorem pairwise_firstOccurrences (l : List α) :
    (firstOccurrences l).Pairwise fun a b => (b == a) = false := by
  induction l with
  | nil => exact .nil
  | cons a l ih =>
    rw [firstOccurrences_cons, List.pairwise_cons]
    refine ⟨?_, ih.filter _⟩
    intro b hb
    simpa using (List.mem_filter.mp hb).2

/-- Dropping repetitions commutes with a filter that cannot tell equal members apart. -/
theorem eraseDups_filter {p : α → Bool} (hp : ∀ a b, (a == b) = true → p a = p b) (l : List α) :
    (l.filter p).eraseDups = l.eraseDups.filter p := by
  induction l using eraseDups_induction with
  | nil => rfl
  | cons a l ih =>
    rw [List.eraseDups_cons]
    cases ha : p a with
    | true =>
      rw [List.filter_cons_of_pos ha, List.eraseDups_cons, List.filter_cons_of_pos ha, ← ih,
        List.filter_filter, List.filter_filter]
      simp only [Bool.and_comm]
    | false =>
      -- What equals the first member is left out by the filter too.
      have hsame : (l.filter fun b => !b == a).filter p = l.filter p := by
        rw [List.filter_filter]
        apply List.filter_congr
        intro b _
        cases hba : b == a with
        | true => rw [hp b a hba, ha]; rfl
        | false => simp
      have hneg : ¬ p a = true := by simp [ha]
      rw [List.filter_cons_of_neg hneg, List.filter_cons_of_neg hneg, ← ih, hsame]

theorem eraseDups_eq_firstOccurrences [EquivBEq α] (l : List α) :
    l.eraseDups = firstOccurrences l := by
  induction l with
  | nil => rfl
  | cons a l ih =>
    have hcongr : ∀ b c, (b == c) = true → (!b == a) = (!c == a) := by
      intro b c hbc
      rw [BEq.congr_left hbc]
    rw [List.eraseDups_cons, eraseDups_filter hcongr, ih, firstOccurrences_cons]

/-- Dropping repetitions commutes with a map that keeps equal members equal and others apart. -/
theorem map_eraseDups {β : Type} [BEq β] {key : α → β}
    (hkey : ∀ a b, (key a == key b) = (a == b)) (l : List α) :
    l.eraseDups.map key = (l.map key).eraseDups := by
  induction l using eraseDups_induction with
  | nil => rfl
  | cons a l ih =>
    rw [List.eraseDups_cons, List.map_cons, ih, List.map_cons, List.eraseDups_cons,
      List.filter_map]
    simp only [Function.comp_def, hkey]

end FirstOccurrences

namespace Clause

theorem beq_iff (c d : Clause) : (c == d) = true ↔ c.signature = d.signature :=
  beq_iff_map_eq Literal.beq_iff c.literals d.literals

instance : EquivBEq Clause where
  rfl := (beq_iff _ _).mpr rfl
  symm h := (beq_iff _ _).mpr ((beq_iff _ _).mp h).symm
  trans h h' := (beq_iff _ _).mpr (((beq_iff _ _).mp h).trans ((beq_iff _ _).mp h'))

end Clause

namespace Cnf

theorem ne_nil_of_mem_distribute {f : Formula} {positive : Bool} {c : List Literal}
    (h : c ∈ distribute f positive) : c ≠ [] := by
  have hjoin : ∀ {left right : List (List Literal)}, (∀ a ∈ left, a ≠ []) →
      ∀ c ∈ left.flatMap fun a => right.map fun b => a ++ b, c ≠ [] := by
    intro left right hleft c hc
    obtain ⟨a, ha, hc⟩ := List.mem_flatMap.mp hc
    obtain ⟨b, -, rfl⟩ := List.mem_map.mp hc
    exact List.append_ne_nil_of_left_ne_nil (hleft a ha) b
  induction f generalizing positive c with
  | atom v =>
    rw [List.mem_singleton.mp h]
    exact List.cons_ne_nil _ _
  | neg f ih => exact ih h
  | conj p q ihp ihq => cases positive with
    | true => exact (List.mem_append.mp h).elim ihp ihq
    | false => exact hjoin (fun a ha => ihp ha) c h
  | disj p q ihp ihq => cases positive with
    | true => exact hjoin (fun a ha => ihp ha) c h
    | false => exact (List.mem_append.mp h).elim ihp ihq

theorem clauses_ofFormula (f : Formula) :
    (ofFormula f).clauses = firstOccurrences ((distribute f true).map Clause.mk) :=
  eraseDups_eq_firstOccurrences _

/-- No two clauses of a formula agree in identifiers and signs. -/
theorem pairwise_clauses (f : Formula) :
    (ofFormula f).clauses.Pairwise fun c d => (d == c) = false := by
  rw [clauses_ofFormula]
  exact pairwise_firstOccurrences _

theorem mem_distribute_of_mem_clauses {f : Formula} {c : Clause} (h : c ∈ (ofFormula f).clauses) :
    c.literals ∈ distribute f true := by
  obtain ⟨literals, hliterals, rfl⟩ := List.mem_map.mp (mem_of_mem_eraseDups h)
  exact hliterals

theorem clauses_ne_nil (f : Formula) : (ofFormula f).clauses ≠ [] := by
  obtain ⟨literals, hliterals⟩ := List.exists_mem_of_ne_nil _ (distribute_ne_nil f true)
  obtain ⟨c, hc, -⟩ := exists_mem_eraseDups (List.mem_map_of_mem hliterals)
  exact List.ne_nil_of_mem hc

/-- The clauses of a formula have its value under every valuation and exactly its variables. There
is a clause, none is empty and no two are equal: they are the first occurrences of the
distributed clauses. -/
theorem clauses_equivalent_to_formula (f : Formula) :
    (∀ valuation, (ofFormula f).eval valuation = f.eval valuation) ∧
    (ofFormula f).vars.map Variable.id = f.vars.map Variable.id ∧
    idSet (ofFormula f).vars = idSet f.atoms ∧
    (Guard.Coherent (some f) → (ofFormula f).vars = f.vars) ∧
    (∀ c ∈ (ofFormula f).clauses, c.literals ≠ []) ∧
    (ofFormula f).clauses ≠ [] ∧
    ((ofFormula f).clauses.Pairwise fun c d => (c == d) = false) ∧
    (ofFormula f).clauses = firstOccurrences ((distribute f true).map Clause.mk) := by
  have hids := map_id_vars_ofGuard (some f)
  refine ⟨fun valuation => ofFormula_holds _ f, hids, idSet_vars_ofGuard (some f), ?_,
    fun c hc => ne_nil_of_mem_distribute (mem_distribute_of_mem_clauses hc), clauses_ne_nil f, ?_,
    clauses_ofFormula f⟩
  · intro hcoherent
    apply eq_of_map_id_eq hids
    intro v hv w hw
    exact hcoherent v (mem_atoms_of_mem_vars hv) w (Guard.mem_atoms_of_mem_vars hw)
  · refine (pairwise_clauses f).imp fun hne => ?_
    rw [BEq.comm]
    exact hne

/-- A disjunction, the same one as a negated conjunction, and one of its disjuncts: the second
clause is dropped. -/
theorem clauses_equivalent_on_repetition :
    let a : Variable := ⟨⟨1, Nat.one_pos⟩, "A", .boolean⟩
    let b : Variable := ⟨⟨2, Nat.two_pos⟩, "B", .boolean⟩
    let f : Formula := .conj (.disj (.atom b) (.atom a))
      (.conj (.neg (.conj (.neg (.atom b)) (.neg (.atom a)))) (.neg (.atom a)))
    distribute f true = [[⟨b, true⟩, ⟨a, true⟩], [⟨b, true⟩, ⟨a, true⟩], [⟨a, false⟩]] ∧
    firstOccurrences ((distribute f true).map Clause.mk) =
      [⟨[⟨b, true⟩, ⟨a, true⟩]⟩, ⟨[⟨a, false⟩]⟩] ∧
    Guard.Coherent (some f) ∧ (ofFormula f).vars = f.vars ∧ f.vars = [a, b] := by
  intro a b f
  have hcoherent : Guard.Coherent (some f) := by
    simp [Guard.Coherent, Guard.atoms, Formula.atoms, f, a, b]
  obtain ⟨-, -, -, hvars, -⟩ := clauses_equivalent_to_formula f
  exact ⟨rfl, rfl, hcoherent, hvars hcoherent, rfl⟩

end Cnf

end GuardedMachines
