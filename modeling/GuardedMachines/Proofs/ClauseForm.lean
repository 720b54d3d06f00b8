import GuardedMachines.Cnf
import GuardedMachines.Proofs.Guard

/-!
The clauses of a guard say what the guard says, about the same variables.
Distribution keeps the value of a formula and of its negation, and loses no
identifier because no side is ever without clauses. Clauses count as repeated
when they agree in identifiers and signs, which is all that their value and
their identifiers depend on, so dropping repetitions changes neither.
-/

namespace GuardedMachines

/-- Where members count as equal if they agree in a key, lists do if they agree in all keys. -/
theorem beq_iff_map_eq {α β : Type} [BEq α] {key : α → β}
    (hkey : ∀ a b, (a == b) = true ↔ key a = key b) (l m : List α) :
    (l == m) = true ↔ l.map key = m.map key := by
  induction l generalizing m with
  | nil => cases m <;> simp
  | cons a l ih => cases m with
    | nil => simp
    | cons b m =>
      rw [List.cons_beq_cons, Bool.and_eq_true, hkey, ih, List.map_cons, List.map_cons,
        List.cons.injEq]

theorem Literal.beq_iff (k l : Literal) :
    (k == l) = true ↔ (k.var.id, k.positive) = (l.var.id, l.positive) := by
  have hbeq : (k == l) = (k.var.id == l.var.id && k.positive == l.positive) := rfl
  rw [hbeq, Bool.and_eq_true, beq_iff_eq, beq_iff_eq, Prod.mk.injEq]

namespace Clause

/-- The identifiers and signs of a clause, which decide when it counts as repeated. -/
def signature (c : Clause) : List (VarId × Bool) :=
  c.literals.map fun l => (l.var.id, l.positive)

theorem signature_eq_of_beq {c d : Clause} (h : (c == d) = true) : c.signature = d.signature :=
  (beq_iff_map_eq Literal.beq_iff c.literals d.literals).mp h

theorem holds_eq_signature (a : VarId → Bool) (c : Clause) :
    c.holds a = c.signature.any fun (id, positive) => a id == positive := by
  simp only [holds, signature, List.any_map]
  rfl

theorem mem_signature {c : Clause} {id : VarId} :
    id ∈ c.signature.map Prod.fst ↔ ∃ l ∈ c.literals, l.var.id = id := by
  simp [signature]

end Clause

/-- Induction along the repetitions that are dropped: a member is dealt with once the members
after it that do not repeat it are. -/
@[elab_as_elim]
theorem eraseDups_induction {α : Type} [BEq α] {motive : List α → Prop} (nil : motive [])
    (cons : ∀ a l, motive (l.filter fun b => !b == a) → motive (a :: l)) (l : List α) :
    motive l := by
  induction hlength : l.length using Nat.strong_induction_on generalizing l with
  | h n ih => cases l with
    | nil => exact nil
    | cons a l =>
      have hle := List.length_filter_le (fun b => !b == a) l
      rw [List.length_cons] at hlength
      exact cons a l (ih _ (by omega) _ rfl)

theorem mem_of_mem_eraseDups {α : Type} [BEq α] {a : α} {l : List α} (h : a ∈ l.eraseDups) :
    a ∈ l := by
  induction l using eraseDups_induction with
  | nil => exact h
  | cons b rest ih =>
    rw [List.eraseDups_cons, List.mem_cons] at h
    rcases h with rfl | h
    · exact List.mem_cons_self
    · exact List.mem_cons_of_mem b (List.mem_filter.mp (ih h)).1

theorem eraseDups_eq_self {α : Type} [BEq α] {l : List α}
    (h : l.Pairwise fun a b => (b == a) = false) : l.eraseDups = l := by
  induction h with
  | nil => rfl
  | cons hfirst _ ih =>
    rw [List.eraseDups_cons, List.filter_eq_self.mpr fun b hb => by simp [hfirst b hb], ih]

/-- What repeats an earlier clause has the signature of one that is kept. -/
theorem exists_mem_eraseDups {clauses : List Clause} {c : Clause} (h : c ∈ clauses) :
    ∃ d ∈ clauses.eraseDups, d.signature = c.signature := by
  induction clauses using eraseDups_induction with
  | nil => exact absurd h List.not_mem_nil
  | cons b rest ih =>
    rw [List.eraseDups_cons]
    rcases List.mem_cons.mp h with rfl | h
    · exact ⟨c, List.mem_cons_self, rfl⟩
    · cases hbeq : c == b with
      | true => exact ⟨b, List.mem_cons_self, (Clause.signature_eq_of_beq hbeq).symm⟩
      | false =>
        have hmem : c ∈ rest.filter (fun c => !c == b) :=
          List.mem_filter.mpr ⟨h, by rw [hbeq]; rfl⟩
        obtain ⟨d, hd, hsignature⟩ := ih hmem
        exact ⟨d, List.mem_cons_of_mem b hd, hsignature⟩

namespace Cnf

theorem all_any_row (p : Literal → Bool) (a : List Literal) (right : List (List Literal)) :
    ((right.map fun b => a ++ b).all fun c => c.any p) =
      (a.any p || right.all fun c => c.any p) := by
  induction right with
  | nil => simp
  | cons b right ih =>
    rw [List.map_cons, List.all_cons, List.all_cons, ih, List.any_append]
    cases a.any p <;> rfl

theorem all_any_join (p : Literal → Bool) (left right : List (List Literal)) :
    ((left.flatMap fun a => right.map fun b => a ++ b).all fun c => c.any p) =
      ((left.all fun c => c.any p) || right.all fun c => c.any p) := by
  induction left with
  | nil => rfl
  | cons a left ih =>
    rw [List.flatMap_cons, List.all_append, List.all_cons, all_any_row, ih]
    cases a.any p <;> cases right.all fun c => c.any p <;> simp

/-- The clauses for a sign hold exactly when the formula has the value of that sign. -/
theorem distribute_holds (a : VarId → Bool) (f : Formula) (positive : Bool) :
    ((distribute f positive).all fun c => c.any (Literal.holds a)) =
      (f.holds a == positive) := by
  induction f generalizing positive with
  | atom v => simp [distribute, Literal.holds, Formula.holds]
  | neg f ih =>
    rw [distribute, ih, Formula.holds]
    cases f.holds a <;> cases positive <;> rfl
  | conj p q ihp ihq => cases positive with
    | true =>
      rw [distribute, List.all_append, ihp, ihq, Formula.holds]
      cases p.holds a <;> cases q.holds a <;> rfl
    | false =>
      rw [distribute, all_any_join, ihp, ihq, Formula.holds]
      cases p.holds a <;> cases q.holds a <;> rfl
  | disj p q ihp ihq => cases positive with
    | true =>
      rw [distribute, all_any_join, ihp, ihq, Formula.holds]
      cases p.holds a <;> cases q.holds a <;> rfl
    | false =>
      rw [distribute, List.all_append, ihp, ihq, Formula.holds]
      cases p.holds a <;> cases q.holds a <;> rfl

theorem join_ne_nil {left right : List (List Literal)} (hleft : left ≠ []) (hright : right ≠ []) :
    (left.flatMap fun a => right.map fun b => a ++ b) ≠ [] := by
  obtain ⟨a, ha⟩ := List.exists_mem_of_ne_nil left hleft
  obtain ⟨b, hb⟩ := List.exists_mem_of_ne_nil right hright
  exact List.ne_nil_of_mem (List.mem_flatMap.mpr ⟨a, ha, List.mem_map_of_mem hb⟩)

theorem distribute_ne_nil (f : Formula) (positive : Bool) : distribute f positive ≠ [] := by
  induction f generalizing positive with
  | atom v => exact List.cons_ne_nil _ _
  | neg f ih => exact ih _
  | conj p q ihp ihq => cases positive with
    | true => exact List.append_ne_nil_of_left_ne_nil (ihp true) _
    | false => exact join_ne_nil (ihp false) (ihq false)
  | disj p q ihp ihq => cases positive with
    | true => exact join_ne_nil (ihp true) (ihq true)
    | false => exact List.append_ne_nil_of_left_ne_nil (ihp false) _

def occurring (clauses : List (List Literal)) : List Variable := clauses.flatten.map Literal.var

theorem mem_occurring {clauses : List (List Literal)} {v : Variable} :
    v ∈ occurring clauses ↔ ∃ c ∈ clauses, ∃ l ∈ c, l.var = v := by
  simp only [occurring, List.mem_map, List.mem_flatten]
  tauto

theorem mem_occurring_join {left right : List (List Literal)} (hleft : left ≠ [])
    (hright : right ≠ []) {v : Variable} :
    v ∈ occurring (left.flatMap fun a => right.map fun b => a ++ b) ↔
      v ∈ occurring left ∨ v ∈ occurring right := by
  obtain ⟨a₀, ha₀⟩ := List.exists_mem_of_ne_nil left hleft
  obtain ⟨b₀, hb₀⟩ := List.exists_mem_of_ne_nil right hright
  simp only [mem_occurring, List.mem_flatMap, List.mem_map]
  constructor
  · rintro ⟨_, ⟨a, ha, b, hb, rfl⟩, l, hl, hv⟩
    rcases List.mem_append.mp hl with hl | hl
    · exact .inl ⟨a, ha, l, hl, hv⟩
    · exact .inr ⟨b, hb, l, hl, hv⟩
  · rintro (⟨a, ha, l, hl, hv⟩ | ⟨b, hb, l, hl, hv⟩)
    · exact ⟨_, ⟨a, ha, b₀, hb₀, rfl⟩, l, List.mem_append_left _ hl, hv⟩
    · exact ⟨_, ⟨a₀, ha₀, b, hb, rfl⟩, l, List.mem_append_right _ hl, hv⟩

theorem mem_occurring_distribute (f : Formula) (positive : Bool) {v : Variable} :
    v ∈ occurring (distribute f positive) ↔ v ∈ f.atoms := by
  have happend : ∀ left right : List (List Literal),
      v ∈ occurring (left ++ right) ↔ v ∈ occurring left ∨ v ∈ occurring right := by
    simp [occurring]
  have hjoin : ∀ (p q : Formula) (b : Bool),
      v ∈ occurring ((distribute p b).flatMap fun c => (distribute q b).map fun d => c ++ d) ↔
        v ∈ occurring (distribute p b) ∨ v ∈ occurring (distribute q b) :=
    fun p q b => mem_occurring_join (distribute_ne_nil p b) (distribute_ne_nil q b)
  induction f generalizing positive with
  | atom w => simp [occurring, distribute, Formula.atoms]
  | neg f ih => exact ih _
  | conj p q ihp ihq =>
    have hsides := ((ihp positive).or (ihq positive)).trans List.mem_append.symm
    cases positive with
    | true => exact (happend _ _).trans hsides
    | false => exact (hjoin p q false).trans hsides
  | disj p q ihp ihq =>
    have hsides := ((ihp positive).or (ihq positive)).trans List.mem_append.symm
    cases positive with
    | true => exact (hjoin p q true).trans hsides
    | false => exact (happend _ _).trans hsides

theorem ofFormula_holds (a : VarId → Bool) (f : Formula) :
    (ofFormula f).holds a = f.holds a := by
  have hkept : (ofFormula f).holds a =
      ((distribute f true).map Clause.mk).all (Clause.holds a) := by
    rw [Bool.eq_iff_iff]
    simp only [holds, ofFormula, List.all_eq_true]
    constructor
    · intro h c hc
      obtain ⟨d, hd, hsignature⟩ := exists_mem_eraseDups hc
      rw [Clause.holds_eq_signature, ← hsignature, ← Clause.holds_eq_signature]
      exact h d hd
    · intro h c hc
      exact h c (mem_of_mem_eraseDups hc)
  have hdistribute := distribute_holds a f true
  rw [hkept, List.all_map]
  rw [beq_true] at hdistribute
  exact hdistribute

theorem ofGuard_holds (a : VarId → Bool) (guard : Option Formula) :
    (ofGuard guard).holds a = Guard.holds a guard := by
  cases guard with
  | none => rfl
  | some f => exact ofFormula_holds a f

theorem sorted_vars (cnf : Cnf) : Ascending.Sorted cnf.vars := Ascending.sorted_ofList _

theorem mem_of_mem_vars {cnf : Cnf} {v : Variable} (h : v ∈ cnf.vars) :
    ∃ c ∈ cnf.clauses, ∃ l ∈ c.literals, l.var = v := by
  simpa using Ascending.mem_of_mem_ofList h

theorem mem_idSet_vars {cnf : Cnf} {id : VarId} :
    id ∈ idSet cnf.vars ↔ ∃ c ∈ cnf.clauses, ∃ l ∈ c.literals, l.var.id = id := by
  rw [vars, idSet_ofList]
  simp only [mem_idSet, List.mem_flatMap, List.mem_map]
  constructor
  · rintro ⟨_, ⟨c, hc, l, hl, rfl⟩, hid⟩
    exact ⟨c, hc, l, hl, hid⟩
  · rintro ⟨c, hc, l, hl, hid⟩
    exact ⟨_, ⟨c, hc, l, hl, rfl⟩, hid⟩

theorem mem_atoms_of_mem_vars {guard : Option Formula} {v : Variable}
    (h : v ∈ (ofGuard guard).vars) : v ∈ Guard.atoms guard := by
  obtain ⟨c, hc, l, hl, hv⟩ := mem_of_mem_vars h
  cases guard with
  | none => exact absurd hc List.not_mem_nil
  | some f =>
    obtain ⟨literals, hliterals, rfl⟩ := List.mem_map.mp (mem_of_mem_eraseDups hc)
    exact (mem_occurring_distribute f true).mp (mem_occurring.mpr ⟨literals, hliterals, l, hl, hv⟩)

theorem idSet_vars_ofGuard (guard : Option Formula) :
    idSet (ofGuard guard).vars = Guard.ids guard := by
  ext id
  constructor
  · intro hid
    obtain ⟨v, hv, rfl⟩ := mem_idSet.mp hid
    exact mem_idSet.mpr ⟨v, mem_atoms_of_mem_vars hv, rfl⟩
  · intro hid
    obtain ⟨v, hv, hvid⟩ := mem_idSet.mp hid
    cases guard with
    | none => exact absurd hv List.not_mem_nil
    | some f =>
      obtain ⟨literals, hliterals, l, hl, rfl⟩ :=
        mem_occurring.mp ((mem_occurring_distribute f true).mpr hv)
      obtain ⟨d, hd, hsignature⟩ := exists_mem_eraseDups (List.mem_map_of_mem hliterals)
      have hmem : id ∈ d.signature.map Prod.fst := by
        rw [hsignature]
        exact Clause.mem_signature.mpr ⟨l, hl, hvid⟩
      exact mem_idSet_vars.mpr ⟨d, hd, Clause.mem_signature.mp hmem⟩

end Cnf

end GuardedMachines
