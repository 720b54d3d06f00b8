import GuardedMachines.Proofs.ClauseList
import GuardedMachines.Proofs.Condition.RoundTrip

/-!
Flattened formulas. Nested conjunctions become one conjunction of all their
operands and nested disjunctions one disjunction, so formulas that differ in the
grouping of their chains become equal. The clauses of a formula depend on nothing
else once its negations are pushed to the atoms. Clause lists are put together in
two ways, one after the other or by joining every clause on the left with every
clause on the right; both are associative, in the order of the clauses and in that
of the literals, so a whole chain of operands can be distributed at once.
-/

namespace GuardedMachines

/-- A formula whose chains are lists of operands. -/
inductive Flat (α : Type) where
  | atom (a : α)
  | neg (x : Flat α)
  | all (operands : List (Flat α))
  | any (operands : List (Flat α))

namespace Flat

variable {α : Type}

def conjuncts : Flat α → List (Flat α)
  | all operands => operands
  | x => [x]

def disjuncts : Flat α → List (Flat α)
  | any operands => operands
  | x => [x]

end Flat

namespace Formula

variable {α : Type} {f g : Formula}

def nnf : Formula → Bool → Formula
  | atom v, true => atom v
  | atom v, false => neg (atom v)
  | neg f, positive => f.nnf (!positive)
  | conj p q, true => conj (p.nnf true) (q.nnf true)
  | conj p q, false => disj (p.nnf false) (q.nnf false)
  | disj p q, true => disj (p.nnf true) (q.nnf true)
  | disj p q, false => conj (p.nnf false) (q.nnf false)

def flatten (key : Variable → α) : Formula → Flat α
  | atom v => .atom (key v)
  | neg f => .neg (f.flatten key)
  | conj p q => .all ((p.flatten key).conjuncts ++ (q.flatten key).conjuncts)
  | disj p q => .any ((p.flatten key).disjuncts ++ (q.flatten key).disjuncts)

theorem Regrouped.flatten_eq (key : Variable → α) (h : Regrouped f g) :
    f.flatten key = g.flatten key := by
  induction h with
  | refl f => rfl
  | symm _ ih => exact ih.symm
  | trans _ _ ih ih' => exact ih.trans ih'
  | neg _ ih => rw [flatten, flatten, ih]
  | conj _ _ ihp ihq => rw [flatten, flatten, ihp, ihq]
  | disj _ _ ihp ihq => rw [flatten, flatten, ihp, ihq]
  | conj_assoc p q r => simp only [flatten, Flat.conjuncts, List.append_assoc]
  | disj_assoc p q r => simp only [flatten, Flat.disjuncts, List.append_assoc]

/-- Pushing negations turns a chain into a chain of the same or of the other connective. -/
theorem Regrouped.nnf (h : Regrouped f g) (positive : Bool) :
    Regrouped (f.nnf positive) (g.nnf positive) := by
  induction h generalizing positive with
  | refl f => exact .refl _
  | symm _ ih => exact (ih positive).symm
  | trans _ _ ih ih' => exact (ih positive).trans (ih' positive)
  | neg _ ih => exact ih _
  | conj _ _ ihp ihq => cases positive with
    | true => exact .conj (ihp true) (ihq true)
    | false => exact .disj (ihp false) (ihq false)
  | disj _ _ ihp ihq => cases positive with
    | true => exact .disj (ihp true) (ihq true)
    | false => exact .conj (ihp false) (ihq false)
  | conj_assoc p q r => cases positive with
    | true => exact .conj_assoc _ _ _
    | false => exact .disj_assoc _ _ _
  | disj_assoc p q r => cases positive with
    | true => exact .disj_assoc _ _ _
    | false => exact .conj_assoc _ _ _

end Formula

section Crossing

variable {α β : Type}

def crossed (left right : List (List α)) : List (List α) :=
  left.flatMap fun a => right.map fun b => a ++ b

theorem crossed_unit_left (right : List (List α)) : crossed [[]] right = right := by
  simp [crossed]

theorem crossed_unit_right (left : List (List α)) : crossed left [[]] = left := by
  simp [crossed]

theorem crossed_assoc (a b c : List (List α)) :
    crossed (crossed a b) c = crossed a (crossed b c) := by
  simp only [crossed, List.flatMap_assoc, List.flatMap_map, List.map_flatMap, List.map_map,
    Function.comp_def, List.append_assoc]

theorem map_crossed (g : α → β) (left right : List (List α)) :
    (crossed left right).map (List.map g) =
      crossed (left.map (List.map g)) (right.map (List.map g)) := by
  simp only [crossed, List.map_flatMap, List.flatMap_map, List.map_map, Function.comp_def,
    List.map_append]

end Crossing

namespace Flat

variable {α : Type}

mutual

def clauses : Flat α → Bool → List (List (α × Bool))
  | atom a, positive => [[(a, positive)]]
  | neg x, positive => x.clauses (!positive)
  | all operands, true => listed operands true
  | all operands, false => joined operands false
  | any operands, true => joined operands true
  | any operands, false => listed operands false

def listed : List (Flat α) → Bool → List (List (α × Bool))
  | [], _ => []
  | x :: rest, positive => x.clauses positive ++ listed rest positive

/-- The clauses that take one clause from every operand. -/
def joined : List (Flat α) → Bool → List (List (α × Bool))
  | [], _ => [[]]
  | x :: rest, positive => crossed (x.clauses positive) (joined rest positive)

end

theorem listed_append (operands operands' : List (Flat α)) (positive : Bool) :
    listed (operands ++ operands') positive =
      listed operands positive ++ listed operands' positive := by
  induction operands with
  | nil => rfl
  | cons x rest ih => rw [List.cons_append, listed, ih, listed, List.append_assoc]

theorem joined_append (operands operands' : List (Flat α)) (positive : Bool) :
    joined (operands ++ operands') positive =
      crossed (joined operands positive) (joined operands' positive) := by
  induction operands with
  | nil => exact (crossed_unit_left _).symm
  | cons x rest ih => rw [List.cons_append, joined, ih, joined, crossed_assoc]

theorem listed_singleton (x : Flat α) (positive : Bool) :
    listed [x] positive = x.clauses positive :=
  List.append_nil _

theorem joined_singleton (x : Flat α) (positive : Bool) :
    joined [x] positive = x.clauses positive :=
  crossed_unit_right _

theorem listed_conjuncts (x : Flat α) : listed x.conjuncts true = x.clauses true := by
  cases x with
  | all operands => rfl
  | _ => exact listed_singleton _ true

theorem joined_conjuncts (x : Flat α) : joined x.conjuncts false = x.clauses false := by
  cases x with
  | all operands => rfl
  | _ => exact joined_singleton _ false

theorem listed_disjuncts (x : Flat α) : listed x.disjuncts false = x.clauses false := by
  cases x with
  | any operands => rfl
  | _ => exact listed_singleton _ false

theorem joined_disjuncts (x : Flat α) : joined x.disjuncts true = x.clauses true := by
  cases x with
  | any operands => rfl
  | _ => exact joined_singleton _ true

end Flat

namespace Cnf

variable {α : Type} {f g : Formula}

/-- Distribution sees a formula only through its flattened form. -/
theorem map_distribute (key : Variable → α) (f : Formula) (positive : Bool) :
    (distribute f positive).map (List.map fun l => (key l.var, l.positive)) =
      (f.flatten key).clauses positive := by
  induction f generalizing positive with
  | atom v => rfl
  | neg f ih => exact ih _
  | conj p q ihp ihq => cases positive with
    | true =>
      rw [distribute, List.map_append, ihp, ihq, ← Flat.listed_conjuncts,
        ← Flat.listed_conjuncts, ← Flat.listed_append]
      rfl
    | false =>
      rw [distribute, ← crossed, map_crossed, ihp, ihq, ← Flat.joined_conjuncts,
        ← Flat.joined_conjuncts, ← Flat.joined_append]
      rfl
  | disj p q ihp ihq => cases positive with
    | true =>
      rw [distribute, ← crossed, map_crossed, ihp, ihq, ← Flat.joined_disjuncts,
        ← Flat.joined_disjuncts, ← Flat.joined_append]
      rfl
    | false =>
      rw [distribute, List.map_append, ihp, ihq, ← Flat.listed_disjuncts,
        ← Flat.listed_disjuncts, ← Flat.listed_append]
      rfl

/-- Distribution pushes negations to the atoms itself. -/
theorem distribute_nnf (f : Formula) (positive : Bool) :
    distribute (f.nnf positive) true = distribute f positive := by
  induction f generalizing positive with
  | atom v => cases positive <;> rfl
  | neg f ih => exact ih _
  | conj p q ihp ihq => cases positive <;> rw [Formula.nnf, distribute, ihp, ihq, distribute]
  | disj p q ihp ihq => cases positive <;> rw [Formula.nnf, distribute, ihp, ihq, distribute]

theorem map_distribute_eq {key : Variable → α}
    (h : (f.nnf true).flatten key = (g.nnf true).flatten key) :
    (distribute f true).map (List.map fun l => (key l.var, l.positive)) =
      (distribute g true).map (List.map fun l => (key l.var, l.positive)) := by
  rw [← distribute_nnf f, ← distribute_nnf g, map_distribute, map_distribute, h]

theorem ofFormula_eq (h : (f.nnf true).flatten id = (g.nnf true).flatten id) :
    ofFormula f = ofFormula g := by
  have hinjective : Function.Injective fun l : Literal => (id l.var, l.positive) := by
    rintro ⟨v, b⟩ ⟨w, c⟩ heq
    cases heq
    rfl
  have hdistribute : distribute f true = distribute g true :=
    hinjective.list_map.list_map (map_distribute_eq h)
  rw [ofFormula, ofFormula, hdistribute]

theorem beq_iff (cnf cnf' : Cnf) : (cnf == cnf') = true ↔
    cnf.clauses.map Clause.signature = cnf'.clauses.map Clause.signature :=
  beq_iff_map_eq Clause.beq_iff cnf.clauses cnf'.clauses

theorem map_signature_ofFormula (f : Formula) : (ofFormula f).clauses.map Clause.signature =
    ((distribute f true).map (List.map fun l => (l.var.id, l.positive))).eraseDups := by
  have hkey : ∀ c d : Clause, (c.signature == d.signature) = (c == d) := by
    intro c d
    rw [Bool.eq_iff_iff, beq_iff_eq, Clause.beq_iff]
  rw [ofFormula, map_eraseDups hkey, List.map_map]
  rfl

theorem ofFormula_beq
    (h : (f.nnf true).flatten Variable.id = (g.nnf true).flatten Variable.id) :
    (ofFormula f == ofFormula g) = true := by
  rw [beq_iff, map_signature_ofFormula, map_signature_ofFormula, map_distribute_eq h]

end Cnf

theorem Formula.Regrouped.ofFormula_eq {f g : Formula} (h : f.Regrouped g) :
    Cnf.ofFormula f = Cnf.ofFormula g :=
  Cnf.ofFormula_eq ((h.nnf true).flatten_eq id)

/-- Formulas whose negation normal forms are equal once flattened have equal clause lists. So
have a formula and what its text is read as, which may be grouped in another way. -/
theorem clauses_depend_on_flattened_form (f g : Formula) :
    ((f.nnf true).flatten Variable.id = (g.nnf true).flatten Variable.id →
      (Cnf.ofFormula f == Cnf.ofFormula g) = true) ∧
    ((f.nnf true).flatten id = (g.nnf true).flatten id →
      Cnf.ofFormula f = Cnf.ofFormula g) ∧
    ∀ table : VariableTable, (∀ v ∈ f.atoms, Condition.Readable table v) → f.nest ≤ 64 →
      ∃ h, Condition.parse table f.text = ⟨.ok (some h), table⟩ ∧
        Cnf.ofFormula h = Cnf.ofFormula f := by
  refine ⟨Cnf.ofFormula_beq, Cnf.ofFormula_eq, ?_⟩
  intro table hreadable hnest
  have htable := Condition.declare_of_readable hreadable
  rw [← htable] at hreadable
  obtain ⟨h, hparse, hregrouped⟩ := Condition.parse_text hreadable hnest
  rw [htable] at hparse
  exact ⟨h, hparse, hregrouped.ofFormula_eq⟩

/-- A negated chain of disjunctions, grouped to the right, and the chain of conjunctions that it
stands for, grouped to the left. -/
theorem clauses_depend_on_flattened_form_of_negated_chain :
    let a : Variable := ⟨⟨1, Nat.one_pos⟩, "A", .boolean⟩
    let b : Variable := ⟨⟨2, Nat.two_pos⟩, "B", .boolean⟩
    let f : Formula := .neg (.disj (.atom a) (.disj (.neg (.atom b)) (.atom a)))
    let g : Formula := .conj (.conj (.neg (.atom a)) (.atom b)) (.neg (.atom a))
    (f.nnf true).flatten Variable.id = (g.nnf true).flatten Variable.id ∧
    (f.nnf true).flatten id = (g.nnf true).flatten id ∧
    (Cnf.ofFormula f == Cnf.ofFormula g) = true ∧ Cnf.ofFormula f = Cnf.ofFormula g ∧
    (∀ v ∈ f.atoms, Condition.Readable ⟨[a, b]⟩ v) ∧ f.nest ≤ 64 ∧
    ∃ h, Condition.parse ⟨[a, b]⟩ f.text = ⟨.ok (some h), ⟨[a, b]⟩⟩ ∧
      Cnf.ofFormula h = Cnf.ofFormula f := by
  intro a b f g
  have ha : Condition.Readable ⟨[a, b]⟩ a := ⟨rfl, rfl, Condition.isIdentifier_letter⟩
  have hb : Condition.Readable ⟨[a, b]⟩ b :=
    ⟨rfl, rfl, by decide, List.all_eq_true.mp (by decide), by decide⟩
  have hreadable : ∀ v ∈ f.atoms, Condition.Readable ⟨[a, b]⟩ v := by
    intro v hv
    have hmem : v ∈ [a, b, a] := hv
    simp only [List.mem_cons, List.not_mem_nil, or_false] at hmem
    rcases hmem with rfl | rfl | rfl
    · exact ha
    · exact hb
    · exact ha
  obtain ⟨hbeq, heq, hparse⟩ := clauses_depend_on_flattened_form f g
  exact ⟨rfl, rfl, hbeq rfl, heq rfl, hreadable, by decide, hparse _ hreadable (by decide)⟩

end GuardedMachines
