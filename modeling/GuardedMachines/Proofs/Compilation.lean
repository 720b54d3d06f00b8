import GuardedMachines.Oracle
import GuardedMachines.Proofs.ClauseForm
import GuardedMachines.Proofs.Diagram.Counting
import GuardedMachines.Proofs.Diagram.Satisfaction
import Mathlib.Order.Interval.Finset.Nat

/-!
Compiling clauses into a diagram. The variables are numbered from one in the
order in which they are listed, and an assignment of positions goes with an
assignment of identifiers if they agree at every position. Under assignments
that go together the diagram has the value of the clauses, also where compiling
stops early because the conjunction is already zero. From this follow the
witnesses, the refutations and the counts that are read off the diagram.
-/

namespace GuardedMachines.DiagramOracle

open Diagram Diagram.Store

/-- Positions have the values of the variables at them. -/
def Numbers (vars : List Variable) (a : VarId → Bool) (ρ : Nat → Bool) : Prop :=
  ∀ i v, vars[i]? = some v → ρ (i + 1) = a v.id

def idAt (vars : List Variable) (position : Nat) : VarId :=
  (vars[position - 1]?.map Variable.id).getD ⟨1, Nat.one_pos⟩

theorem idAt_succ {vars : List Variable} {i : Nat} {v : Variable} (h : vars[i]? = some v) :
    idAt vars (i + 1) = v.id := by
  simp [idAt, h]

theorem numbers_idAt (vars : List Variable) (a : VarId → Bool) :
    Numbers vars a fun position => a (idAt vars position) := by
  intro i v hv
  simp only [idAt_succ hv]

theorem exists_getElem?_of_mem_Icc {vars : List Variable} {position : Nat}
    (h : position ∈ Finset.Icc 1 vars.length) :
    ∃ i v, position = i + 1 ∧ vars[i]? = some v := by
  obtain ⟨hge, hle⟩ := Finset.mem_Icc.mp h
  have hlt : position - 1 < vars.length := by omega
  exact ⟨position - 1, _, by omega, List.getElem?_eq_getElem hlt⟩

theorem image_idAt (vars : List Variable) :
    (Finset.Icc 1 vars.length).image (idAt vars) = idSet vars := by
  ext id
  rw [Finset.mem_image, mem_idSet]
  constructor
  · rintro ⟨position, hposition, rfl⟩
    obtain ⟨i, v, rfl, hv⟩ := exists_getElem?_of_mem_Icc hposition
    exact ⟨v, List.mem_of_getElem? hv, (idAt_succ hv).symm⟩
  · rintro ⟨v, hv, rfl⟩
    obtain ⟨i, hi⟩ := List.getElem?_of_mem hv
    have hlt := (List.getElem?_eq_some_iff.mp hi).1
    exact ⟨i + 1, Finset.mem_Icc.mpr ⟨by omega, by omega⟩, idAt_succ hi⟩

theorem idAt_injOn {vars : List Variable} (hnodup : (vars.map Variable.id).Nodup) :
    Set.InjOn (idAt vars) (Finset.Icc 1 vars.length) := by
  intro position hposition position' hposition' heq
  obtain ⟨i, v, rfl, hv⟩ := exists_getElem?_of_mem_Icc hposition
  obtain ⟨j, w, rfl, hw⟩ := exists_getElem?_of_mem_Icc hposition'
  rw [idAt_succ hv, idAt_succ hw] at heq
  have hi : (vars.map Variable.id)[i]? = some v.id := by rw [List.getElem?_map, hv]; rfl
  have hj : (vars.map Variable.id)[j]? = some v.id := by rw [List.getElem?_map, hw, heq]; rfl
  have hlt := (List.getElem?_eq_some_iff.mp hi).1
  rw [(List.getElem?_inj hlt hnodup).mp (hi.trans hj.symm)]

/-- A set of positions and the set of identifiers at them are assignments that go together. -/
theorem numbers_trueOn {vars : List Variable} (hnodup : (vars.map Variable.id).Nodup)
    {A : Finset Nat} (hA : A ⊆ Finset.Icc 1 vars.length) :
    Numbers vars (trueOn (A.image (idAt vars))) (trueOn A) := by
  intro i v hv
  have hlt := (List.getElem?_eq_some_iff.mp hv).1
  have hposition : i + 1 ∈ Finset.Icc 1 vars.length := Finset.mem_Icc.mpr ⟨by omega, by omega⟩
  unfold trueOn
  rw [decide_eq_decide, ← idAt_succ hv]
  constructor
  · exact Finset.mem_image_of_mem _
  · intro hmem
    obtain ⟨position, hmem, heq⟩ := Finset.mem_image.mp hmem
    rwa [← idAt_injOn hnodup (hA hmem) hposition heq]

/-- A literal of a listed variable goes to the position of that variable, with its sign. -/
theorem signedPosition_eq {vars : List Variable} {l : Literal} (hl : l.var.id ∈ idSet vars) :
    ∃ (i : Nat) (v : Variable), vars[i]? = some v ∧ v.id = l.var.id ∧
      signedPosition vars l = Decision.literal ⟨i + 1, l.positive⟩ := by
  obtain ⟨w, hw, hid⟩ := mem_idSet.mp hl
  have hexists : ∃ v ∈ vars, (v == l.var) = true := ⟨w, hw, (Variable.beq_iff w _).mpr hid⟩
  have hlt := List.findIdx_lt_length_of_exists hexists
  refine ⟨_, _, List.getElem?_eq_getElem hlt, ?_, ?_⟩
  · exact (Variable.beq_iff _ _).mp (List.findIdx_getElem (p := fun v => v == l.var) (w := hlt))
  · unfold signedPosition Decision.literal
    rw [Word.ofNat_succ]

theorem literalValue_literal (ρ : Nat → Bool) {d : Decision} (hpos : d.var ≠ 0)
    (hword : d.var < 2147483648) : literalValue ρ d.literal = (ρ d.var == d.value) := by
  have hliteral := d.toInt_literal hword
  have hneg : d.literal < 0 ↔ d.value = false := by
    rw [Int32.lt_iff_toInt_lt, hliteral, show (0 : Int32).toInt = 0 from rfl]
    cases d.value
    · simp
      omega
    · simp
  rw [literalValue, d.magnitude_literal hword]
  cases hvalue : d.value <;> simp [hneg, hvalue]

theorem literalValue_signedPosition {vars : List Variable} (hvars : vars.length < 2147483648)
    {a : VarId → Bool} {ρ : Nat → Bool} (hρ : Numbers vars a ρ) {l : Literal}
    (hl : l.var.id ∈ idSet vars) : literalValue ρ (signedPosition vars l) = l.holds a := by
  obtain ⟨i, v, hv, hid, heq⟩ := signedPosition_eq hl
  have hlt := (List.getElem?_eq_some_iff.mp hv).1
  have hvalue : ρ (i + 1) = a l.var.id := by rw [hρ i v hv, hid]
  have hliteral := literalValue_literal ρ (d := ⟨i + 1, l.positive⟩) (Nat.succ_ne_zero i)
    (show i + 1 < 2147483648 by omega)
  rw [heq, hliteral, hvalue]
  rfl

theorem magnitude_signedPosition_mem {vars : List Variable} (hvars : vars.length < 2147483648)
    {l : Literal} (hl : l.var.id ∈ idSet vars) :
    Word.magnitude (signedPosition vars l) ∈ Finset.Icc 1 vars.length := by
  obtain ⟨i, v, hv, -, heq⟩ := signedPosition_eq hl
  have hlt := (List.getElem?_eq_some_iff.mp hv).1
  rw [heq, Decision.magnitude_literal (show i + 1 < 2147483648 by omega), Finset.mem_Icc]
  exact ⟨Nat.le_add_left 1 i, hlt⟩

/-- The conjunction computed is that of all clauses: once it is zero, the clauses
that are left out do not matter. -/
theorem conjoinFrom_spec {s : Store} {V : Nat → Prop} (hs : s.Valid) (ho : s.Ordered V) {f : Edge}
    (hf : s.Has f) {clauses : List (List Int32)}
    (hvars : ∀ c ∈ clauses, ∀ l ∈ c, V (Word.magnitude l)) :
    s.Computes (conjoinFrom s f clauses)
        (fun ρ => s.value ρ f && clauses.all fun c => c.any (literalValue ρ)) ∧
      (conjoinFrom s f clauses).2.Ordered V := by
  induction clauses generalizing s f with
  | nil => exact ⟨.ok hs (.refl s) hf fun ρ => by simp, ho⟩
  | cons literals rest ih =>
    have hclause := hs.clause literals
    have hclauseOrdered := ho.clause hs (hvars literals List.mem_cons_self)
    rw [conjoinFrom]
    split
    · next cause s₁ heq =>
      rw [heq] at hclause hclauseOrdered
      exact ⟨.error hclause.valid hclause.grown cause, hclauseOrdered⟩
    · next c s₁ heq =>
      rw [heq] at hclause hclauseOrdered
      have hf₁ := hclause.grown.has hf
      have hc := hclause.has c rfl
      have hconj := hclause.valid.conj hf₁ hc
      have hconjOrdered := hclauseOrdered.ite hclause.valid hf₁ hc hclause.valid.has_zero
      change (s₁.conj f c).2.Ordered V at hconjOrdered
      split
      · next cause s₂ heq₂ =>
        rw [heq₂] at hconj hconjOrdered
        exact ⟨.error hconj.valid (hclause.grown.trans hconj.grown) cause, hconjOrdered⟩
      · next g s₂ heq₂ =>
        rw [heq₂] at hconj hconjOrdered
        have hgrown := hclause.grown.trans hconj.grown
        have hg := hconj.has g rfl
        have hvalue : ∀ ρ, s₂.value ρ g = (s.value ρ f && literals.any (literalValue ρ)) := by
          intro ρ
          rw [hconj.value g rfl, hclause.value c rfl, hclause.grown.value_eq hs.toLayered ρ hf]
        split
        · -- Zero absorbs the clauses that are left out.
          next hzero =>
          refine ⟨.ok hconj.valid hgrown hg fun ρ => ?_, hconjOrdered⟩
          have hfalse := hvalue ρ
          rw [hzero, Store.value_zero] at hfalse
          rw [hzero, Store.value_zero, List.all_cons, ← Bool.and_assoc, ← hfalse, Bool.false_and]
        · obtain ⟨hrest, hrestOrdered⟩ := ih hconj.valid hconjOrdered hg
            fun c hc => hvars c (List.mem_cons_of_mem _ hc)
          refine ⟨(hrest.from_earlier hgrown).congr fun ρ => ?_, hrestOrdered⟩
          rw [hvalue, List.all_cons, Bool.and_assoc]

structure Compiled.Represents (c : Compiled) (cnf : Cnf) : Prop where
  vars_eq : c.vars = cnf.vars
  valid : c.store.Valid
  ordered : c.store.Ordered (· ∈ Finset.Icc 1 cnf.vars.length)
  has_root : c.store.Has c.root
  value : ∀ a ρ, Numbers cnf.vars a ρ → c.store.value ρ c.root = cnf.holds a

section

variable {limits : Limits} (hlimit : limits.nodeLimit ≤ 2147483648) {clock : Clock} {cnf : Cnf}
  (hcnf : cnf.vars.length < 2147483648)

include hlimit hcnf

theorem compile_represents {c : Compiled} (h : (compile limits clock cnf).result = .ok c) :
    c.Represents cnf := by
  have hlisted : ∀ d ∈ cnf.clauses, ∀ l ∈ d.literals, l.var.id ∈ idSet cnf.vars :=
    fun d hd l hl => Cnf.mem_idSet_vars.mpr ⟨d, hd, l, hl, rfl⟩
  have hnew := Store.new_valid hlimit clock
  have hvars : ∀ literals ∈ cnf.clauses.map fun d => d.literals.map (signedPosition cnf.vars),
      ∀ l ∈ literals, Word.magnitude l ∈ Finset.Icc 1 cnf.vars.length := by
    intro literals hliterals l hl
    obtain ⟨d, hd, rfl⟩ := List.mem_map.mp hliterals
    obtain ⟨literal, hliteral, rfl⟩ := List.mem_map.mp hl
    exact magnitude_signedPosition_mem hcnf (hlisted d hd literal hliteral)
  obtain ⟨hcomputes, hordered⟩ :=
    conjoinFrom_spec hnew (Store.new_ordered limits clock _) hnew.has_one hvars
  dsimp only [compile] at h
  split at h
  · cases h
  · next root store heq =>
    cases h
    rw [heq] at hcomputes hordered
    refine ⟨rfl, hcomputes.valid, hordered, hcomputes.has root rfl, fun a ρ hρ => ?_⟩
    rw [hcomputes.value root rfl ρ, Store.value_one, Bool.true_and, List.all_map]
    unfold Cnf.holds
    rw [Bool.eq_iff_iff, List.all_eq_true, List.all_eq_true]
    refine forall₂_congr fun d hd => ?_
    simp only [Function.comp_apply, List.any_map, Clause.holds, List.any_eq_true]
    refine exists_congr fun l => and_congr_right fun hl => ?_
    rw [literalValue_signedPosition hcnf hρ (hlisted d hd l hl)]

def Compiled.verdict (c : Compiled) : Verdict :=
  match c.store.path? c.root with
  | none => .unsatisfiable
  | some path => .satisfiable (witness c.vars (path.map Decision.literal))

/-- Every verdict is read off a diagram that stands for the clauses. -/
theorem exists_represents_of_solve {v : Verdict} (h : (solve limits clock cnf).result = .ok v) :
    ∃ c : Compiled, c.Represents cnf ∧ c.verdict = v := by
  obtain ⟨c, hc, h⟩ := Query.result_bind_eq_ok.mp h
  refine ⟨c, compile_represents hlimit hcnf hc, ?_⟩
  rw [Query.result_lift_bind, pathTraced] at h
  unfold Compiled.verdict
  cases hpath : c.store.path? c.root with
  | none =>
    rw [hpath] at h
    cases h
    rfl
  | some path =>
    rw [hpath] at h
    cases h
    rfl

theorem exists_represents_of_countModels {n : Nat}
    (h : (countModels limits clock cnf).result = .ok n) :
    ∃ c : Compiled, c.Represents cnf ∧ c.store.count c.root c.vars.length = n := by
  obtain ⟨c, hc, h⟩ := Query.result_bind_eq_ok.mp h
  cases h
  exact ⟨c, compile_represents hlimit hcnf hc, rfl⟩

end

theorem map_var_witness (vars : List Variable) (path : List Int32) :
    (witness vars path).literals.map Literal.var = vars := by
  apply List.ext_getElem?
  intro i
  cases hi : vars[i]? <;> simp [witness, hi]

/-- A position is among the positive literals of a path exactly if the path sets it to true. -/
theorem contains_filter_literal {path : List Decision} {i : Nat}
    (hpath : ∀ d ∈ path, d.var ≠ 0 ∧ d.var < 2147483648) (hi : i + 1 < 2147483648) :
    ((path.map Decision.literal).filter fun l => decide (0 < l)).contains (Int32.ofNat i + 1) =
      pathAssignment path (i + 1) := by
  rw [Word.ofNat_succ, pathAssignment, Bool.eq_iff_iff, List.contains_iff_mem,
    List.contains_iff_mem, List.mem_filter, List.mem_map]
  constructor
  · rintro ⟨⟨d, hd, heq⟩, hpos⟩
    obtain ⟨hvar, hword⟩ := hpath d hd
    have hposition : d.var = i + 1 := by
      rw [← d.magnitude_literal hword, heq, Word.magnitude_ofNat hi]
    have hvalue : d.value = true := by
      rw [← heq, d.literal_pos_iff hvar hword] at hpos
      exact hpos
    obtain ⟨var, value⟩ := d
    cases hposition
    cases hvalue
    exact hd
  · intro hd
    obtain ⟨hvar, hword⟩ := hpath _ hd
    refine ⟨⟨⟨i + 1, true⟩, hd, rfl⟩, ?_⟩
    exact Decision.literal_pos_iff (d := ⟨i + 1, true⟩) hvar hword

namespace Compiled.Represents

variable {c : Compiled} {cnf : Cnf} {path : List Decision}

/-- A path decides positions only. -/
theorem mem_Icc_of_path (hrep : c.Represents cnf) (hpath : c.store.path? c.root = some path) :
    ∀ d ∈ path, d.var ∈ Finset.Icc 1 cnf.vars.length := by
  unfold path? at hpath
  split at hpath
  · cases hpath
  · next hzero =>
    cases hpath
    intro d hd
    exact hrep.ordered.var_of_mem_pathWithin hrep.valid.toLayered _ hrep.has_root hzero hd

theorem witness_literals (hrep : c.Represents cnf) (hcnf : cnf.vars.length < 2147483648)
    (hpath : c.store.path? c.root = some path) :
    (witness cnf.vars (path.map Decision.literal)).literals =
      cnf.vars.mapIdx fun i v => ⟨v, pathAssignment path (i + 1)⟩ := by
  have hwords : ∀ d ∈ path, d.var ≠ 0 ∧ d.var < 2147483648 := by
    intro d hd
    have hmem := Finset.mem_Icc.mp (hrep.mem_Icc_of_path hpath d hd)
    exact ⟨by omega, by omega⟩
  apply List.ext_getElem?
  intro i
  cases hv : cnf.vars[i]? with
  | none => simp [witness, hv]
  | some v =>
    have hlt := (List.getElem?_eq_some_iff.mp hv).1
    have hvalue := contains_filter_literal hwords (show i + 1 < 2147483648 by omega)
    simp [witness, hv, ← hvalue]

/-- Under the valuation of a witness a variable has the value that the path gives its position. -/
theorem numbers_witness (hrep : c.Represents cnf) (hcnf : cnf.vars.length < 2147483648)
    (hpath : c.store.path? c.root = some path) :
    Numbers cnf.vars (witness cnf.vars (path.map Decision.literal)).valuation.assignment
      (pathAssignment path) := by
  intro i v hv
  have hnodup := cnf.sorted_vars.nodup_ids
  rw [← map_var_witness cnf.vars (path.map Decision.literal), List.map_map] at hnodup
  have hliteral : (⟨v, pathAssignment path (i + 1)⟩ : Literal) ∈
      (witness cnf.vars (path.map Decision.literal)).literals := by
    rw [hrep.witness_literals hcnf hpath]
    apply List.mem_of_getElem? (i := i)
    simp [hv]
  exact (Valuation.assignment_ofLiterals hnodup hliteral).symm

end Compiled.Represents

section

variable {limits : Limits} (hlimit : limits.nodeLimit ≤ 2147483648) {clock : Clock} {cnf : Cnf}
  (hcnf : cnf.vars.length < 2147483648)

include hlimit hcnf

/-- The witness lists the variables of the clauses and satisfies them. -/
theorem solve_satisfiable {w : Witness}
    (h : (solve limits clock cnf).result = .ok (.satisfiable w)) :
    w.literals.map Literal.var = cnf.vars ∧ cnf.holds w.valuation.assignment = true := by
  obtain ⟨c, hrep, hverdict⟩ := exists_represents_of_solve hlimit hcnf h
  unfold Compiled.verdict at hverdict
  split at hverdict
  · cases hverdict
  · next path hpath =>
    cases hverdict
    rw [hrep.vars_eq, ← hrep.value _ _ (hrep.numbers_witness hcnf hpath)]
    exact ⟨map_var_witness cnf.vars _,
      hrep.ordered.value_pathAssignment hrep.valid.toLayered hrep.has_root hpath⟩

theorem solve_unsatisfiable (h : (solve limits clock cnf).result = .ok .unsatisfiable)
    (a : VarId → Bool) : cnf.holds a = false := by
  obtain ⟨c, hrep, hverdict⟩ := exists_represents_of_solve hlimit hcnf h
  unfold Compiled.verdict at hverdict
  split at hverdict
  · next hpath =>
    rw [← hrep.value a _ (numbers_idAt cnf.vars a), (path?_eq_none c.store c.root).mp hpath,
      value_zero]
  · cases hverdict

theorem countModels_eq {n : Nat} (h : (countModels limits clock cnf).result = .ok n) :
    n = modelCount (idSet cnf.vars) fun a => cnf.holds a := by
  obtain ⟨c, hrep, rfl⟩ := exists_represents_of_countModels hlimit hcnf h
  have hnodup := cnf.sorted_vars.nodup_ids
  have hcount := hrep.ordered.count_eq_models hrep.valid.toLayered _ hrep.has_root
    (hrep.ordered.within hrep.valid.toLayered hrep.has_root)
  rw [Nat.card_Icc, Nat.add_sub_cancel] at hcount
  rw [hrep.vars_eq, hcount, models, ← image_idAt]
  symm
  apply modelCount_image (idAt_injOn hnodup)
  intro A hA
  exact (hrep.value _ _ (numbers_trueOn hnodup hA)).symm

end

end GuardedMachines.DiagramOracle
