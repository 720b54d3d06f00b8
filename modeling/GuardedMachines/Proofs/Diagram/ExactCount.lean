import Mathlib.Data.Fintype.EquivFin
import GuardedMachines.Proofs.Diagram.Support

/-!
Counts are exact. Among at least as many variables as the support of an edge has,
whichever these are, every variable beyond the support doubles the models over
the support. At each node on the way down the counts of the two children then add
up to an even number, so that nothing is lost where the sum is halved; and among
any number of variables no count exceeds the number of all assignments.
-/

namespace GuardedMachines.Diagram

namespace Store

/-- Counting an edge comes to the other one. From an edge that is not terminal it goes on to the
children that are stored in its node. -/
inductive Visits (s : Store) : Edge → Edge → Prop
  | here (e : Edge) : Visits s e e
  | child {r e : Edge} (b : Bool) (ht : ¬ r.isTerminal) (below : Visits s (s.child b r.regular) e) :
      Visits s r e

variable {s : Store} {U : Nat → Prop} {e r : Edge}

theorem Ordered.support_neg (ho : s.Ordered U) (hs : s.Valid) (he : s.Has e) :
    s.support (-e) = s.support e := by
  ext v
  rw [ho.mem_support_iff hs he.neg, ho.mem_support_iff hs he]
  simp [DependsOn, restrict, hs.value_neg _ he]

theorem Ordered.support_regular (ho : s.Ordered U) (hs : s.Valid) (he : s.Has e) :
    s.support e.regular = s.support e := by
  rcases e.regular_cases with ⟨-, heq⟩ | ⟨-, heq⟩
  · rw [heq]
  · rw [heq, ho.support_neg hs he]

theorem Visits.support_subset (h : s.Visits r e) (ho : s.Ordered U) (hs : s.Valid)
    (hr : s.Has r) : s.Has e ∧ s.support e ⊆ s.support r := by
  induction h with
  | here e => exact ⟨hr, Finset.Subset.refl _⟩
  | @child r e b ht below ih =>
    have ht' : ¬ r.regular.isTerminal := by simpa using ht
    obtain ⟨he, hsubset⟩ := ih (hs.has_child hr.regular ht' b)
    refine ⟨he, hsubset.trans ?_⟩
    rw [← ho.support_regular hs hr]
    exact hs.support_child_subset hr.regular ht' b

/-- Assignments that agree on the support give an edge the same value. -/
theorem Layered.value_congr (hs : s.Layered) (he : s.Has e) {ρ σ : Nat → Bool}
    (h : ∀ v ∈ s.support e, ρ v = σ v) : s.value ρ e = s.value σ e := by
  induction hindex : e.index using Nat.strong_induction_on generalizing e with
  | h index ih =>
    by_cases ht : e.isTerminal
    · rw [s.value_of_isTerminal ρ ht, s.value_of_isTerminal σ ht]
    · have hvar := h _ ((hs.mem_support_of_not_isTerminal he ht).mpr (Or.inl rfl))
      have hlt := hs.index_child_lt he ht (σ (s.var e))
      rw [hs.value_child ρ he ht, hs.value_child σ he ht, hvar]
      exact ih _ (by omega) (hs.has_child he ht _)
        (fun v hv => h v (hs.support_child_subset he ht _ hv)) rfl

/-- Variables beyond the support double the count, one by one. -/
theorem Ordered.count_eq_two_pow_mul (ho : s.Ordered U) (hs : s.Valid) (he : s.Has e) {n : Nat}
    (hn : (s.support e).card ≤ n) :
    s.count e n = 2 ^ (n - (s.support e).card) * s.models (s.support e) e := by
  obtain ⟨V, hsubset, hcard⟩ := Infinite.exists_superset_card_eq (s.support e) n hn
  have hfree : ∀ v ∈ V \ s.support e, ∀ ρ b, s.value (Function.update ρ v b) e = s.value ρ e := by
    intro v hv
    have hnot : v ∉ s.support e := (Finset.mem_sdiff.mp hv).2
    rw [ho.mem_support_iff hs he] at hnot
    exact update_of_not_dependsOn hnot
  have hcount := ho.count_eq_models hs.toLayered V he (hs.within_support he hsubset)
  calc s.count e n = s.models V e := by rw [← hcard, hcount]
    _ = s.models (s.support e ∪ V \ s.support e) e := by
      rw [Finset.union_sdiff_of_subset hsubset]
    _ = 2 ^ (V \ s.support e).card * s.models (s.support e) e :=
      modelCount_union_of_free Finset.disjoint_sdiff hfree
    _ = 2 ^ (n - (s.support e).card) * s.models (s.support e) e := by
      rw [Finset.card_sdiff_of_subset hsubset, hcard]

/-- With room for the support, the halving at a node is exact. -/
theorem Ordered.add_counts_eq (ho : s.Ordered U) (hs : s.Valid) (he : s.Has e)
    (ht : ¬ e.isTerminal) {n : Nat} (hn : (s.support e).card ≤ n) :
    s.count (s.low e.regular) n + s.count (s.high e.regular) n = 2 * s.count e.regular n := by
  obtain ⟨V, hsubset, rfl⟩ := Infinite.exists_superset_card_eq (s.support e) n hn
  have hregular := he.regular
  have ht' : ¬ e.regular.isTerminal := by simpa using ht
  have hwithin := (hs.within_support he hsubset).regular hs.toLayered he
  obtain ⟨hvar, hchild⟩ := hwithin.of_node ht'
  have hcount := fun b => ho.count_eq_models hs.toLayered V (hs.has_child hregular ht' b) (hchild b)
  have hlow : s.count (s.low e.regular) V.card = _ := hcount false
  have hhigh : s.count (s.high e.regular) V.card = _ := hcount true
  rw [hlow, hhigh, ho.count_eq_models hs.toLayered V hregular hwithin]
  exact (ho.two_mul_models hs.toLayered hregular ht' hvar).symm

end Store

/-- Counts in every store that a run leaves, where the bound on the nodes leaves every index room
beside the sign of an edge. With at least as many variables as the support has,
the count is the number of models over the support, doubled for every further variable, and the
sum that is halved at a node is even wherever the counting comes. With any number of variables a
node counts half of what its children count together and no more than there are assignments, so
that the complement for a negated edge is what is left. -/
theorem count_of_runs (limits : Limits) (hlimit : limits.nodeLimit ≤ 2147483648) (clock : Clock)
    (s : Store) (before : Runs OrderedCall (.new limits clock) s) (r : Edge) (hr : s.Has r) :
    (∀ v, v ∈ s.support r ↔ DependsOn (fun ρ => s.value ρ r) v) ∧
    (∀ ρ σ, (∀ v ∈ s.support r, ρ v = σ v) → s.value ρ r = s.value σ r) ∧
    (∀ n, (s.support r).card ≤ n →
      s.count r n = 2 ^ (n - (s.support r).card) *
        modelCount (s.support r) (fun ρ => s.value ρ r) ∧
      ∀ e, s.Visits r e → ¬ e.isTerminal →
        s.count (s.low e.regular) n + s.count (s.high e.regular) n = 2 * s.count e.regular n) ∧
    (∀ n, s.count .one n = 2 ^ n ∧ s.count .zero n = 0 ∧
      (¬ r.isTerminal → s.count r.regular n =
        (s.count (s.low r.regular) n + s.count (s.high r.regular) n) / 2) ∧
      s.count r n = (if r.isNegated then 2 ^ n - s.count r.regular n else s.count r.regular n) ∧
      s.count r.regular n ≤ 2 ^ n ∧ s.count r n ≤ 2 ^ n) := by
  obtain ⟨hs, ho⟩ := before.valid_ordered hlimit
  refine ⟨fun v => ho.mem_support_iff hs hr, fun ρ σ => hs.value_congr hr, ?_, ?_⟩
  · intro n hn
    refine ⟨ho.count_eq_two_pow_mul hs hr hn, ?_⟩
    intro e hvisits ht
    obtain ⟨he, hsubset⟩ := hvisits.support_subset ho hs hr
    exact ho.add_counts_eq hs he ht ((Finset.card_le_card hsubset).trans hn)
  · intro n
    exact ⟨s.count_one n, s.count_zero n, fun ht => hs.count_regular hr ht n, hs.count_eq hr n,
      hs.count_le hr.regular n, hs.count_le hr n⟩

/-- The conjunction of the first variable and the negated third one has one model over these two,
and eight among five variables. Among no variables an odd sum is halved, and the count still stays
within the one assignment there is. -/
theorem count_of_separate_variables :
    let s₁ := (Operation.run (.new ⟨none, 10⟩ .stopped) (.literal (-3))).2
    let s₂ := (Operation.run s₁ (.var 1)).2
    let outcome := Operation.run s₂ (.conj (.toNode 3) (-.toNode 2))
    outcome.1 = .ok (-.toNode 4) ∧
    outcome.2.support (-.toNode 4) = {1, 3} ∧
    modelCount (outcome.2.support (-.toNode 4)) (fun ρ => outcome.2.value ρ (-.toNode 4)) = 1 ∧
    outcome.2.count (-.toNode 4) 5 = 8 ∧
    outcome.2.count (outcome.2.low (.toNode 4)) 0 +
      outcome.2.count (outcome.2.high (.toNode 4)) 0 = 1 ∧
    outcome.2.count (-.toNode 4) 0 ≤ 1 := by
  intro s₁ s₂ outcome
  have hoperands : s₂.Has (.toNode 3) ∧ s₂.Has (-.toNode 2) :=
    ⟨⟨by decide, by decide⟩, ⟨by decide, by decide⟩⟩
  have hliteral : (-3 : Int32) ≠ 0 := by decide
  have hvar : 1 ≠ 0 := by decide
  have hcall₁ : OrderedCall (.new ⟨none, 10⟩ .stopped) (.literal (-3)) := ⟨hliteral, trivial⟩
  have hcall₂ : OrderedCall s₁ (.var 1) := ⟨hvar, trivial⟩
  have hcall₃ : OrderedCall s₂ (.conj (.toNode 3) (-.toNode 2)) := ⟨hoperands, trivial⟩
  have hrun : Runs OrderedCall (.new ⟨none, 10⟩ .stopped) outcome.2 :=
    .call (.call (.call .start _ hcall₁) _ hcall₂) _ hcall₃
  have hhas : outcome.2.Has (-.toNode 4) := ⟨by decide, by decide +kernel⟩
  have hsupport : outcome.2.support (-.toNode 4) = {1, 3} := by decide +kernel
  have hcard : (outcome.2.support (-.toNode 4)).card = 2 := by rw [hsupport]; rfl
  have height : outcome.2.count (-.toNode 4) 5 = 8 := by decide +kernel
  obtain ⟨-, -, hexact, hany⟩ := count_of_runs ⟨none, 10⟩ (by decide) .stopped outcome.2 hrun _ hhas
  obtain ⟨hfive, -⟩ := hexact 5 (by omega)
  obtain ⟨-, -, -, -, -, hzero⟩ := hany 0
  rw [height, hcard] at hfive
  exact ⟨by decide +kernel, hsupport, by omega, height, by decide +kernel, hzero⟩

/-- A new edge is counted by what its children count, the high one after the low one. -/
theorem Store.fst_countWithin_node {s : Store} (full fuel : Nat) {e : Edge} (ht : ¬ e.isTerminal)
    {known : Counts} (hknown : known[e]? = none) {low high : Nat} {known' : Counts}
    (hlow : s.countWithin full fuel (s.low e.regular) known = (low, known'))
    (hhigh : (s.countWithin full fuel (s.high e.regular) known').1 = high) :
    (s.countWithin full (fuel + 1) e known).1 =
      if e.isNegated then full - (low + high) / 2 else (low + high) / 2 := by
  have hone : e ≠ .one := fun h => ht (h ▸ rfl)
  have hzero : e ≠ .zero := fun h => ht (h ▸ rfl)
  rw [countWithin, if_neg hzero, if_neg hone, hknown]
  simp only [hlow, hhigh]

/-- The negation of a conjunction of two variables, stored at the least index that does not fit,
is counted as if it were the conjunction. -/
theorem Store.Lists.count_least {s : Store} {limit n : Nat}
    (h : s.Lists limit (variableNodes n ++ [⟨1, .zero, .toNode 3⟩]))
    (hn : n + 2 = 2147483648) : s.count ⟨Int32.minValue⟩ 2 = 1 := by
  have hindex : (⟨Int32.minValue⟩ : Edge).index = n + 2 := hn.symm
  have hnode : s.node ⟨Int32.minValue⟩ = ⟨1, .zero, .toNode 3⟩ := by
    rw [h.node_eq, hindex]
    simp [length_variableNodes]
  have hsecond : s.node (.toNode 3) = ⟨2, .zero, .one⟩ :=
    h.node_variable (List.prefix_append _ _) (i := 1) rfl (by omega)
  have hlow : s.low (⟨Int32.minValue⟩ : Edge).regular = .one := by
    change (s.node ⟨Int32.minValue⟩).low.negateIf true = .one
    rw [hnode]
    rfl
  have hhigh : s.high (⟨Int32.minValue⟩ : Edge).regular = -.toNode 3 := by
    change (s.node ⟨Int32.minValue⟩).high.negateIf true = -.toNode 3
    rw [hnode]
    rfl
  have hlow' : s.low (-.toNode 3 : Edge).regular = .zero := by
    change (s.node (.toNode 3)).low = .zero
    rw [hsecond]
  have hhigh' : s.high (-.toNode 3 : Edge).regular = .one := by
    change (s.node (.toNode 3)).high = .one
    rw [hsecond]
  obtain ⟨m, rfl⟩ : ∃ m, n = m + 1 := ⟨n - 1, by omega⟩
  have hnone : s.countWithin 4 (m + 1) (s.low (-.toNode 3 : Edge).regular) ∅ = (0, ∅) := by
    rw [hlow']
    rfl
  have hall : (s.countWithin 4 (m + 1) (s.high (-.toNode 3 : Edge).regular) ∅).1 = 4 := by
    rw [hhigh']
    rfl
  have hall' : s.countWithin 4 (m + 2) (s.low (⟨Int32.minValue⟩ : Edge).regular) ∅ = (4, ∅) := by
    rw [hlow]
    rfl
  have hhalf : (s.countWithin 4 (m + 2) (s.high (⟨Int32.minValue⟩ : Edge).regular) ∅).1 = 2 := by
    rw [hhigh]
    exact fst_countWithin_node 4 (m + 1) (by decide) Std.TreeMap.getElem?_emptyc hnone hall
  rw [count, hindex]
  exact fst_countWithin_node 4 (m + 2) (by decide) Std.TreeMap.getElem?_emptyc hall' hhalf

/-- With room for one node more, three models of a function of two variables are counted as one. -/
theorem count_wrong_beyond_words :
    ∃ s, Runs OrderedCall (.new ⟨none, 2147483649⟩ .stopped) s ∧ ∃ r, s.Has r ∧
      (∀ v, v ∈ ({1, 2} : Finset Nat) ↔ DependsOn (fun ρ => s.value ρ r) v) ∧
      modelCount {1, 2} (fun ρ => s.value ρ r) = 3 ∧ s.count r 2 = 1 := by
  obtain ⟨s, s', hruns, -, hcall, hconj, hlists, -⟩ :=
    Store.exists_conjunction .stopped (n := 2147483646) (by decide) (Nat.lt_succ_self 2147483648)
  have hafter := (hruns.mono fun _ _ hok => hok.1).call _ hcall
  rw [show Operation.run s (.conj (.toNode 2) (.toNode 3)) = _ from hconj] at hafter
  have hsize := hlists.size_eq
  rw [List.length_append, Store.length_variableNodes, List.length_singleton] at hsize
  have hvalue : (fun ρ => s'.value ρ ⟨Int32.minValue⟩) = fun ρ => !(ρ 1 && ρ 2) := by
    funext ρ
    rw [hlists.value_last (by decide) rfl]
    exact Bool.bne_true _
  refine ⟨s', hafter, ⟨Int32.minValue⟩, ⟨by decide, by rw [hsize]; decide⟩, ?_, ?_,
    hlists.count_least rfl⟩
  · intro v
    rw [hvalue]
    simp only [Finset.mem_insert, Finset.mem_singleton]
    constructor
    · rintro (rfl | rfl)
      · exact ⟨fun _ => true, by decide⟩
      · exact ⟨fun _ => true, by decide⟩
    · rintro ⟨ρ, hρ⟩
      by_contra hv
      rw [not_or] at hv
      apply hρ
      simp [restrict, Function.update, Ne.symm hv.1, Ne.symm hv.2]
  · rw [hvalue]
    decide

end GuardedMachines.Diagram
