import GuardedMachines.Proofs.Diagram.Crowded
import Mathlib.Data.List.Nodup

/-!
The recursion of if-then-else, on every store. Nodes may have been made in any
order of the variables, with a variable that stands again further down, and by
calls that reached a bound. A call goes on to the cofactors of its standard
request, which weigh less than its own operands, so that no chain of calls goes
on for ever; the outcome of the recursion is the one that is computed with the
weight of the operands as fuel; and its edge has the function asked for.
-/

namespace GuardedMachines.Diagram

namespace Store

/-- The first call is made by the second one. An if-then-else that has to be computed calls for
its low cofactors, and for its high ones in the store that the low ones leave. -/
inductive Calls : Store × Triple → Store × Triple → Prop
  | low {s s' : Store} {q t : Triple} {negated : Bool} (asks : Asks s q s' t negated) :
      Calls (s', s'.cofactors t false) (s, q)
  | high {s s' s₀ : Store} {q t : Triple} {negated : Bool} {l : Edge}
      (asks : Asks s q s' t negated) (low : Unfolds s' (s'.cofactors t false) (.ok l, s₀)) :
      Calls (s₀, s'.cofactors t true) (s, q)

variable {s : Store} {q : Triple}

theorem Asks.weight_cofactors_lt {s' : Store} {t : Triple} {negated : Bool}
    (h : Asks s q s' t negated) (hs : s.Valid) (hq : q.Forall s.Has) (b : Bool) :
    (s'.cofactors t b).weight < q.weight :=
  Nat.lt_of_lt_of_le
    ((h.valid hs).weight_cofactors_lt (h.has hs hq) (h.test_not_isTerminal hq) b) (h.weight_le hq)

/-- A call is made on a valid store, about edges of that store, and about less. -/
theorem Calls.descends {s' : Store} {q' : Triple} (h : Calls (s', q') (s, q)) (hs : s.Valid)
    (hq : q.Forall s.Has) : s'.Valid ∧ q'.Forall s'.Has ∧ q'.weight < q.weight := by
  cases h with
  | low asks =>
    have hvalid := asks.valid hs
    exact ⟨hvalid, hvalid.has_cofactors (asks.has hs hq) false,
      asks.weight_cofactors_lt hs hq false⟩
  | high asks low =>
    have hvalid := asks.valid hs
    have hhas := hvalid.has_cofactors (asks.has hs hq)
    have hlow := low.computes hvalid (hhas false)
    exact ⟨hlow.valid, (hhas true).mono fun _ he => hlow.grown.has he,
      asks.weight_cofactors_lt hs hq true⟩

/-- No chain of calls goes on for ever. -/
theorem acc_calls (hs : s.Valid) (hq : q.Forall s.Has) : Acc Calls (s, q) := by
  induction hweight : q.weight using Nat.strongRecOn generalizing s q with
  | ind weight ih =>
    constructor
    rintro ⟨s', q'⟩ hcall
    obtain ⟨hs', hq', hlt⟩ := hcall.descends hs hq
    exact ih q'.weight (hweight ▸ hlt) hs' hq' rfl

theorem exists_fuel {fuel : Nat} (hq : q.Forall s.Has) (hfuel : q.weight ≤ fuel) :
    ∃ n, fuel = n + 1 := by
  have := three_le_weight hq
  exact ⟨fuel - 1, by omega⟩

/-- Whichever way the recursion goes, it ends as the computation with enough fuel does. -/
theorem Unfolds.eq_iteWithin {outcome : Outcome Edge} (h : Unfolds s q outcome) (hs : s.Valid)
    (hq : q.Forall s.Has) {fuel : Nat} (hfuel : q.weight ≤ fuel) :
    outcome = iteWithin fuel s q.test q.onTrue q.onFalse := by
  induction h generalizing fuel with
  | late time =>
    obtain ⟨fuel, rfl⟩ := exists_fuel hq hfuel
    simp only [iteWithin, time]
  | answered inTime request =>
    obtain ⟨fuel, rfl⟩ := exists_fuel hq hfuel
    simp only [iteWithin, inTime, request]
  | remembered inTime request known =>
    obtain ⟨fuel, rfl⟩ := exists_fuel hq hfuel
    simp only [iteWithin, inTime, request, known]
  | lowFails asks low ihlow =>
    obtain ⟨fuel, rfl⟩ := exists_fuel hq hfuel
    obtain ⟨hs₀, hq₀, hlt₀⟩ := (Calls.low asks).descends hs hq
    rw [iteWithin_asks fuel asks, ← ihlow hs₀ hq₀ (by omega)]
  | highFails asks low high ihlow ihhigh =>
    obtain ⟨fuel, rfl⟩ := exists_fuel hq hfuel
    obtain ⟨hs₀, hq₀, hlt₀⟩ := (Calls.low asks).descends hs hq
    obtain ⟨hs₁, hq₁, hlt₁⟩ := (Calls.high asks low).descends hs hq
    rw [iteWithin_asks fuel asks, ← ihlow hs₀ hq₀ (by omega)]
    dsimp only
    rw [← ihhigh hs₁ hq₁ (by omega)]
  | full asks low high node ihlow ihhigh =>
    obtain ⟨fuel, rfl⟩ := exists_fuel hq hfuel
    obtain ⟨hs₀, hq₀, hlt₀⟩ := (Calls.low asks).descends hs hq
    obtain ⟨hs₁, hq₁, hlt₁⟩ := (Calls.high asks low).descends hs hq
    rw [iteWithin_asks fuel asks, ← ihlow hs₀ hq₀ (by omega)]
    dsimp only
    rw [← ihhigh hs₁ hq₁ (by omega)]
    dsimp only
    rw [node]
  | made asks low high node ihlow ihhigh =>
    obtain ⟨fuel, rfl⟩ := exists_fuel hq hfuel
    obtain ⟨hs₀, hq₀, hlt₀⟩ := (Calls.low asks).descends hs hq
    obtain ⟨hs₁, hq₁, hlt₁⟩ := (Calls.high asks low).descends hs hq
    rw [iteWithin_asks fuel asks, ← ihlow hs₀ hq₀ (by omega)]
    dsimp only
    rw [← ihhigh hs₁ hq₁ (by omega)]
    dsimp only
    rw [node]

theorem unfolds_iff {f g h : Edge} (hs : s.Valid) (hf : s.Has f) (hg : s.Has g) (hh : s.Has h)
    (outcome : Outcome Edge) : Unfolds s ⟨f, g, h⟩ outcome ↔ outcome = s.ite f g h := by
  constructor
  · intro hunfolds
    exact hunfolds.eq_iteWithin hs ⟨hf, hg, hh⟩ (Nat.le_refl _)
  · rintro rfl
    exact unfolds_ite hs hf hg hh

/-- A literal other than zero is true where its variable has the sign of the literal. -/
theorem literalValue_eq (ρ : Nat → Bool) {l : Int32} (hl : l ≠ 0) :
    literalValue ρ l = (ρ (Word.magnitude l) == decide (0 < l)) := by
  have hne : l.toInt ≠ 0 := fun h => hl (Int32.toInt_inj.mp h)
  have hpos : 0 < l ↔ ¬ l < 0 := by
    rw [Int32.lt_iff_toInt_lt, Int32.lt_iff_toInt_lt, show (0 : Int32).toInt = 0 from rfl]
    omega
  unfold literalValue
  by_cases hneg : l < 0
  · simp [hneg, hpos]
  · simp [hneg, hpos]

end Store

/-- If-then-else on every store that a run leaves, whatever the order of the variables in its
nodes, where the bound on the nodes leaves every index room beside the sign of an edge. The
function of an edge is got by following the children of its node, and changes with its sign. The
recursion is well founded, it ends in one way only, and where it answers, the answer has the
function asked for and all edges keep theirs. A clause is the disjunction of its literals, whether
or not they are repeated or contradict each other. -/
theorem ite_of_runs (limits : Limits) (hlimit : limits.nodeLimit ≤ 2147483648) (clock : Clock)
    (s : Store) (before : Runs (fun s op => op.Allowed s) (.new limits clock) s) :
    (∀ ρ, s.value ρ .one = true) ∧
    (∀ e, s.Has e → ∀ ρ, s.value ρ (-e) = !s.value ρ e) ∧
    (∀ e, s.Has e → ¬ e.isTerminal → ∀ ρ,
      s.value ρ e = s.value ρ (if ρ (s.var e) then s.high e else s.low e)) ∧
    (∀ f g h, s.Has f → s.Has g → s.Has h →
      Acc Store.Calls (s, ⟨f, g, h⟩) ∧
      (∀ outcome, Store.Unfolds s ⟨f, g, h⟩ outcome ↔ outcome = s.ite f g h) ∧
      (∀ r, (s.ite f g h).1 = .ok r → (s.ite f g h).2.Has r ∧ ∀ ρ,
        (s.ite f g h).2.value ρ r = if s.value ρ f then s.value ρ g else s.value ρ h) ∧
      ∀ e, s.Has e → ∀ ρ, (s.ite f g h).2.value ρ e = s.value ρ e) ∧
    (∀ literals : List Int32, (∀ l ∈ literals, l ≠ 0) →
      ∀ r, (s.clause literals).1 = .ok r → ∀ ρ, (s.clause literals).2.value ρ r =
        literals.any fun l => ρ (Word.magnitude l) == decide (0 < l)) := by
  obtain ⟨hs, -⟩ := before.valid_grown (fun _ _ hcall => hcall) (Store.new_valid hlimit clock)
  refine ⟨s.value_one, fun e he ρ => hs.value_neg ρ he, fun e he ht ρ => hs.value_child ρ he ht,
    ?_, ?_⟩
  · intro f g h hf hg hh
    have hite := hs.ite hf hg hh
    refine ⟨Store.acc_calls hs ⟨hf, hg, hh⟩, Store.unfolds_iff hs hf hg hh, ?_, ?_⟩
    · exact fun r hr => ⟨hite.has r hr, hite.value r hr⟩
    · exact fun e he ρ => hite.grown.value_eq hs.toLayered ρ he
  · intro literals hliterals r hr ρ
    rw [(hs.clause literals).value r hr ρ, Bool.eq_iff_iff, List.any_eq_true, List.any_eq_true]
    refine exists_congr fun l => and_congr_right fun hl => ?_
    rw [Store.literalValue_eq ρ (hliterals l hl)]

/-- The fifth variable is put above the first one, and above itself. An if-then-else of the three
nodes still has the function that they give it, and a clause may contradict itself. -/
theorem ite_of_unordered_nodes :
    let s₁ := (Operation.run (.new ⟨none, 10⟩ .stopped) (.var 1)).2
    let s₂ := (Operation.run s₁ (.node 5 (.toNode 2) .one)).2
    let s₃ := (Operation.run s₂ (.node 5 (-.toNode 3) (.toNode 2))).2
    let outcome := s₃.ite (.toNode 3) (.toNode 4) (-.toNode 2)
    ¬ Operation.InOrder s₁ (.node 5 (.toNode 2) .one) ∧
    ¬ Operation.InOrder s₂ (.node 5 (-.toNode 3) (.toNode 2)) ∧
    outcome.1 = .ok (.toNode 9) ∧
    (∀ ρ, outcome.2.value ρ (.toNode 9) =
      if s₃.value ρ (.toNode 3) then s₃.value ρ (.toNode 4) else !s₃.value ρ (.toNode 2)) ∧
    (∀ ρ, (s₃.clause [1, 1, -1]).2.value ρ .one = true) := by
  intro s₁ s₂ s₃ outcome
  have hcall₁ : Operation.Allowed (.new ⟨none, 10⟩ .stopped) (.var 1) := Nat.succ_ne_zero 0
  have hcall₂ : Operation.Allowed s₁ (.node 5 (.toNode 2) .one) :=
    ⟨Nat.succ_ne_zero 4, ⟨by decide, by decide⟩, ⟨by decide, by decide⟩⟩
  have hcall₃ : Operation.Allowed s₂ (.node 5 (-.toNode 3) (.toNode 2)) :=
    ⟨Nat.succ_ne_zero 4, ⟨by decide, by decide⟩, ⟨by decide, by decide⟩⟩
  have hf : s₃.Has (.toNode 3) := ⟨by decide, by decide⟩
  have hg : s₃.Has (.toNode 4) := ⟨by decide, by decide⟩
  have hh : s₃.Has (.toNode 2) := ⟨by decide, by decide⟩
  obtain ⟨-, hneg, -, hite, hclause⟩ := ite_of_runs ⟨none, 10⟩ (by decide) .stopped s₃
    (.call (.call (.call .start _ hcall₁) _ hcall₂) _ hcall₃)
  obtain ⟨-, -, hvalue, -⟩ := hite _ _ _ hf hg hh.neg
  have hanswer : outcome.1 = .ok (.toNode 9) := by decide +kernel
  have hliterals : ∀ l ∈ [(1 : Int32), 1, -1], l ≠ 0 := by
    simp only [List.forall_mem_cons]
    exact ⟨by decide, by decide, by decide, nofun⟩
  refine ⟨?_, ?_, hanswer, ?_, ?_⟩
  · rintro ⟨hterminal | hlt, -⟩
    · exact absurd hterminal (by decide)
    · exact absurd hlt (by decide)
  · rintro ⟨hterminal | hlt, -⟩
    · exact absurd hterminal (by decide)
    · exact absurd hlt (by decide)
  · intro ρ
    rw [(hvalue _ hanswer).2 ρ, hneg _ hh ρ]
  · intro ρ
    rw [hclause [1, 1, -1] hliterals .one (by decide +kernel) ρ]
    show (ρ 1 == true || (ρ 1 == true || (ρ 1 == false || false))) = true
    cases ρ 1 <;> rfl

/-- With room for one node more, the clause of one variable is false where that variable is true. -/
theorem clause_negated_beyond_words :
    ∃ s, Runs (fun s op => op.Allowed s) (.new ⟨none, 2147483649⟩ .stopped) s ∧
      ∃ (literals : List Int32) (r : Edge) (ρ : Nat → Bool), (∀ l ∈ literals, l ≠ 0) ∧
        (s.clause literals).1 = .ok r ∧ (s.clause literals).2.value ρ r ≠
          literals.any fun l => ρ (Word.magnitude l) == decide (0 < l) := by
  obtain ⟨s, s', hruns, hmade, -, hlists⟩ :=
    Store.exists_next_variable .stopped (n := 2147483646) (Nat.lt_succ_self 2147483648)
  have hliteral : s.mkLiteral 2147483647 = (.ok ⟨Int32.minValue⟩, s') := by
    unfold Store.mkLiteral
    rw [show Word.magnitude 2147483647 = 2147483646 + 1 from rfl, hmade]
    rfl
  have hclause : s.clause [2147483647] = (.ok ⟨Int32.minValue⟩, s') := by
    simp only [Store.clause, Store.clauseFrom, hliteral, hlists.disj_zero]
  refine ⟨s, hruns.mono fun _ _ hok => hok.1.1, [2147483647], ⟨Int32.minValue⟩, fun _ => true, ?_,
    congrArg Prod.fst hclause, ?_⟩
  · rw [List.forall_mem_singleton]
    decide
  · have hvalue := hlists.value_variable (List.prefix_refl _) (e := ⟨Int32.minValue⟩)
      (i := 2147483646) rfl (Nat.lt_succ_self _) fun _ => true
    rw [hclause, hvalue]
    decide

end GuardedMachines.Diagram
