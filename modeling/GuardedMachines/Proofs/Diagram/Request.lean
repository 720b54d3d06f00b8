import GuardedMachines.Proofs.Diagram.Validity

/-!
Requests in standard form. Bringing the operands of an if-then-else to standard
form keeps its value up to the recorded sign, uses no edges but the operands,
their negations and the constants, and does not make the operands larger. The
test of a request that has to be computed is not constant.
-/

namespace GuardedMachines.Diagram

def Triple.weight (t : Triple) : Nat := t.test.index + t.onTrue.index + t.onFalse.index

namespace Request

def Forall (P : Edge → Prop) : Request → Prop
  | answer e => P e
  | compute t _ => t.Forall P

def holds (value : Edge → Bool) : Request → Bool
  | answer e => value e
  | compute t negated => t.holds value != negated

theorem standard_eq (f g h : Edge) :
    standard f g h =
      if f.isNegated then
        if h.isNegated then compute ⟨-f, -h, -g⟩ true else compute ⟨-f, h, g⟩ false
      else
        if g.isNegated then compute ⟨f, -g, -h⟩ true else compute ⟨f, g, h⟩ false := by
  unfold standard
  cases f.isNegated <;> rfl

def positiveBranch (f g : Edge) : Edge := if g = f then .one else if g = -f then .zero else g

def negativeBranch (f h : Edge) : Edge := if h = f then .zero else if h = -f then .one else h

/-- A request is answered at once, answered with its branches simplified, or computed. -/
theorem ofEdges_cases (f g h : Edge) :
    (∃ e, immediate? f g h = some e ∧ ofEdges f g h = answer e) ∨
      immediate? f g h = none ∧
        ((∃ e, immediate? f (positiveBranch f g) (negativeBranch f h) = some e ∧
          ofEdges f g h = answer e) ∨
          ofEdges f g h = standard f (positiveBranch f g) (negativeBranch f h)) := by
  unfold ofEdges
  cases immediate? f g h with
  | some e => exact Or.inl ⟨e, rfl, rfl⟩
  | none =>
    refine Or.inr ⟨rfl, ?_⟩
    unfold positiveBranch negativeBranch
    dsimp only
    cases immediate? f (if g = f then .one else if g = -f then .zero else g)
        (if h = f then .zero else if h = -f then .one else h) with
    | some e => exact Or.inl ⟨e, rfl, rfl⟩
    | none => exact Or.inr rfl

section Closed

variable {P : Edge → Prop} (hone : P .one) (hneg : ∀ e, P e → P (-e))

include hneg

theorem standard_forall {f g h : Edge} (hf : P f) (hg : P g) (hh : P h) :
    (standard f g h).Forall P := by
  rw [standard_eq]
  split
  · split
    · exact ⟨hneg f hf, hneg h hh, hneg g hg⟩
    · exact ⟨hneg f hf, hh, hg⟩
  · split
    · exact ⟨hf, hneg g hg, hneg h hh⟩
    · exact ⟨hf, hg, hh⟩

theorem immediate?_has {f g h e : Edge} (hf : P f) (hg : P g) (hh : P h)
    (himmediate : immediate? f g h = some e) : P e := by
  have hnf := hneg f hf
  unfold immediate? at himmediate
  grind

include hone

theorem positiveBranch_has (f : Edge) {g : Edge} (hg : P g) : P (positiveBranch f g) := by
  have hzero : P .zero := hneg .one hone
  unfold positiveBranch
  split
  · exact hone
  · split
    · exact hzero
    · exact hg

theorem negativeBranch_has (f : Edge) {h : Edge} (hh : P h) : P (negativeBranch f h) := by
  have hzero : P .zero := hneg .one hone
  unfold negativeBranch
  split
  · exact hzero
  · split
    · exact hone
    · exact hh

/-- A request mentions the operands, their negations and the constants only. -/
theorem ofEdges_forall {f g h : Edge} (hf : P f) (hg : P g) (hh : P h) :
    (ofEdges f g h).Forall P := by
  have hg' := positiveBranch_has hone hneg f hg
  have hh' := negativeBranch_has hone hneg f hh
  rcases ofEdges_cases f g h with ⟨e, himmediate, heq⟩ | ⟨-, ⟨e, himmediate, heq⟩ | heq⟩
  · rw [heq]
    exact immediate?_has hneg hf hg hh himmediate
  · rw [heq]
    exact immediate?_has hneg hf hg' hh' himmediate
  · rw [heq]
    exact standard_forall hneg hf hg' hh'

end Closed

section Values

variable {s : Store} (hs : s.Layered) (ρ : Nat → Bool)

include hs

theorem immediate?_value {f g h e : Edge} (hf : s.Has f)
    (himmediate : immediate? f g h = some e) :
    s.value ρ e = Triple.holds (s.value ρ) ⟨f, g, h⟩ := by
  have hnf := hs.value_neg ρ hf
  have hone := s.value_one ρ
  have hzero := s.value_zero ρ
  unfold immediate? at himmediate
  unfold Triple.holds
  grind

theorem holds_branches {f g h : Edge} (hf : s.Has f) :
    Triple.holds (s.value ρ) ⟨f, positiveBranch f g, negativeBranch f h⟩ =
      Triple.holds (s.value ρ) ⟨f, g, h⟩ := by
  have hnf := hs.value_neg ρ hf
  have hone := s.value_one ρ
  have hzero := s.value_zero ρ
  unfold Triple.holds positiveBranch negativeBranch
  grind

theorem standard_holds {f g h : Edge} (hf : s.Has f) (hg : s.Has g) (hh : s.Has h) :
    (standard f g h).holds (s.value ρ) = Triple.holds (s.value ρ) ⟨f, g, h⟩ := by
  have hnf := hs.value_neg ρ hf
  have hng := hs.value_neg ρ hg
  have hnh := hs.value_neg ρ hh
  rw [standard_eq]
  split <;> split <;> cases hvalue : s.value ρ f <;>
    simp [holds, Triple.holds, hnf, hng, hnh, hvalue]

/-- The standard form of a request keeps its value. -/
theorem ofEdges_holds {f g h : Edge} (hf : s.Has f) (hg : s.Has g) (hh : s.Has h) :
    (ofEdges f g h).holds (s.value ρ) = Triple.holds (s.value ρ) ⟨f, g, h⟩ := by
  have hneg : ∀ e, s.Has e → s.Has (-e) := fun _ he => he.neg
  have hbranches := holds_branches hs ρ (g := g) (h := h) hf
  rcases ofEdges_cases f g h with ⟨e, himmediate, heq⟩ | ⟨-, ⟨e, himmediate, heq⟩ | heq⟩
  · rw [heq]
    exact immediate?_value hs ρ hf himmediate
  · rw [heq]
    exact (immediate?_value hs ρ hf himmediate).trans hbranches
  · rw [heq]
    exact (standard_holds hs ρ hf (positiveBranch_has hs.has_one hneg f hg)
      (negativeBranch_has hs.has_one hneg f hh)).trans hbranches

end Values

theorem not_isTerminal_of_immediate? {f g h : Edge} (himmediate : immediate? f g h = none) :
    ¬ f.isTerminal := by
  intro hf
  rcases f.eq_one_or_zero hf with rfl | rfl
  · simp [immediate?] at himmediate
  · have hne : Edge.zero ≠ Edge.one := by decide
    simp [immediate?, hne] at himmediate

theorem standard_weight {f g h : Edge} {t : Triple} {negated : Bool}
    (heq : standard f g h = compute t negated) :
    t.test.index = f.index ∧ t.weight = f.index + g.index + h.index := by
  rw [standard_eq] at heq
  split at heq <;> split at heq <;> cases heq <;> simp [Triple.weight] <;> omega

theorem index_positiveBranch_le (f : Edge) {g : Edge} (hg : 1 ≤ g.index) :
    (positiveBranch f g).index ≤ g.index := by
  unfold positiveBranch
  split
  · simpa using hg
  · split
    · simpa using hg
    · exact Nat.le_refl _

theorem index_negativeBranch_le (f : Edge) {h : Edge} (hh : 1 ≤ h.index) :
    (negativeBranch f h).index ≤ h.index := by
  unfold negativeBranch
  split
  · simpa using hh
  · split
    · simpa using hh
    · exact Nat.le_refl _

/-- A request that has to be computed is not about a constant, nor about larger operands. -/
theorem ofEdges_compute {f g h : Edge} {t : Triple} {negated : Bool} (hg : 1 ≤ g.index)
    (hh : 1 ≤ h.index) (heq : ofEdges f g h = compute t negated) :
    ¬ t.test.isTerminal ∧ t.weight ≤ f.index + g.index + h.index := by
  rcases ofEdges_cases f g h with ⟨e, -, hanswer⟩ | ⟨hnone, ⟨e, -, hanswer⟩ | hstandard⟩
  · rw [hanswer] at heq
    cases heq
  · rw [hanswer] at heq
    cases heq
  · have hf := not_isTerminal_of_immediate? hnone
    obtain ⟨htest, hweight⟩ := standard_weight (hstandard.symm.trans heq)
    have hg' := index_positiveBranch_le f hg
    have hh' := index_negativeBranch_le f hh
    refine ⟨?_, by omega⟩
    rw [Edge.isTerminal_iff, htest, ← Edge.isTerminal_iff]
    exact hf

end Request

end GuardedMachines.Diagram
