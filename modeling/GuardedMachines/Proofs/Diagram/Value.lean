import GuardedMachines.Diagram.Ite

/-!
The Boolean function of an edge. An edge is followed from its node to the high
or to the low child, as the variable of the node says, until the terminal is
reached; a negated edge has the opposite value. Children have smaller indices
than their parents, so the index of an edge bounds the way. A store that grows
by appending keeps the function of every edge it has.
-/

namespace GuardedMachines.Diagram

namespace Edge

@[simp] theorem index_one : one.index = 1 := rfl

@[simp] theorem index_zero : zero.index = 1 := rfl

@[simp] theorem isTerminal_neg (e : Edge) : (-e).isTerminal = e.isTerminal := by
  simp only [isTerminal, index_neg]

@[simp] theorem index_negateIf (e : Edge) (b : Bool) : (e.negateIf b).index = e.index := by
  cases b <;> simp [negateIf]

/-- Negation changes the sign of every word but zero and the least. -/
theorem isNegated_neg {e : Edge} (h : e.index ≠ 0) (hlt : e.index < 2147483648) :
    (-e).isNegated = !e.isNegated := by
  have hneg : (-e).code.toInt = -e.code.toInt := Word.toInt_neg_of_ne (code_ne_minValue hlt)
  have hcode : e.code.toInt ≠ 0 := fun hzero => h (Int.natAbs_eq_zero.mpr hzero)
  rw [isNegated_eq, isNegated_eq, hneg, ← decide_not]
  exact decide_eq_decide.mpr ⟨fun _ => by omega, fun _ => by omega⟩

theorem isTerminal_iff (e : Edge) : e.isTerminal = true ↔ e.index = 1 := by
  simp [isTerminal]

theorem eq_one_or_zero (e : Edge) (h : e.isTerminal) : e = one ∨ e = zero := by
  obtain ⟨code⟩ := e
  have hindex : code.toInt.natAbs = 1 := (isTerminal_iff _).mp h
  rcases Int.natAbs_eq_iff.mp hindex with hcode | hcode
  · exact Or.inl (congrArg Edge.mk (Int32.toInt_inj.mp hcode))
  · exact Or.inr (congrArg Edge.mk (Int32.toInt_inj.mp hcode))

end Edge

namespace Triple

def Forall (P : Edge → Prop) (t : Triple) : Prop := P t.test ∧ P t.onTrue ∧ P t.onFalse

def holds (value : Edge → Bool) (t : Triple) : Bool :=
  if value t.test then value t.onTrue else value t.onFalse

theorem Forall.mono {P Q : Edge → Prop} {t : Triple} (h : t.Forall P) (hPQ : ∀ e, P e → Q e) :
    t.Forall Q :=
  ⟨hPQ _ h.1, hPQ _ h.2.1, hPQ _ h.2.2⟩

theorem holds_congr {φ ψ : Edge → Bool} {t : Triple} (h : t.Forall fun e => φ e = ψ e) :
    t.holds φ = t.holds ψ := by
  obtain ⟨htest, htrue, hfalse⟩ := h
  simp only [holds, htest, htrue, hfalse]

end Triple

structure Node.Proper (n : Node) (index : Nat) : Prop where
  high_regular : n.high.isNegated = false
  low_ne_high : n.low ≠ n.high
  low_pos : 1 ≤ n.low.index
  low_lt : n.low.index < index
  high_pos : 1 ≤ n.high.index
  high_lt : n.high.index < index

namespace Store

def Has (s : Store) (e : Edge) : Prop := 1 ≤ e.index ∧ e.index < s.nodes.size

def child (s : Store) (b : Bool) (e : Edge) : Edge := if b then s.high e else s.low e

def valueWithin (s : Store) (ρ : Nat → Bool) : Nat → Edge → Bool
  | 0, e => !e.isNegated
  | fuel + 1, e =>
    if e.isTerminal then !e.isNegated
    else s.valueWithin ρ fuel (s.child (ρ (s.var e)) e)

theorem valueWithin_child (s : Store) (ρ : Nat → Bool) (fuel : Nat) {e : Edge}
    (ht : ¬ e.isTerminal) :
    s.valueWithin ρ (fuel + 1) e = s.valueWithin ρ fuel (s.child (ρ (s.var e)) e) := by
  rw [valueWithin, if_neg ht]

def value (s : Store) (ρ : Nat → Bool) (e : Edge) : Bool := s.valueWithin ρ e.index e

/-- Every node is proper and all indices fit into edges; the tables are not looked at. -/
structure Layered (s : Store) : Prop where
  size_ge : 2 ≤ s.nodes.size
  size_word : s.nodes.size ≤ 2147483648
  proper : ∀ i n, 2 ≤ i → s.nodes[i]? = some n → n.Proper i

theorem has_neg (s : Store) (e : Edge) : s.Has (-e) ↔ s.Has e := by
  simp only [Has, Edge.index_neg]

theorem Has.neg {s : Store} {e : Edge} (h : s.Has e) : s.Has (-e) := (s.has_neg e).mpr h

theorem Has.negateIf {s : Store} {e : Edge} (h : s.Has e) (b : Bool) : s.Has (e.negateIf b) := by
  simpa only [Has, Edge.index_negateIf] using h

theorem Has.index_ne_zero {s : Store} {e : Edge} (h : s.Has e) : e.index ≠ 0 := by
  have := h.1
  omega

theorem Has.two_le {s : Store} {e : Edge} (h : s.Has e) (ht : ¬ e.isTerminal) : 2 ≤ e.index := by
  have hne : e.index ≠ 1 := fun hone => ht ((Edge.isTerminal_iff e).mpr hone)
  have := h.1
  omega

theorem node_eq (s : Store) {e : Edge} (h : s.Has e) : s.nodes[e.index]? = some (s.node e) := by
  have hlt := h.2
  simp [node, Array.getD_eq_getD_getElem?, hlt]

namespace Layered

variable {s : Store} {e : Edge}

theorem has_one (hs : s.Layered) : s.Has .one := by
  have := hs.size_ge
  exact ⟨by simp, by simp; omega⟩

theorem has_zero (hs : s.Layered) : s.Has .zero := hs.has_one.neg

theorem index_lt (hs : s.Layered) (he : s.Has e) : e.index < 2147483648 :=
  Nat.lt_of_lt_of_le he.2 hs.size_word

theorem isNegated_neg (hs : s.Layered) (he : s.Has e) : (-e).isNegated = !e.isNegated :=
  Edge.isNegated_neg he.index_ne_zero (hs.index_lt he)

theorem node_proper (hs : s.Layered) (he : s.Has e) (ht : ¬ e.isTerminal) :
    (s.node e).Proper e.index :=
  hs.proper e.index _ (he.two_le ht) (s.node_eq he)

theorem has_child (hs : s.Layered) (he : s.Has e) (ht : ¬ e.isTerminal) (b : Bool) :
    s.Has (s.child b e) := by
  have hn := hs.node_proper he ht
  have hlt := he.2
  cases b with
  | false => exact Has.negateIf ⟨hn.low_pos, Nat.lt_trans hn.low_lt hlt⟩ _
  | true => exact Has.negateIf ⟨hn.high_pos, Nat.lt_trans hn.high_lt hlt⟩ _

theorem index_child_lt (hs : s.Layered) (he : s.Has e) (ht : ¬ e.isTerminal) (b : Bool) :
    (s.child b e).index < e.index := by
  have hn := hs.node_proper he ht
  cases b with
  | false => simpa [child, low] using hn.low_lt
  | true => simpa [child, high] using hn.high_lt

/-- More fuel than the index does not change the value. -/
theorem valueWithin_succ (hs : s.Layered) (ρ : Nat → Bool) (fuel : Nat) (he : s.Has e)
    (hfuel : e.index ≤ fuel + 1) :
    s.valueWithin ρ (fuel + 1) e = s.valueWithin ρ fuel e := by
  induction fuel generalizing e with
  | zero =>
    have hpos := he.1
    have ht : e.isTerminal := (Edge.isTerminal_iff e).mpr (by omega)
    simp [valueWithin, ht]
  | succ fuel ih =>
    by_cases ht : e.isTerminal
    · simp [valueWithin, ht]
    · have hlt := hs.index_child_lt he ht (ρ (s.var e))
      have hchild := ih (hs.has_child he ht (ρ (s.var e))) (by omega)
      rw [s.valueWithin_child ρ _ ht, s.valueWithin_child ρ _ ht]
      exact hchild

theorem valueWithin_of_le (hs : s.Layered) (ρ : Nat → Bool) {fuel : Nat} (he : s.Has e)
    (hfuel : e.index ≤ fuel) : s.valueWithin ρ fuel e = s.value ρ e := by
  induction hfuel with
  | refl => rfl
  | @step fuel hle ih => exact (hs.valueWithin_succ ρ fuel he (Nat.le_succ_of_le hle)).trans ih

/-- Where an edge does not end, its variable chooses the child that has its value. -/
theorem value_child (hs : s.Layered) (ρ : Nat → Bool) (he : s.Has e) (ht : ¬ e.isTerminal) :
    s.value ρ e = s.value ρ (s.child (ρ (s.var e)) e) := by
  have hlt := hs.index_child_lt he ht (ρ (s.var e))
  have hpos : e.index = (e.index - 1) + 1 := by omega
  have hchild : s.valueWithin ρ (e.index - 1) (s.child (ρ (s.var e)) e) =
      s.value ρ (s.child (ρ (s.var e)) e) :=
    hs.valueWithin_of_le ρ (hs.has_child he ht _) (by omega)
  rw [value, hpos, s.valueWithin_child ρ _ ht]
  exact hchild

end Layered

theorem valueWithin_of_isTerminal (s : Store) (ρ : Nat → Bool) (fuel : Nat) {e : Edge}
    (ht : e.isTerminal) : s.valueWithin ρ fuel e = !e.isNegated := by
  cases fuel with
  | zero => rfl
  | succ fuel => rw [valueWithin, if_pos ht]

theorem value_of_isTerminal (s : Store) (ρ : Nat → Bool) {e : Edge} (ht : e.isTerminal) :
    s.value ρ e = !e.isNegated :=
  s.valueWithin_of_isTerminal ρ e.index ht

@[simp] theorem value_one (s : Store) (ρ : Nat → Bool) : s.value ρ .one = true :=
  s.value_of_isTerminal ρ rfl

@[simp] theorem value_zero (s : Store) (ρ : Nat → Bool) : s.value ρ .zero = false :=
  s.value_of_isTerminal ρ rfl

theorem Layered.child_neg {s : Store} (hs : s.Layered) {e : Edge} (he : s.Has e) (b : Bool) :
    s.child b (-e) = -s.child b e := by
  have hnode : s.node (-e) = s.node e := by simp only [node, Edge.index_neg]
  have hsign := hs.isNegated_neg he
  cases b <;> cases hneg : e.isNegated <;>
    simp [child, low, high, hnode, hsign, hneg, Edge.negateIf]

theorem var_neg (s : Store) (e : Edge) : s.var (-e) = s.var e := by
  simp only [var, node, Edge.index_neg]

theorem Layered.valueWithin_neg {s : Store} (hs : s.Layered) (ρ : Nat → Bool) (fuel : Nat)
    {e : Edge} (he : s.Has e) : s.valueWithin ρ fuel (-e) = !s.valueWithin ρ fuel e := by
  induction fuel generalizing e with
  | zero => simp [valueWithin, hs.isNegated_neg he]
  | succ fuel ih =>
    by_cases ht : e.isTerminal
    · simp [valueWithin, ht, hs.isNegated_neg he]
    · have hchild := ih (hs.has_child he ht (ρ (s.var e)))
      rw [s.valueWithin_child ρ _ (by simpa using ht), s.valueWithin_child ρ _ ht, s.var_neg e,
        hs.child_neg he]
      exact hchild

/-- A negated edge has the opposite value. -/
theorem Layered.value_neg {s : Store} (hs : s.Layered) (ρ : Nat → Bool) {e : Edge}
    (he : s.Has e) : s.value ρ (-e) = !s.value ρ e := by
  rw [value, Edge.index_neg]
  exact hs.valueWithin_neg ρ e.index he

theorem Layered.value_negateIf {s : Store} (hs : s.Layered) (ρ : Nat → Bool) {e : Edge}
    (he : s.Has e) (b : Bool) : s.value ρ (e.negateIf b) = (s.value ρ e != b) := by
  cases b with
  | false => simp [Edge.negateIf]
  | true => simpa [Edge.negateIf] using hs.value_neg ρ he

structure Extends (s s' : Store) : Prop where
  limits : s'.limits = s.limits
  nodes : s.nodes.toList <+: s'.nodes.toList

namespace Extends

variable {s s' s'' : Store} {e : Edge}

theorem refl (s : Store) : s.Extends s := ⟨rfl, List.prefix_refl _⟩

theorem trans (h : s.Extends s') (h' : s'.Extends s'') : s.Extends s'' :=
  ⟨h'.limits.trans h.limits, h.nodes.trans h'.nodes⟩

theorem size_le (h : s.Extends s') : s.nodes.size ≤ s'.nodes.size := by
  simpa using h.nodes.length_le

theorem getElem?_eq (h : s.Extends s') {i : Nat} (hi : i < s.nodes.size) :
    s'.nodes[i]? = s.nodes[i]? := by
  obtain ⟨tail, htail⟩ := h.nodes
  have hlist : s'.nodes.toList[i]? = s.nodes.toList[i]? := by
    rw [← htail]
    exact List.getElem?_append_left (by simpa using hi)
  simpa only [Array.getElem?_toList] using hlist

theorem has (h : s.Extends s') (he : s.Has e) : s'.Has e :=
  ⟨he.1, Nat.lt_of_lt_of_le he.2 h.size_le⟩

theorem node_eq (h : s.Extends s') (he : s.Has e) : s'.node e = s.node e := by
  have hget := h.getElem?_eq he.2
  simp only [node, Array.getD_eq_getD_getElem?, hget]

theorem var_eq (h : s.Extends s') (he : s.Has e) : s'.var e = s.var e := by
  simp only [var, h.node_eq he]

theorem child_eq (h : s.Extends s') (he : s.Has e) (b : Bool) : s'.child b e = s.child b e := by
  simp only [child, low, high, h.node_eq he]

theorem valueWithin_eq (h : s.Extends s') (hs : s.Layered) (ρ : Nat → Bool) (fuel : Nat)
    (he : s.Has e) : s'.valueWithin ρ fuel e = s.valueWithin ρ fuel e := by
  induction fuel generalizing e with
  | zero => rfl
  | succ fuel ih =>
    by_cases ht : e.isTerminal
    · simp [valueWithin, ht]
    · rw [s'.valueWithin_child ρ _ ht, s.valueWithin_child ρ _ ht, h.var_eq he, h.child_eq he]
      exact ih (hs.has_child he ht _)

/-- Growing keeps the function of every edge. -/
theorem value_eq (h : s.Extends s') (hs : s.Layered) (ρ : Nat → Bool) (he : s.Has e) :
    s'.value ρ e = s.value ρ e :=
  h.valueWithin_eq hs ρ e.index he

theorem holds_eq (h : s.Extends s') (hs : s.Layered) (ρ : Nat → Bool) {t : Triple}
    (ht : t.Forall s.Has) : t.holds (s'.value ρ) = t.holds (s.value ρ) :=
  Triple.holds_congr (ht.mono fun _ he => h.value_eq hs ρ he)

end Extends

end Store

end GuardedMachines.Diagram
