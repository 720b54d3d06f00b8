import GuardedMachines.Proofs.Diagram.Crowded

/-!
The representation of a store over whole runs. Nodes are proper, ordered and stored
once, the tables agree with them, and edges keep their functions. An index beyond
the words takes this away: the least word is remembered for a conjunction, and has
the function of its negation.
-/

namespace GuardedMachines.Diagram

/-- The representation of a store over whole runs, calls that reached a bound included, where
the bound on the nodes leaves every index room beside the sign of an edge. The first store is
any one that a run leaves and the second any one that it leaves later. -/
theorem representation_of_runs (limits : Limits) (hlimit : limits.nodeLimit ≤ 2147483648)
    (clock : Clock) (s s' : Store) (before : Runs OrderedCall (.new limits clock) s)
    (later : Runs OrderedCall s s') :
    (∀ i n, 2 ≤ i → s.nodes[i]? = some n →
      n.high.isNegated = false ∧ n.low ≠ n.high ∧
      (1 ≤ n.low.index ∧ n.low.index < i) ∧ (1 ≤ n.high.index ∧ n.high.index < i) ∧
      (n.low.isTerminal ∨ n.var < s.var n.low) ∧ (n.high.isTerminal ∨ n.var < s.var n.high)) ∧
    (∀ i j n, 2 ≤ i → 2 ≤ j → s.nodes[i]? = some n → s.nodes[j]? = some n → i = j) ∧
    (∀ n (i : UInt32), s.unique[n]? = some i ↔ 2 ≤ i.toNat ∧ s.nodes[i.toNat]? = some n) ∧
    (∀ i n, 2 ≤ i → s.nodes[i]? = some n → s.unique[n]? = some (.ofNat i)) ∧
    (∀ (t : Triple) (r : Edge), s.computed[t]? = some r → ∀ ρ,
      s.value ρ r = if s.value ρ t.test then s.value ρ t.onTrue else s.value ρ t.onFalse) ∧
    s.nodes.size ≤ max 2 limits.nodeLimit ∧
    s.nodes.toList <+: s'.nodes.toList ∧
    (∀ e, s.Has e → e.negateChecked = .ok (-e) ∧ e.regularChecked = .ok e.regular) ∧
    (∀ op r, OrderedCall s op → (op.run s).1 = .ok r → (op.run s).2.Has r) ∧
    (∀ e, s.Has e → ∀ ρ, s'.value ρ e = s.value ρ e) := by
  have hallowed : ∀ s op, OrderedCall s op → op.Allowed s := fun _ _ hcall => hcall.1
  have hnew := Store.new_valid hlimit clock
  obtain ⟨hvalid, hgrown⟩ := before.valid_grown hallowed hnew
  have hordered := before.ordered hnew (Store.new_ordered limits clock _)
  obtain ⟨-, hlater⟩ := later.valid_grown hallowed hvalid
  refine ⟨?_, ?_, hvalid.unique_iff, fun i n => hvalid.unique_ofNat, hvalid.computed_value, ?_,
    hlater.nodes, ?_, ?_, ?_⟩
  · intro i n hi hn
    have hproper := hvalid.proper i n hi hn
    exact ⟨hproper.high_regular, hproper.low_ne_high, ⟨hproper.low_pos, hproper.low_lt⟩,
      ⟨hproper.high_pos, hproper.high_lt⟩, hordered.children i n hi hn⟩
  · intro i j n hi hj hni hnj
    exact hvalid.index_unique hi hj hni hnj
  · have hlimits : s.limits = limits := hgrown.limits
    rw [← hlimits]
    exact hvalid.size_le
  · intro e he
    have hlt := hvalid.index_lt he
    exact ⟨Edge.negateChecked_eq hlt, Edge.regularChecked_eq hlt⟩
  · intro op r hcall hr
    obtain ⟨φ, hcomputes⟩ := Operation.run_computes hvalid hcall.1
    exact hcomputes.has r hr
  · intro e he ρ
    exact hlater.value_eq hvalid.toLayered ρ he

/-- With room for two nodes, the conjunction of two variables reaches the bound. The store
that it leaves is still represented, and the edges of the variables keep their functions. -/
theorem representation_of_full_store :
    let s₁ := (Operation.run (.new ⟨none, 4⟩ .stopped) (.var 1)).2
    let s₂ := (Operation.run s₁ (.var 2)).2
    let failed := Operation.run s₂ (.conj (.toNode 2) (.toNode 3))
    failed.1 = .error (.nodeLimit 4) ∧ s₂.nodes.size ≤ max 2 4 ∧
      s₂.nodes.toList <+: failed.2.nodes.toList ∧
      ∀ ρ, failed.2.value ρ (.toNode 3) = s₂.value ρ (.toNode 3) := by
  intro s₁ s₂ failed
  have hcall₁ : OrderedCall (.new ⟨none, 4⟩ .stopped) (.var 1) := ⟨Nat.succ_ne_zero 0, trivial⟩
  have hcall₂ : OrderedCall s₁ (.var 2) := ⟨Nat.succ_ne_zero 1, trivial⟩
  have hhas : s₂.Has (.toNode 2) ∧ s₂.Has (.toNode 3) :=
    ⟨⟨by decide, by decide⟩, ⟨by decide, by decide⟩⟩
  have hcall₃ : OrderedCall s₂ (.conj (.toNode 2) (.toNode 3)) := ⟨hhas, trivial⟩
  obtain ⟨-, -, -, -, -, hsize, hnodes, -, -, hvalue⟩ :=
    representation_of_runs ⟨none, 4⟩ (by decide) .stopped s₂ failed.2
      (.call (.call .start _ hcall₁) _ hcall₂) (.call .start _ hcall₃)
  exact ⟨rfl, hsize, hnodes, hvalue _ hhas.2⟩

/-- With room for one node more, the conjunction of two variables is remembered as an edge that is
true where it is false. -/
theorem representation_lost_beyond_words :
    ∃ s, Runs OrderedCall (.new ⟨none, 2147483649⟩ .stopped) s ∧
      ∃ (t : Triple) (r : Edge) (ρ : Nat → Bool), s.computed[t]? = some r ∧
        s.value ρ r ≠ if s.value ρ t.test then s.value ρ t.onTrue else s.value ρ t.onFalse := by
  obtain ⟨s, s', hruns, -, hcall, hconj, hlists, hknown⟩ :=
    Store.exists_conjunction .stopped (n := 2147483646) (by decide) (Nat.lt_succ_self 2147483648)
  have hafter := (hruns.mono fun _ _ hok => hok.1).call _ hcall
  rw [show Operation.run s (.conj (.toNode 2) (.toNode 3)) = _ from hconj] at hafter
  refine ⟨s', hafter, _, _, fun _ => false, hknown, ?_⟩
  have hconjunction := hlists.value_last (e := ⟨Int32.minValue⟩) (by decide) rfl fun _ => false
  have hfirst := hlists.value_variable (List.prefix_append _ _) (e := .toNode 2) (i := 0) rfl
    (by decide) fun _ => false
  change s'.value _ ⟨Int32.minValue⟩ ≠ _
  rw [hconjunction, hfirst, if_neg (by decide), s'.value_zero]
  decide

end GuardedMachines.Diagram
