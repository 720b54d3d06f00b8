import GuardedMachines.Proofs.Diagram.Runs

/-!
Stores with more nodes than an edge has indices for. A node that is not stored yet
is put at the next index, and its edge is that index read as a word. A run that
puts one node after the other is described by the list of these nodes, however
long it is, so the first index that does not fit is reached by induction.
-/

namespace GuardedMachines.Diagram

theorem Runs.mono {ok ok' : Store → Operation → Prop} {s s' : Store} (h : Runs ok s s')
    (hok : ∀ s op, ok s op → ok' s op) : Runs ok' s s' := by
  induction h with
  | start => exact .start
  | call before op hop ih => exact ih.call op (hok _ op hop)

theorem Request.ofEdges_eq_compute {f g h : Edge} (hf : f.isNegated = false)
    (ht : ¬ f.isTerminal) (hg : g.isNegated = false) (hgh : g ≠ h) (hgf : g.index ≠ f.index)
    (hhf : h.index ≠ f.index) (hconstant : ¬ (g = .one ∧ h = .zero)) :
    ofEdges f g h = .compute ⟨f, g, h⟩ false := by
  have hone : f ≠ .one := fun heq => ht (heq ▸ rfl)
  have hzero : f ≠ .zero := fun heq => ht (heq ▸ rfl)
  have hzero' : g ≠ .zero := fun heq => absurd (heq ▸ hg) (by decide)
  have himmediate : immediate? f g h = none := by
    simp [immediate?, hone, hzero, hzero', hgh, hconstant]
  have hpositive : ∀ e : Edge, e.index ≠ f.index → e ≠ f ∧ e ≠ -f := by
    intro e he
    exact ⟨fun heq => he (heq ▸ rfl), fun heq => he (heq ▸ f.index_neg)⟩
  simp only [ofEdges, himmediate, hpositive g hgf, hpositive h hhf, if_false, standard_eq, hf, hg,
    Bool.false_eq_true]

namespace Store

theorem iteWithin_answer {s : Store} {f g h e : Edge} (fuel : Nat)
    (htime : s.checkTime = (.ok (), s)) (hrequest : Request.ofEdges f g h = .answer e) :
    iteWithin (fuel + 1) s f g h = (.ok e, s) := by
  simp only [iteWithin, htime, hrequest]

theorem iteWithin_made {s s' s₀ s₁ s₂ : Store} {q t q₀ q₁ : Triple} {negated : Bool}
    {l h e : Edge} {fuel : Nat} (asks : Asks s q s' t negated) (hfalse : s'.cofactors t false = q₀)
    (htrue : s'.cofactors t true = q₁)
    (low : iteWithin fuel s' q₀.test q₀.onTrue q₀.onFalse = (.ok l, s₀))
    (high : iteWithin fuel s₀ q₁.test q₁.onTrue q₁.onFalse = (.ok h, s₁))
    (node : s₁.mkNode (s'.topVar t) l h = (.ok e, s₂)) :
    iteWithin (fuel + 1) s q.test q.onTrue q.onFalse =
      (.ok (e.negateIf negated), s₂.remember t e) := by
  rw [iteWithin_asks fuel asks, hfalse, htrue]
  simp only [low, high, node]

/-- An if-then-else whose cofactors are answered at once makes one node. -/
theorem ite_once {s s' : Store} {f g h l r e : Edge} {t q₀ q₁ : Triple} {negated : Bool}
    (asks : Asks s ⟨f, g, h⟩ s t negated) (hfuel : 2 ≤ f.index + g.index + h.index)
    (hfalse : s.cofactors t false = q₀) (htrue : s.cofactors t true = q₁)
    (low : Request.ofEdges q₀.test q₀.onTrue q₀.onFalse = .answer l)
    (high : Request.ofEdges q₁.test q₁.onTrue q₁.onFalse = .answer r)
    (node : s.mkNode (s.topVar t) l r = (.ok e, s')) :
    s.ite f g h = (.ok (e.negateIf negated), s'.remember t e) := by
  obtain ⟨fuel, hfuel⟩ : ∃ n, f.index + g.index + h.index = n + 1 + 1 :=
    ⟨f.index + g.index + h.index - 2, by omega⟩
  rw [ite, hfuel]
  exact iteWithin_made asks hfalse htrue (iteWithin_answer fuel asks.inTime low)
    (iteWithin_answer fuel asks.inTime high) node

theorem topVar_eq {s : Store} {t : Triple} {e : Edge} (htest : ¬ t.test.isTerminal)
    (he : e = t.test ∨ e = t.onTrue ∨ e = t.onFalse) (ht : ¬ e.isTerminal)
    (hleast : t.Forall fun d => d.isTerminal ∨ s.var e ≤ s.var d) : s.topVar t = s.var e := by
  obtain ⟨⟨d, hd, hterminal, htop⟩, hall⟩ := s.topVar_spec htest
  have hle : s.topVar t ≤ s.var e := by
    obtain ⟨h₁, h₂, h₃⟩ := hall
    rcases he with rfl | rfl | rfl
    · exact h₁ ht
    · exact h₂ ht
    · exact h₃ ht
  have hge : s.var e ≤ s.topVar t := by
    obtain ⟨h₁, h₂, h₃⟩ := hleast
    rw [← htop]
    rcases hd with rfl | rfl | rfl
    · exact h₁.resolve_left hterminal
    · exact h₂.resolve_left hterminal
    · exact h₃.resolve_left hterminal
  omega

/-- Without a timeout, the nodes after the two terminals are those of the list, and the table
knows no others. -/
structure Lists (s : Store) (limit : Nat) (ns : List Node) : Prop where
  limits : s.limits = ⟨none, limit⟩
  nodes : s.nodes.toList = .terminal :: .terminal :: ns
  unknown : ∀ n, n ∉ ns → s.unique[n]? = none

def nextEdge (ns : List Node) : Edge := .toNode (UInt32.ofNat (ns.length + 2)).toNat

theorem new_lists (limit : Nat) (clock : Clock) : (new ⟨none, limit⟩ clock).Lists limit [] :=
  ⟨rfl, rfl, fun _ _ => Std.TreeMap.getElem?_emptyc⟩

namespace Lists

variable {s : Store} {limit : Nat} {ns : List Node} {n : Node}

theorem size_eq (h : s.Lists limit ns) : s.nodes.size = ns.length + 2 := by
  rw [← Array.length_toList, h.nodes]
  rfl

theorem has_one (h : s.Lists limit ns) : s.Has .one := by
  have hsize := h.size_eq
  exact ⟨Nat.le_refl 1, by rw [hsize, Edge.index_one]; omega⟩

theorem checkTime_eq (h : s.Lists limit ns) : s.checkTime = (.ok (), s) := by
  simp only [checkTime, h.limits]

theorem disj_zero (h : s.Lists limit ns) (e : Edge) : s.disj .zero e = (.ok e, s) := by
  have hfuel : Edge.zero.index + Edge.one.index + e.index = e.index + 1 + 1 := by
    rw [Edge.index_zero, Edge.index_one]
    omega
  rw [disj, ite, hfuel]
  exact iteWithin_answer _ h.checkTime_eq rfl

theorem node_eq (h : s.Lists limit ns) (e : Edge) :
    s.node e = (Node.terminal :: Node.terminal :: ns).getD e.index .terminal := by
  rw [node, ← h.nodes]
  simp

theorem pushed (h : s.Lists limit ns) (n : Node) : (s.pushed n).Lists limit (ns ++ [n]) := by
  refine ⟨h.limits, ?_, ?_⟩
  · simp [Store.pushed, h.nodes]
  · intro m hm
    rw [List.mem_append, List.mem_singleton, not_or] at hm
    rw [unique_pushed, if_neg (Ne.symm hm.2), h.unknown m hm.1]

theorem remember (h : s.Lists limit ns) (t : Triple) (e : Edge) :
    (s.remember t e).Lists limit ns :=
  ⟨h.limits, h.nodes, h.unknown⟩

/-- A node that is not listed is put at the end. -/
theorem mkNode_eq (h : s.Lists limit ns) (hnew : n ∉ ns) (hsign : n.high.isNegated = false)
    (hne : n.low ≠ n.high) (hroom : ns.length + 2 < limit) :
    s.mkNode n.var n.low n.high = (.ok (nextEdge ns), s.pushed n) := by
  have hlimit : ¬ s.limits.nodeLimit ≤ s.nodes.size := by
    rw [h.limits, h.size_eq]
    exact Nat.not_le.mpr hroom
  rw [mkNode, hsign, if_neg Bool.false_ne_true, mkRegular, if_neg hne, h.unknown n hnew]
  dsimp only
  rw [append_eq, if_neg hlimit, h.size_eq]
  rfl

/-- A node that was put at the end is found there again. -/
theorem mkNode_pushed (h : s.Lists limit ns) (hsign : n.high.isNegated = false)
    (hne : n.low ≠ n.high) :
    (s.pushed n).mkNode n.var n.low n.high = (.ok (nextEdge ns), s.pushed n) := by
  rw [mkNode, hsign, if_neg Bool.false_ne_true, mkRegular, if_neg hne, unique_pushed, if_pos rfl,
    h.size_eq]
  rfl

end Lists

def column (low high : Edge) (n : Nat) : List Node := (List.range n).map fun i => ⟨i + 1, low, high⟩

def variableNodes (n : Nat) : List Node := column .zero .one n

section Column

variable {low high : Edge} {n : Nat}

theorem length_column (low high : Edge) (n : Nat) : (column low high n).length = n := by
  simp [column]

theorem column_succ (low high : Edge) (n : Nat) :
    column low high (n + 1) = column low high n ++ [⟨n + 1, low, high⟩] := by
  simp [column, List.range_succ]

theorem of_mem_column {m : Node} (h : m ∈ column low high n) :
    m.low = low ∧ m.high = high ∧ m.var ≤ n := by
  obtain ⟨i, hi, rfl⟩ := List.mem_map.mp h
  exact ⟨rfl, rfl, List.mem_range.mp hi⟩

/-- A column whose children no listed node has is put at the end, one node after the other. -/
theorem Lists.exists_column {ok : Store → Operation → Prop} {s₀ s : Store} {limit : Nat}
    {ns : List Node} (h : s.Lists limit ns) (before : Runs ok s₀ s) (low high : Edge) (n : Nat)
    (hsign : high.isNegated = false) (hne : low ≠ high)
    (hnew : ∀ m ∈ ns, ¬ (m.low = low ∧ m.high = high))
    (hroom : ns.length + n + 2 ≤ limit)
    (hok : ∀ i < n, ∀ s' made, s'.Lists limit (ns ++ made) → ok s' (.node (i + 1) low high)) :
    ∃ s', Runs ok s₀ s' ∧ s'.Lists limit (ns ++ column low high n) ∧
      s'.computed = s.computed := by
  induction n with
  | zero =>
    refine ⟨s, before, ?_, rfl⟩
    rwa [column, List.range_zero, List.map_nil, List.append_nil]
  | succ n ih =>
    obtain ⟨s', hruns, hlists, hcomputed⟩ := ih (by omega) fun i hi => hok i (by omega)
    have hunlisted : ⟨n + 1, low, high⟩ ∉ ns ++ column low high n := by
      intro hmem
      rcases List.mem_append.mp hmem with hmem | hmem
      · exact hnew _ hmem ⟨rfl, rfl⟩
      · exact Nat.not_succ_le_self n (of_mem_column hmem).2.2
    have hroom' : (ns ++ column low high n).length + 2 < limit := by
      rw [List.length_append, length_column]
      omega
    have hmade := hlists.mkNode_eq hunlisted hsign hne hroom'
    have hcall := hruns.call (.node (n + 1) low high) (hok n (Nat.lt_succ_self n) s' _ hlists)
    rw [show Operation.run s' (.node (n + 1) low high) = _ from hmade] at hcall
    refine ⟨_, hcall, ?_, hcomputed⟩
    rw [column_succ, ← List.append_assoc]
    exact hlists.pushed _

end Column

theorem length_variableNodes (n : Nat) : (variableNodes n).length = n := length_column _ _ n

/-- The variables up to a number, each made when those before it are stored. -/
theorem exists_variables (clock : Clock) {limit n : Nat} (hroom : n + 2 ≤ limit) :
    ∃ s, Runs (fun s op => OrderedCall s op ∧ op.Over (· ≤ n)) (.new ⟨none, limit⟩ clock) s ∧
      s.Lists limit (variableNodes n) ∧ s.computed = ∅ := by
  apply (new_lists limit clock).exists_column .start .zero .one n rfl (by decide)
  · exact fun m hm => absurd hm List.not_mem_nil
  · rw [List.length_nil]
    omega
  · intro i hi s made hlists
    have hone := hlists.has_one
    exact ⟨⟨⟨Nat.succ_ne_zero i, hone.neg, hone⟩, s.after_zero _, s.after_one _⟩, hi⟩

/-- One variable more is put after those before it, and is found again under the same edge. -/
theorem exists_next_variable (clock : Clock) {limit n : Nat} (hroom : n + 2 < limit) :
    ∃ s s', Runs (fun s op => OrderedCall s op ∧ op.Over (· ≤ n)) (.new ⟨none, limit⟩ clock) s ∧
      s.mkVar (n + 1) = (.ok (.toNode (UInt32.ofNat (n + 2)).toNat), s') ∧
      s'.mkVar (n + 1) = (.ok (.toNode (UInt32.ofNat (n + 2)).toNat), s') ∧
      s'.Lists limit (variableNodes (n + 1)) := by
  obtain ⟨s, hruns, hlists, -⟩ := exists_variables clock (Nat.le_of_lt hroom)
  have hne : Edge.zero ≠ Edge.one := by decide
  have hnew : ⟨n + 1, .zero, .one⟩ ∉ variableNodes n :=
    fun hmem => Nat.not_succ_le_self n (of_mem_column hmem).2.2
  have hmade := hlists.mkNode_eq hnew rfl hne (by rwa [length_variableNodes])
  have hfound := hlists.mkNode_pushed (n := ⟨n + 1, .zero, .one⟩) rfl hne
  rw [nextEdge, length_variableNodes] at hmade hfound
  refine ⟨s, _, hruns, hmade, hfound, ?_⟩
  rw [variableNodes, column_succ]
  exact hlists.pushed _

namespace Lists

variable {s : Store} {limit n : Nat} {ns : List Node}

theorem node_variable (h : s.Lists limit ns) (hfirst : variableNodes n <+: ns) {e : Edge} {i : Nat}
    (hindex : e.index = i + 2) (hi : i < n) : s.node e = ⟨i + 1, .zero, .one⟩ := by
  obtain ⟨rest, rfl⟩ := hfirst
  rw [h.node_eq, hindex]
  simp [variableNodes, column, List.getElem?_append_left, hi]

theorem has_variable (h : s.Lists limit ns) (hfirst : variableNodes n <+: ns) {e : Edge} {i : Nat}
    (hindex : e.index = i + 2) (hi : i < n) : s.Has e := by
  have hsize := h.size_eq
  have hle := hfirst.length_le
  rw [length_variableNodes] at hle
  exact ⟨by omega, by omega⟩

theorem value_variable (h : s.Lists limit ns) (hfirst : variableNodes n <+: ns) {e : Edge} {i : Nat}
    (hindex : e.index = i + 2) (hi : i < n) (ρ : Nat → Bool) :
    s.value ρ e = (ρ (i + 1) != e.isNegated) := by
  have ht : ¬ e.isTerminal := by
    rw [Edge.isTerminal_iff, hindex]
    omega
  have hnode := h.node_variable hfirst hindex hi
  have hvar : s.var e = i + 1 := congrArg Node.var hnode
  rw [value, hindex, valueWithin_child s ρ _ ht, hvar]
  simp only [child, low, high, hnode]
  cases ρ (i + 1) <;> cases e.isNegated <;> exact valueWithin_of_isTerminal _ _ _ rfl

/-- The conjunction of the first two variables is one node, put after all variables. -/
theorem conj_variables (h : s.Lists limit (variableNodes n)) (hcomputed : s.computed = ∅)
    (hn : 2 ≤ n) (hroom : n + 2 < limit) :
    s.conj (.toNode 2) (.toNode 3) =
      (.ok (nextEdge (variableNodes n)),
        (s.pushed ⟨1, .zero, .toNode 3⟩).remember ⟨.toNode 2, .toNode 3, .zero⟩
          (nextEdge (variableNodes n))) := by
  have hfirst : s.node (.toNode 2) = ⟨1, .zero, .one⟩ :=
    h.node_variable (List.prefix_refl _) (i := 0) rfl (by omega)
  have hsecond : s.node (.toNode 3) = ⟨2, .zero, .one⟩ :=
    h.node_variable (List.prefix_refl _) (i := 1) rfl (by omega)
  have hasks : Asks s ⟨.toNode 2, .toNode 3, .zero⟩ s ⟨.toNode 2, .toNode 3, .zero⟩ false := by
    refine ⟨h.checkTime_eq, rfl, ?_⟩
    rw [hcomputed]
    exact Std.TreeMap.getElem?_emptyc
  have hfirstVar : s.var (.toNode 2) = 1 := congrArg Node.var hfirst
  have hsecondVar : s.var (.toNode 3) = 2 := congrArg Node.var hsecond
  have htop : s.topVar ⟨.toNode 2, .toNode 3, .zero⟩ = 1 := by
    rw [← hfirstVar]
    refine topVar_eq (by decide) (Or.inl rfl) (by decide) ⟨?_, ?_, ?_⟩
    · exact Or.inr (Nat.le_refl _)
    · exact Or.inr (by rw [hfirstVar, hsecondVar]; decide)
    · exact Or.inl rfl
  have hcofactors : ∀ b, s.cofactors ⟨.toNode 2, .toNode 3, .zero⟩ b =
      ⟨if b then .one else .zero, .toNode 3, .zero⟩ := by
    intro b
    unfold cofactors
    rw [htop]
    simp only [cofactor, hfirstVar, hsecondVar, low, high, hfirst]
    cases b <;> rfl
  have hmade : s.mkNode (s.topVar ⟨.toNode 2, .toNode 3, .zero⟩) .zero (.toNode 3) =
      (.ok (nextEdge (variableNodes n)), s.pushed ⟨1, .zero, .toNode 3⟩) := by
    rw [htop]
    apply h.mkNode_eq (n := ⟨1, .zero, .toNode 3⟩) _ (by decide) (by decide)
    · rwa [length_variableNodes]
    · exact fun hmem => absurd (of_mem_column hmem).2.1 (by decide)
  exact ite_once hasks (by decide) (hcofactors false) (hcofactors true) rfl rfl hmade

/-- The function of that node, read with the sign of the edge to it. -/
theorem value_last (h : s.Lists limit (variableNodes n ++ [⟨1, .zero, .toNode 3⟩])) (hn : 2 ≤ n)
    {e : Edge} (hindex : e.index = n + 2) (ρ : Nat → Bool) :
    s.value ρ e = ((ρ 1 && ρ 2) != e.isNegated) := by
  have hnode : s.node e = ⟨1, .zero, .toNode 3⟩ := by
    rw [h.node_eq, hindex]
    simp [length_variableNodes]
  have hsecond : ∀ b, s.node (Edge.negateIf (.toNode 3) b) = ⟨2, .zero, .one⟩ := by
    intro b
    exact h.node_variable (List.prefix_append _ _) (i := 1) (Edge.index_negateIf _ b) hn
  have ht : ¬ e.isTerminal := by
    rw [Edge.isTerminal_iff, hindex]
    omega
  have hvar : s.var e = 1 := congrArg Node.var hnode
  rw [value, hindex, valueWithin_child s ρ _ ht, hvar]
  cases ρ 1 with
  | false =>
    simp only [child, low, hnode]
    cases e.isNegated <;> exact valueWithin_of_isTerminal _ _ _ rfl
  | true =>
    have ht' : ¬ (Edge.negateIf (.toNode 3) e.isNegated).isTerminal := by
      cases e.isNegated <;> decide
    have hvar' : s.var (Edge.negateIf (.toNode 3) e.isNegated) = 2 :=
      congrArg Node.var (hsecond _)
    simp only [child, high, hnode, if_true]
    rw [valueWithin_child s ρ _ ht', hvar']
    simp only [child, low, high, hsecond]
    cases ρ 2 <;> cases e.isNegated <;> exact valueWithin_of_isTerminal _ _ _ rfl

end Lists

/-- The conjunction of the first two of so many variables is one node after all of them. Its edge,
which is also the one that is remembered, is the index as a word, whether or not that fits. -/
theorem exists_conjunction (clock : Clock) {limit n : Nat} (hn : 2 ≤ n) (hroom : n + 2 < limit) :
    ∃ s s', Runs (fun s op => OrderedCall s op ∧ op.Over (· ≤ n)) (.new ⟨none, limit⟩ clock) s ∧
      s.Lists limit (variableNodes n) ∧ OrderedCall s (.conj (.toNode 2) (.toNode 3)) ∧
      s.conj (.toNode 2) (.toNode 3) = (.ok (.toNode (UInt32.ofNat (n + 2)).toNat), s') ∧
      s'.Lists limit (variableNodes n ++ [⟨1, .zero, .toNode 3⟩]) ∧
      s'.computed[(⟨.toNode 2, .toNode 3, .zero⟩ : Triple)]? =
        some (.toNode (UInt32.ofNat (n + 2)).toNat) := by
  obtain ⟨s, hruns, hlists, hcomputed⟩ := exists_variables clock (Nat.le_of_lt hroom)
  have hconj := hlists.conj_variables hcomputed hn hroom
  rw [nextEdge, length_variableNodes] at hconj
  have hfirst := hlists.has_variable (List.prefix_refl _) (e := .toNode 2) (i := 0) rfl (by omega)
  have hsecond := hlists.has_variable (List.prefix_refl _) (e := .toNode 3) (i := 1) rfl (by omega)
  refine ⟨s, _, hruns, hlists, ⟨⟨hfirst, hsecond⟩, trivial⟩, hconj, ?_, ?_⟩
  · exact (hlists.pushed _).remember _ _
  · rw [computed_remember, if_pos rfl]

end Store

end GuardedMachines.Diagram
