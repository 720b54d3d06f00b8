import GuardedMachines.Proofs.Diagram.Crowded

/-!
Clauses of two variables, one of which they share. Each clause brings in a variable
before all others, so the node of the variable and that of the clause are put at the
end. The conjunction of such clauses grows by one node with each of them.
-/

namespace GuardedMachines.Diagram.Store

theorem nextEdge_eq {ns : List Node} (h : ns.length + 2 < 2147483648) :
    nextEdge ns = .toNode (ns.length + 2) :=
  congrArg Edge.toNode (UInt32.toNat_ofNat_of_lt (Nat.lt_trans h (by decide)))

/-- The second store has more nodes of one variable, and more answers to some requests. -/
structure Enters (s s' : Store) (var : Nat) (asked : Triple → Prop) : Prop where
  grown : s.Extends s'
  unique : ∀ m : Node, var ≠ m.var → s'.unique[m]? = s.unique[m]?
  computed : ∀ t, ¬ asked t → s'.computed[t]? = s.computed[t]?

namespace Enters

variable {s s' s'' : Store} {var : Nat} {asked : Triple → Prop}

theorem pushed (s : Store) (n : Node) (asked : Triple → Prop) :
    s.Enters (s.pushed n) n.var asked where
  grown := s.extends_pushed n
  unique m hm := by
    rw [unique_pushed, if_neg]
    exact fun heq => hm (congrArg Node.var heq)
  computed _ _ := rfl

theorem remember (s : Store) {t : Triple} (e : Edge) (var : Nat) (ht : asked t) :
    s.Enters (s.remember t e) var asked where
  grown := s.extends_remember t e
  unique _ _ := rfl
  computed u hu := by
    rw [computed_remember, if_neg]
    rintro rfl
    exact hu ht

theorem trans (h : s.Enters s' var asked) (h' : s'.Enters s'' var asked) :
    s.Enters s'' var asked where
  grown := h.grown.trans h'.grown
  unique m hm := (h'.unique m hm).trans (h.unique m hm)
  computed t ht := (h'.computed t ht).trans (h.computed t ht)

end Enters

structure Inner (e : Edge) : Prop where
  regular : e.isNegated = false
  two_le : 2 ≤ e.index

theorem inner_toNode {i : Nat} (hi : 2 ≤ i) (hword : i < 2147483648) : Inner (.toNode i) :=
  ⟨Edge.isNegated_toNode hword, by rwa [Edge.index_toNode hword]⟩

namespace Inner

variable {s : Store} {e : Edge}

theorem not_isTerminal (h : Inner e) : ¬ e.isTerminal := by
  have := h.two_le
  rw [Edge.isTerminal_iff]
  omega

theorem ne_one (h : Inner e) : e ≠ .one := fun heq => h.not_isTerminal (heq ▸ rfl)

theorem ne_zero (h : Inner e) : e ≠ .zero := fun heq => h.not_isTerminal (heq ▸ rfl)

theorem neg_ne {d : Edge} (h : Inner e) (hd : d.isTerminal) : -e ≠ d := by
  rintro rfl
  rw [Edge.isTerminal_iff, Edge.index_neg, ← Edge.isTerminal_iff] at hd
  exact h.not_isTerminal hd

/-- The cofactors at the variable of the node are its children. -/
theorem cofactor_of_node (h : Inner e) {v : Nat} {l r : Edge} (hnode : s.node e = ⟨v, l, r⟩)
    (b : Bool) : s.cofactor v b e = if b then r else l := by
  have ht := h.not_isTerminal
  have hvar : s.var e = v := congrArg Node.var hnode
  simp [cofactor, ht, hvar, low, high, hnode, h.regular, Edge.negateIf]

end Inner

theorem cofactor_of_ne {s : Store} {e : Edge} {v : Nat} (h : s.var e ≠ v) (b : Bool) :
    s.cofactor v b e = e := by
  simp [cofactor, h]

theorem cofactor_terminal {s : Store} {e : Edge} (h : e.isTerminal) (v : Nat) (b : Bool) :
    s.cofactor v b e = e := by
  simp [cofactor, h]

namespace Lists

variable {s : Store} {limit : Nat} {ns : List Node} {a b j : Nat}

theorem mkLiteral_new (h : s.Lists limit ns) (ha : a < 2147483648)
    (hnew : ⟨a, .zero, .one⟩ ∉ ns) (hroom : ns.length + 2 < limit) :
    s.mkLiteral (.ofNat a) = (.ok (nextEdge ns), s.pushed ⟨a, .zero, .one⟩) := by
  have hmade := h.mkNode_eq hnew rfl (show Edge.zero ≠ Edge.one by decide) hroom
  have hsign : decide (Int32.ofNat a < 0) = false := Edge.isNegated_toNode ha
  unfold mkLiteral mkVar
  rw [Word.magnitude_ofNat ha, hmade, hsign]
  rfl

theorem mkLiteral_known {i : UInt32} (hb : b < 2147483648)
    (hknown : s.unique[(⟨b, .zero, .one⟩ : Node)]? = some i) :
    s.mkLiteral (.ofNat b) = (.ok (.toNode i.toNat), s) := by
  have hsign : decide (Int32.ofNat b < 0) = false := Edge.isNegated_toNode hb
  have hfound : s.mkVar b = (.ok (.toNode i.toNat), s) := by
    unfold mkVar mkNode mkRegular
    rw [if_neg (by decide), if_neg (show Edge.zero ≠ Edge.one by decide), hknown]
  unfold mkLiteral
  rw [Word.magnitude_ofNat hb, hfound, hsign]
  rfl

theorem clause_single {s' : Store} {l : Int32} {x : Edge} (h : s'.Lists limit ns)
    (hfirst : s.mkLiteral l = (.ok x, s')) : s.clause [l] = (.ok x, s') := by
  simp only [clause, clauseFrom, hfirst, h.disj_zero]

theorem clause_two {s₁ s₂ s₃ : Store} {l l' : Int32} {x y c : Edge} (h : s₁.Lists limit ns)
    (hfirst : s.mkLiteral l = (.ok x, s₁)) (hsecond : s₁.mkLiteral l' = (.ok y, s₂))
    (hjoined : s₂.disj x y = (.ok c, s₃)) : s.clause [l, l'] = (.ok c, s₃) := by
  simp only [clause, clauseFrom, hfirst, h.disj_zero, hsecond, hjoined]

/-- The disjunction of a variable with a later one is one node. -/
theorem disj_pair (h : s.Lists limit ns) {x y : Edge} (hx : Inner x) (hy : Inner y)
    (hxy : x.index ≠ y.index) (hab : a < b) (hfirst : s.node x = ⟨a, .zero, .one⟩)
    (hsecond : s.node y = ⟨b, .zero, .one⟩)
    (hfresh : s.computed[(⟨x, .one, y⟩ : Triple)]? = none) (hnew : ⟨a, y, .one⟩ ∉ ns)
    (hroom : ns.length + 2 < limit) :
    s.disj x y =
      (.ok (nextEdge ns), (s.pushed ⟨a, y, .one⟩).remember ⟨x, .one, y⟩ (nextEdge ns)) := by
  have hx2 := hx.two_le
  have hrequest : Request.ofEdges x .one y = .compute ⟨x, .one, y⟩ false := by
    apply Request.ofEdges_eq_compute hx.regular hx.not_isTerminal rfl hy.ne_one.symm
    · rw [Edge.index_one]
      omega
    · exact hxy.symm
    · exact fun hboth => hy.ne_zero hboth.2
  have hfirstVar : s.var x = a := congrArg Node.var hfirst
  have hsecondVar : s.var y = b := congrArg Node.var hsecond
  have htop : s.topVar ⟨x, .one, y⟩ = a := by
    rw [← hfirstVar]
    refine topVar_eq hx.not_isTerminal (Or.inl rfl) hx.not_isTerminal ⟨?_, Or.inl rfl, ?_⟩
    · exact Or.inr (Nat.le_refl _)
    · exact Or.inr (show s.var x ≤ s.var y by omega)
  have hcofactors : ∀ c, s.cofactors ⟨x, .one, y⟩ c = ⟨if c then .one else .zero, .one, y⟩ := by
    intro c
    unfold cofactors
    rw [htop, hx.cofactor_of_node hfirst, cofactor_terminal rfl,
      cofactor_of_ne (show s.var y ≠ a by omega)]
  have hmade : s.mkNode (s.topVar ⟨x, .one, y⟩) y .one =
      (.ok (nextEdge ns), s.pushed ⟨a, y, .one⟩) := by
    rw [htop]
    exact h.mkNode_eq (n := ⟨a, y, .one⟩) hnew rfl hy.ne_one hroom
  exact ite_once ⟨h.checkTime_eq, hrequest, hfresh⟩ (by omega) (hcofactors false) (hcofactors true)
    rfl rfl hmade

/-- The edge to the index 2147483648 is negated and is its own negation, so that the children of
its node are exchanged together with the branches. -/
theorem disj_least (h : s.Lists limit ns) (hab : a < b)
    (hfirst : s.node (.toNode 2147483648) = ⟨a, .zero, .one⟩)
    (hsecond : s.node (.toNode 3) = ⟨b, .zero, .one⟩)
    (hfresh : s.computed[(⟨.toNode 2147483648, .toNode 3, .one⟩ : Triple)]? = none)
    (hnew : ⟨a, .toNode 3, .one⟩ ∉ ns) (hroom : ns.length + 2 < limit) :
    s.disj (.toNode 2147483648) (.toNode 3) =
      (.ok (nextEdge ns), (s.pushed ⟨a, .toNode 3, .one⟩).remember
        ⟨.toNode 2147483648, .toNode 3, .one⟩ (nextEdge ns)) := by
  have hfirstVar : s.var (.toNode 2147483648) = a := congrArg Node.var hfirst
  have hsecondVar : s.var (.toNode 3) = b := congrArg Node.var hsecond
  have htop : s.topVar ⟨.toNode 2147483648, .toNode 3, .one⟩ = a := by
    rw [← hfirstVar]
    refine topVar_eq (by decide) (Or.inl rfl) (by decide) ⟨?_, ?_, Or.inl rfl⟩
    · exact Or.inr (Nat.le_refl _)
    · exact Or.inr (by rw [hfirstVar, hsecondVar]; omega)
  have hcofactors : ∀ c, s.cofactors ⟨.toNode 2147483648, .toNode 3, .one⟩ c =
      ⟨if c then .zero else .one, .toNode 3, .one⟩ := by
    intro c
    unfold cofactors
    rw [htop, cofactor_of_ne (e := .toNode 3) (by omega), cofactor_terminal (e := .one) rfl]
    simp only [cofactor, hfirstVar, low, high, hfirst, bne_self_eq_false, Bool.or_false]
    cases c <;> rfl
  have hmade : s.mkNode (s.topVar ⟨.toNode 2147483648, .toNode 3, .one⟩) (.toNode 3) .one =
      (.ok (nextEdge ns), s.pushed ⟨a, .toNode 3, .one⟩) := by
    have hne : Edge.toNode 3 ≠ .one := by decide
    rw [htop]
    exact h.mkNode_eq (n := ⟨a, .toNode 3, .one⟩) hnew rfl hne hroom
  have hasks : Asks s ⟨.toNode 2147483648, .one, .toNode 3⟩ s
      ⟨.toNode 2147483648, .toNode 3, .one⟩ false := ⟨h.checkTime_eq, rfl, hfresh⟩
  exact ite_once hasks (by decide) (hcofactors false) (hcofactors true) rfl rfl hmade

/-- A clause of a new variable before all others and a known one puts two nodes at the end. -/
theorem clause_pair (h : s.Lists limit ns) (hj : 2 ≤ j) (hjlt : j < ns.length + 2) (hab : a < b)
    (hb : b < 2147483648) (hshared : s.node (.toNode j) = ⟨b, .zero, .one⟩)
    (hknown : s.unique[(⟨b, .zero, .one⟩ : Node)]? = some (.ofNat j))
    (hvars : ∀ m ∈ ns, a < m.var)
    (hfresh : s.computed[(⟨.toNode (ns.length + 2), .one, .toNode j⟩ : Triple)]? = none)
    (hword : ns.length + 3 < 2147483648) (hroom : ns.length + 3 < limit) :
    ∃ s', s.clause [.ofNat a, .ofNat b] = (.ok (.toNode (ns.length + 3)), s') ∧
      s'.Lists limit (ns ++ [⟨a, .zero, .one⟩] ++ [⟨a, .toNode j, .one⟩]) ∧
      s'.node (.toNode (ns.length + 3)) = ⟨a, .toNode j, .one⟩ ∧
      s.Enters s' a (· = ⟨.toNode (ns.length + 2), .one, .toNode j⟩) := by
  have hunlisted : ∀ l r, ⟨a, l, r⟩ ∉ ns := fun l r hmem => Nat.lt_irrefl a (hvars _ hmem)
  have hedge : nextEdge ns = .toNode (ns.length + 2) := nextEdge_eq (by omega)
  have hedge' : nextEdge (ns ++ [⟨a, .zero, .one⟩]) = .toNode (ns.length + 3) := by
    rw [nextEdge_eq] <;> simp only [List.length_append, List.length_singleton]
    omega
  have hx : Inner (.toNode (ns.length + 2)) := inner_toNode (by omega) (by omega)
  have hy : Inner (.toNode j) := inner_toNode hj (by omega)
  have hfirst := h.mkLiteral_new (by omega) (hunlisted _ _) (by omega)
  rw [hedge] at hfirst
  have hlists := h.pushed ⟨a, .zero, .one⟩
  have hentered := Enters.pushed s ⟨a, .zero, .one⟩
    (· = ⟨.toNode (ns.length + 2), .one, .toNode j⟩)
  have hsecond : (s.pushed ⟨a, .zero, .one⟩).mkLiteral (.ofNat b) =
      (.ok (.toNode j), s.pushed ⟨a, .zero, .one⟩) := by
    have hfound := (hentered.unique ⟨b, .zero, .one⟩ (Nat.ne_of_lt hab)).trans hknown
    have hindex : (UInt32.ofNat j).toNat = j :=
      UInt32.toNat_ofNat_of_lt (Nat.lt_trans (show j < 2147483648 by omega) (by decide))
    rw [mkLiteral_known hb hfound, hindex]
  have hxnode : (s.pushed ⟨a, .zero, .one⟩).node (.toNode (ns.length + 2)) = ⟨a, .zero, .one⟩ := by
    apply node_pushed
    rw [Edge.index_toNode (by omega), h.size_eq]
  have hynode : (s.pushed ⟨a, .zero, .one⟩).node (.toNode j) = ⟨b, .zero, .one⟩ := by
    rw [hentered.grown.node_eq, hshared]
    have hindex : (Edge.toNode j).index = j := Edge.index_toNode (by omega)
    exact ⟨by omega, by rw [h.size_eq]; omega⟩
  have hnew : ⟨a, .toNode j, .one⟩ ∉ ns ++ [⟨a, .zero, .one⟩] := by
    rw [List.mem_append, List.mem_singleton, not_or]
    exact ⟨hunlisted _ _, fun heq => hy.ne_zero (congrArg Node.low heq)⟩
  have hjoined := hlists.disj_pair hx hy (by rw [Edge.index_toNode, Edge.index_toNode] <;> omega)
    hab hxnode hynode hfresh hnew (by simpa using hroom)
  rw [hedge'] at hjoined
  refine ⟨_, hlists.clause_two hfirst hsecond hjoined, (hlists.pushed _).remember _ _, ?_, ?_⟩
  · rw [node_remember]
    apply node_pushed
    rw [Edge.index_toNode hword, hlists.size_eq, List.length_append, List.length_singleton]
  · have hpushed := Enters.pushed (s.pushed ⟨a, .zero, .one⟩) ⟨a, .toNode j, .one⟩
      (· = ⟨.toNode (ns.length + 2), .one, .toNode j⟩)
    exact (hentered.trans hpushed).trans (Enters.remember _ _ _ rfl)

end Lists

theorem iteWithin_remembered {s : Store} {f g h e : Edge} {t : Triple} {negated : Bool} (fuel : Nat)
    (htime : s.checkTime = (.ok (), s)) (hrequest : Request.ofEdges f g h = .compute t negated)
    (hknown : s.computed[t]? = some e) :
    iteWithin (fuel + 1) s f g h = (.ok (e.negateIf negated), s) := by
  simp only [iteWithin, htime, hrequest, hknown]

namespace Inner

variable {s : Store} {f y : Edge}

theorem ofEdges_self (hy : Inner y) : Request.ofEdges y y .zero = .answer y := by
  have hneg : Edge.zero ≠ -y := (hy.neg_ne rfl).symm
  simp [Request.ofEdges, immediate?, hy.ne_one, hy.ne_zero, hy.ne_zero.symm, hneg,
    show Edge.one ≠ Edge.zero by decide]

theorem ofEdges_neg (hf : Inner f) (hword : f.index < 2147483648) :
    Request.ofEdges f (-f) .zero = .answer .zero := by
  have hindex := hf.two_le
  have hself : -f ≠ f := by
    intro heq
    have hsign := Edge.isNegated_neg (by omega) hword
    rw [heq, hf.regular] at hsign
    cases hsign
  have hone : -f ≠ .one := hf.neg_ne rfl
  have hzero : -f ≠ .zero := hf.neg_ne rfl
  simp [Request.ofEdges, immediate?, hf.ne_one, hf.ne_zero, hf.ne_zero.symm, hone, hzero,
    hzero.symm, hself]

theorem ofEdges_zero (hf : Inner f) (hy : Inner y) (hfy : f.index ≠ y.index) :
    Request.ofEdges f y .zero = .compute ⟨f, y, .zero⟩ false := by
  have := hf.two_le
  apply Request.ofEdges_eq_compute hf.regular hf.not_isTerminal hy.regular hy.ne_zero hfy.symm
  · rw [Edge.index_zero]
    omega
  · exact fun hboth => hy.ne_one hboth.1

end Inner

/-- The edge is the terminal one, or its conjunction with the second edge is known to be that. -/
def Absorbed (s : Store) (e y : Edge) : Prop :=
  e = .one ∨ Inner e ∧ e.index ≠ y.index ∧ s.computed[(⟨e, y, .zero⟩ : Triple)]? = some y

/-- A node over the second edge and an edge that it absorbs is absorbed itself. -/
theorem iteWithin_absorbed {s : Store} {f y high : Edge} {v : Nat} (fuel : Nat)
    (htime : s.checkTime = (.ok (), s)) (hf : Inner f) (hy : Inner y) (hfy : f.index ≠ y.index)
    (hnode : s.node f = ⟨v, y, high⟩) (hlater : v < s.var y)
    (hfresh : s.computed[(⟨f, y, .zero⟩ : Triple)]? = none) (hhigh : s.Absorbed high y) :
    iteWithin (fuel + 2) s f y .zero = (.ok y, s.remember ⟨f, y, .zero⟩ y) := by
  have hvar : s.var f = v := congrArg Node.var hnode
  have htop : s.topVar ⟨f, y, .zero⟩ = v := by
    rw [← hvar]
    refine topVar_eq hf.not_isTerminal (Or.inl rfl) hf.not_isTerminal ⟨?_, ?_, Or.inl rfl⟩
    · exact Or.inr (Nat.le_refl _)
    · exact Or.inr (show s.var f ≤ s.var y by omega)
  have hcofactors : ∀ b, s.cofactors ⟨f, y, .zero⟩ b = ⟨if b then high else y, y, .zero⟩ := by
    intro b
    unfold cofactors
    rw [htop, hf.cofactor_of_node hnode, cofactor_of_ne (show s.var y ≠ v by omega),
      cofactor_terminal rfl]
  have hmade : s.mkNode (s.topVar ⟨f, y, .zero⟩) y y = (.ok y, s) := s.mkNode_self _ y
  have hasks : Asks s ⟨f, y, .zero⟩ s ⟨f, y, .zero⟩ false :=
    ⟨htime, hf.ofEdges_zero hy hfy, hfresh⟩
  have hbranch : iteWithin (fuel + 1) s high y .zero = (.ok y, s) := by
    rcases hhigh with rfl | ⟨hinner, hne, hknown⟩
    · exact iteWithin_answer fuel htime rfl
    · exact iteWithin_remembered fuel htime (hinner.ofEdges_zero hy hne) hknown
  exact iteWithin_made hasks (hcofactors false) (hcofactors true)
    (iteWithin_answer fuel htime hy.ofEdges_self) hbranch hmade

section Join

variable {s : Store} {f c y : Edge} {a : Nat}

theorem topVar_join (hf : Inner f) (hc : Inner c) (hnode : s.node c = ⟨a, y, .one⟩)
    (hlater : a < s.var f) : s.topVar ⟨f, c, .zero⟩ = a := by
  have hvar : s.var c = a := congrArg Node.var hnode
  rw [← hvar]
  refine topVar_eq hf.not_isTerminal (Or.inr (Or.inl rfl)) hc.not_isTerminal ⟨?_, ?_, Or.inl rfl⟩
  · exact Or.inr (show s.var c ≤ s.var f by omega)
  · exact Or.inr (Nat.le_refl _)

theorem cofactors_join (hf : Inner f) (hc : Inner c) (hnode : s.node c = ⟨a, y, .one⟩)
    (hlater : a < s.var f) (b : Bool) :
    s.cofactors ⟨f, c, .zero⟩ b = ⟨f, if b then .one else y, .zero⟩ := by
  unfold cofactors
  rw [topVar_join hf hc hnode hlater, hc.cofactor_of_node hnode,
    cofactor_of_ne (show s.var f ≠ a by omega), cofactor_terminal rfl]

theorem Inner.ofEdges_one (hf : Inner f) : Request.ofEdges f .one .zero = .answer f := by
  simp [Request.ofEdges, immediate?, hf.ne_one, hf.ne_zero, show Edge.one ≠ Edge.zero by decide]

end Join

namespace Lists

variable {s : Store} {limit : Nat} {ns : List Node} {f c y : Edge} {a : Nat}

/-- The conjunction of an absorbed node with a clause over the same edge is one node above it. -/
theorem conj_absorbed (h : s.Lists limit ns) {high : Edge} {v : Nat} (hf : Inner f) (hc : Inner c)
    (hy : Inner y) (hfc : f.index ≠ c.index) (hfy : f.index ≠ y.index) (hcy : c.index ≠ y.index)
    (hav : a < v) (hlater : v < s.var y) (hfnode : s.node f = ⟨v, y, high⟩)
    (hcnode : s.node c = ⟨a, y, .one⟩)
    (hfresh : ∀ t : Triple, t.test = f → s.computed[t]? = none) (hhigh : s.Absorbed high y)
    (hnew : ⟨a, y, f⟩ ∉ ns) (hword : ns.length + 2 < 2147483648) (hroom : ns.length + 2 < limit) :
    ∃ s', s.conj f c = (.ok (.toNode (ns.length + 2)), s') ∧ s'.Lists limit (ns ++ [⟨a, y, f⟩]) ∧
      s'.node (.toNode (ns.length + 2)) = ⟨a, y, f⟩ ∧ s'.Absorbed f y ∧
      s.Enters s' a fun t => t.test = f := by
  have hvar : s.var f = v := congrArg Node.var hfnode
  have hafter : a < s.var f := by omega
  have hlists := h.remember ⟨f, y, .zero⟩ y
  have hne : y ≠ f := fun heq => hfy (heq ▸ rfl)
  have hmade : (s.remember ⟨f, y, .zero⟩ y).mkNode (s.topVar ⟨f, c, .zero⟩) y f =
      (.ok (.toNode (ns.length + 2)), (s.remember ⟨f, y, .zero⟩ y).pushed ⟨a, y, f⟩) := by
    rw [topVar_join hf hc hcnode hafter, ← nextEdge_eq hword]
    exact hlists.mkNode_eq (n := ⟨a, y, f⟩) hnew hf.regular hne hroom
  obtain ⟨fuel, hfuel⟩ : ∃ n, f.index + c.index + Edge.zero.index = n + 2 + 1 := by
    have := hf.two_le
    have := hc.two_le
    exact ⟨f.index + c.index - 2, by rw [Edge.index_zero]; omega⟩
  have hasks : Asks s ⟨f, c, .zero⟩ s ⟨f, c, .zero⟩ false :=
    ⟨h.checkTime_eq, hf.ofEdges_zero hc hfc, hfresh _ rfl⟩
  have hconj := iteWithin_made hasks (cofactors_join hf hc hcnode hafter false)
    (cofactors_join hf hc hcnode hafter true)
    (iteWithin_absorbed fuel h.checkTime_eq hf hy hfy hfnode hlater (hfresh _ rfl) hhigh)
    (iteWithin_answer _ hlists.checkTime_eq hf.ofEdges_one) hmade
  rw [← hfuel] at hconj
  refine ⟨_, hconj, (hlists.pushed _).remember _ _, ?_, Or.inr ⟨hf, hfy, ?_⟩, ?_⟩
  · rw [node_remember]
    apply node_pushed
    rw [Edge.index_toNode hword, hlists.size_eq]
  · rw [computed_remember, if_neg fun heq => hcy (congrArg (fun t => t.onTrue.index) heq)]
    change (s.remember _ _).computed[_]? = _
    rw [computed_remember, if_pos rfl]
  · have hasked : s.Enters (s.remember ⟨f, y, .zero⟩ y) a fun t => t.test = f :=
      Enters.remember s y a rfl
    have hpushed := Enters.pushed (s.remember ⟨f, y, .zero⟩ y) ⟨a, y, f⟩ fun t => t.test = f
    exact (hasked.trans hpushed).trans (Enters.remember _ _ _ rfl)

/-- The conjunction of an edge with a clause over it is that edge. -/
theorem conj_implied (h : s.Lists limit ns) (hy : Inner y) (hc : Inner c)
    (hyc : y.index ≠ c.index) (hnode : s.node c = ⟨a, y, .one⟩) (hlater : a < s.var y)
    (hfresh : s.computed[(⟨y, c, .zero⟩ : Triple)]? = none) :
    s.conj y c = (.ok y, s.remember ⟨y, c, .zero⟩ y) := by
  have hmade : s.mkNode (s.topVar ⟨y, c, .zero⟩) y y = (.ok y, s) := s.mkNode_self _ y
  have := hy.two_le
  exact ite_once ⟨h.checkTime_eq, hy.ofEdges_zero hc hyc, hfresh⟩ (by omega)
    (cofactors_join hy hc hnode hlater false) (cofactors_join hy hc hnode hlater true)
    hy.ofEdges_self hy.ofEdges_one hmade

theorem conj_one (h : s.Lists limit ns) (e : Edge) : s.conj .one e = (.ok e, s) := by
  have hfuel : Edge.one.index + e.index + Edge.zero.index = e.index + 1 + 1 := by
    rw [Edge.index_zero, Edge.index_one]
    omega
  rw [conj, ite, hfuel]
  exact iteWithin_answer _ h.checkTime_eq rfl

theorem conj_neg (h : s.Lists limit ns) (hf : Inner f) (hword : f.index < 2147483648) :
    s.conj f (-f) = (.ok .zero, s) := by
  rw [conj, ite, show f.index + (-f).index + Edge.zero.index = f.index + f.index + 1 by simp]
  exact iteWithin_answer _ h.checkTime_eq (hf.ofEdges_neg hword)

end Lists

/-- The shared variable is at index three, and the root of the conjunction of so many clauses
absorbs it. -/
structure Rooted (s : Store) (n k : Nat) : Prop where
  shared : s.node (.toNode 3) = ⟨n + 1, .zero, .one⟩
  known : s.unique[(⟨n + 1, .zero, .one⟩ : Node)]? = some (.ofNat 3)
  root : ∃ high, s.node (.toNode (3 * k + 1)) = ⟨n + 1 - k, .toNode 3, high⟩ ∧
    s.Absorbed high (.toNode 3)
  fresh : ∀ t : Triple, t.test.index = 3 * k + 1 → s.computed[t]? = none

structure Joined (s : Store) (limit n k : Nat) (ns : List Node) : Prop extends Rooted s n k where
  lists : s.Lists limit ns
  length : ns.length = 3 * k
  vars : ∀ m ∈ ns, n - k < m.var
  unasked : ∀ t : Triple, 3 * k + 1 < t.test.index → s.computed[t]? = none

structure Offered (s : Store) (limit n k : Nat) (ns : List Node) : Prop extends Rooted s n k where
  lists : s.Lists limit ns
  length : ns.length = 3 * k + 2
  vars : ∀ m ∈ ns, n - k < m.var ∨ m.var = n - k ∧ m.high = .one
  offered : s.node (.toNode (3 * k + 3)) = ⟨n - k, .toNode 3, .one⟩
  unasked : ∀ t : Triple, 3 * k + 3 ≤ t.test.index → s.computed[t]? = none

section Step

variable {s : Store} {limit n k : Nat} {ns : List Node}

/-- A clause is two nodes more. -/
theorem Joined.offer (h : s.Joined limit n k ns) (hk : 1 ≤ k) (hkn : k < n)
    (hn : n + 1 < 2147483648) (hword : 3 * k + 3 < 2147483648) (hroom : 3 * k + 3 < limit) :
    ∃ s' ns', s.clause [.ofNat (n - k), .ofNat (n + 1)] = (.ok (.toNode (3 * k + 3)), s') ∧
      s'.Offered limit n k ns' := by
  obtain ⟨high, hroot, hhigh⟩ := h.root
  have hlength := h.length
  have hsize := h.lists.size_eq
  have hroot_index : (Edge.toNode (3 * k + 1)).index = 3 * k + 1 := Edge.index_toNode (by omega)
  have hnew_index : (Edge.toNode (ns.length + 2)).index = 3 * k + 2 := by
    rw [Edge.index_toNode (by omega), hlength]
  obtain ⟨s', hclause, hlists, hnode, hentered⟩ := h.lists.clause_pair (a := n - k) (b := n + 1)
    (j := 3) (by omega) (by omega) (by omega) hn h.shared h.known h.vars
    (h.unasked _ (by rw [hnew_index]; omega)) (by omega) (by omega)
  rw [hlength] at hclause hnode
  have hcomputed : ∀ t : Triple, t.test.index ≠ 3 * k + 2 → s'.computed[t]? = s.computed[t]? := by
    intro t ht
    apply hentered.computed
    rintro rfl
    exact ht hnew_index
  refine ⟨s', _, hclause, ⟨?_, ?_, ⟨high, ?_, ?_⟩, ?_⟩, hlists, ?_, ?_, hnode, ?_⟩
  · rw [hentered.grown.node_eq ⟨by decide, show 3 < _ by omega⟩, h.shared]
  · rw [hentered.unique _ (show n - k ≠ n + 1 by omega), h.known]
  · rw [hentered.grown.node_eq ⟨by omega, by omega⟩, hroot]
  · rcases hhigh with hone | ⟨hinner, hne, hknown⟩
    · exact Or.inl hone
    · refine Or.inr ⟨hinner, hne, ?_⟩
      rw [hcomputed _ ?_, hknown]
      intro hindex
      rw [h.unasked _ (by rw [hindex]; omega)] at hknown
      cases hknown
  · intro t ht
    rw [hcomputed t (by omega), h.fresh t ht]
  · simp only [List.length_append, List.length_singleton, hlength]
  · intro m hm
    simp only [List.mem_append, List.mem_singleton] at hm
    rcases hm with (hm | rfl) | rfl
    · exact Or.inl (h.vars m hm)
    · exact Or.inr ⟨rfl, rfl⟩
    · exact Or.inr ⟨rfl, rfl⟩
  · intro t ht
    rw [hcomputed t (by omega), h.unasked t (by omega)]

/-- Joining the clause is one node more, above the root. -/
theorem Offered.join (h : s.Offered limit n k ns) (hk : 1 ≤ k) (hkn : k < n)
    (hword : 3 * k + 4 < 2147483648) (hroom : 3 * k + 4 < limit) :
    ∃ s' ns', s.conj (.toNode (3 * k + 1)) (.toNode (3 * k + 3)) =
        (.ok (.toNode (3 * k + 4)), s') ∧ s'.Joined limit n (k + 1) ns' := by
  obtain ⟨high, hroot, hhigh⟩ := h.root
  have hlength := h.length
  have hsize := h.lists.size_eq
  have hroot_index : (Edge.toNode (3 * k + 1)).index = 3 * k + 1 := Edge.index_toNode (by omega)
  have hclause_index : (Edge.toNode (3 * k + 3)).index = 3 * k + 3 := Edge.index_toNode (by omega)
  have hthree : (Edge.toNode 3).index = 3 := rfl
  have hf : Inner (.toNode (3 * k + 1)) := inner_toNode (by omega) (by omega)
  have hc : Inner (.toNode (3 * k + 3)) := inner_toNode (by omega) (by omega)
  have hy : Inner (.toNode 3) := inner_toNode (by omega) (by omega)
  have hunlisted : ⟨n - k, .toNode 3, .toNode (3 * k + 1)⟩ ∉ ns := by
    intro hmem
    rcases h.vars _ hmem with hlt | ⟨-, hone⟩
    · exact Nat.lt_irrefl _ hlt
    · exact hf.ne_one hone
  have hsharedVar : s.var (.toNode 3) = n + 1 := congrArg Node.var h.shared
  obtain ⟨s', hconj, hlists, hnode, habsorbed, hentered⟩ := h.lists.conj_absorbed (a := n - k)
    (v := n + 1 - k) hf hc hy (by omega) (by omega) (by omega) (by omega) (by omega) hroot h.offered
    (fun t ht => h.fresh t (by rw [ht, hroot_index])) hhigh hunlisted (by omega) (by omega)
  rw [show ns.length + 2 = 3 * k + 4 by omega] at hconj
  rw [show ns.length + 2 = 3 * (k + 1) + 1 by omega] at hnode
  have hcomputed : ∀ t : Triple, t.test.index ≠ 3 * k + 1 → s'.computed[t]? = s.computed[t]? := by
    intro t ht
    apply hentered.computed
    intro htest
    exact ht (by rw [htest, hroot_index])
  refine ⟨s', _, hconj, ⟨?_, ?_, ⟨.toNode (3 * k + 1), ?_, habsorbed⟩, ?_⟩, hlists, ?_, ?_, ?_⟩
  · rw [hentered.grown.node_eq ⟨by decide, show 3 < _ by omega⟩, h.shared]
  · rw [hentered.unique _ (show n - k ≠ n + 1 by omega), h.known]
  · rw [hnode, show n + 1 - (k + 1) = n - k by omega]
  · intro t ht
    rw [hcomputed t (by omega), h.unasked t (by omega)]
  · simp only [List.length_append, List.length_singleton, hlength]
    omega
  · intro m hm
    simp only [List.mem_append, List.mem_singleton] at hm
    rcases hm with hm | rfl
    · rcases h.vars m hm with hlt | ⟨heq, -⟩ <;> omega
    · exact show n - (k + 1) < n - k by omega
  · intro t ht
    rw [hcomputed t (by omega), h.unasked t (by omega)]

/-- A variable whose index is the least word is read as negated, and so the clause is stored
as it should be. But its index, in turn, is that of the negated root. -/
theorem Joined.clause_wrapped (h : s.Joined limit n k ns) (hk : 3 * k + 2 = 2147483648)
    (hkn : k < n) (hn : n + 1 < 2147483648) (hroom : 2147483649 < limit) :
    ∃ s' ns', s.clause [.ofNat (n - k), .ofNat (n + 1)] = (.ok (-.toNode (3 * k + 1)), s') ∧
      s'.Lists limit ns' := by
  have hlength : ns.length + 2 = 2147483648 := by rw [h.length, hk]
  have hunlisted : ∀ l r, ⟨n - k, l, r⟩ ∉ ns := fun l r hmem => Nat.lt_irrefl _ (h.vars _ hmem)
  have hfirst := h.lists.mkLiteral_new (a := n - k) (by omega) (hunlisted _ _) (by omega)
  have hlists := h.lists.pushed ⟨n - k, .zero, .one⟩
  have hleast : nextEdge ns = .toNode 2147483648 := by
    rw [nextEdge, hlength]
    rfl
  have hwrapped : nextEdge (ns ++ [⟨n - k, .zero, .one⟩]) = -.toNode (3 * k + 1) := by
    rw [nextEdge, List.length_append, List.length_singleton,
      show ns.length + 1 + 2 = 2147483649 by omega, show 3 * k + 1 = 2147483647 by omega]
    rfl
  have hsecond : (s.pushed ⟨n - k, .zero, .one⟩).mkLiteral (.ofNat (n + 1)) =
      (.ok (.toNode 3), s.pushed ⟨n - k, .zero, .one⟩) := by
    have hentered := Enters.pushed s ⟨n - k, .zero, .one⟩ fun _ => False
    have hne : n - k ≠ n + 1 := by omega
    have hfound := (hentered.unique ⟨n + 1, .zero, .one⟩ hne).trans h.known
    rw [Lists.mkLiteral_known hn hfound]
    rfl
  rw [hleast] at hfirst
  generalize hs₁ : s.pushed ⟨n - k, .zero, .one⟩ = s₁ at *
  have hnode : s₁.node (.toNode 2147483648) = ⟨n - k, .zero, .one⟩ := by
    rw [← hs₁]
    apply node_pushed
    rw [h.lists.size_eq, hlength]
    rfl
  have hshared : s₁.node (.toNode 3) = ⟨n + 1, .zero, .one⟩ := by
    rw [← hs₁, (s.extends_pushed _).node_eq, h.shared]
    have hindex : (Edge.toNode 3).index = 3 := rfl
    exact ⟨by omega, by rw [h.lists.size_eq]; omega⟩
  have hfresh : s₁.computed[(⟨.toNode 2147483648, .toNode 3, .one⟩ : Triple)]? = none := by
    rw [← hs₁]
    have hindex : (Edge.toNode 2147483648).index = 2147483648 := rfl
    exact h.unasked _ (by rw [hindex]; omega)
  have hnew : ⟨n - k, .toNode 3, .one⟩ ∉ ns ++ [⟨n - k, .zero, .one⟩] := by
    have hne : Edge.toNode 3 ≠ .zero := by decide
    rw [List.mem_append, List.mem_singleton, not_or]
    exact ⟨hunlisted _ _, fun heq => hne (congrArg Node.low heq)⟩
  have hjoined := hlists.disj_least (by omega) hnode hshared hfresh hnew
    (by rw [List.length_append, List.length_singleton]; omega)
  rw [hwrapped] at hjoined
  exact ⟨_, _, hlists.clause_two hfirst hsecond hjoined, (hlists.pushed _).remember _ _⟩

end Step

/-- The first clause brings in the shared variable. -/
theorem exists_joined_one (clock : Clock) {limit n : Nat} (hpos : 1 ≤ n)
    (hn : n + 1 < 2147483648) (hroom : 4 < limit) :
    ∃ s ns, (new ⟨none, limit⟩ clock).clause [.ofNat n, .ofNat (n + 1)] =
      (.ok (.toNode 4), s) ∧ s.Joined limit n 1 ns := by
  have hlists := new_lists limit clock
  have hcomputed : ∀ t : Triple, (new ⟨none, limit⟩ clock).computed[t]? = none :=
    fun _ => Std.TreeMap.getElem?_emptyc
  generalize new ⟨none, limit⟩ clock = s at *
  have hlists₁ := hlists.pushed ⟨n, .zero, .one⟩
  have hlists₂ := hlists₁.pushed ⟨n + 1, .zero, .one⟩
  have hfirst := hlists.mkLiteral_new (a := n) (by omega) List.not_mem_nil
    (show 2 < limit by omega)
  have hsecond := hlists₁.mkLiteral_new (a := n + 1) hn (by simp) (show 3 < limit by omega)
  have hnew : ⟨n, .toNode 3, .one⟩ ∉ [⟨n, .zero, .one⟩] ++ [(⟨n + 1, .zero, .one⟩ : Node)] := by
    have hne : Edge.toNode 3 ≠ .zero := by decide
    simp [hne]
  have hxnode : ((s.pushed ⟨n, .zero, .one⟩).pushed ⟨n + 1, .zero, .one⟩).node (.toNode 2) =
      ⟨n, .zero, .one⟩ := hlists₂.node_eq _
  have hynode : ((s.pushed ⟨n, .zero, .one⟩).pushed ⟨n + 1, .zero, .one⟩).node (.toNode 3) =
      ⟨n + 1, .zero, .one⟩ := hlists₂.node_eq _
  have hjoined := hlists₂.disj_pair (x := .toNode 2) (y := .toNode 3)
    (inner_toNode (by omega) (by omega)) (inner_toNode (by omega) (by omega)) (by decide)
    (Nat.lt_succ_self n) hxnode hynode (hcomputed _) hnew (show 4 < limit by omega)
  have hlists₃ := (hlists₂.pushed ⟨n, .toNode 3, .one⟩).remember
    ⟨.toNode 2, .one, .toNode 3⟩ (.toNode 4)
  have hunasked : ∀ t : Triple, 3 ≤ t.test.index →
      (((((s.pushed ⟨n, .zero, .one⟩).pushed ⟨n + 1, .zero, .one⟩).pushed
        ⟨n, .toNode 3, .one⟩).remember ⟨.toNode 2, .one, .toNode 3⟩ (.toNode 4)).computed[t]?) =
          none := by
    intro t ht
    rw [computed_remember, if_neg]
    · exact hcomputed t
    · rintro rfl
      exact absurd ht (by decide)
  refine ⟨_, _, hlists₁.clause_two hfirst hsecond hjoined, ⟨hlists₃.node_eq _, ?_,
    ⟨.one, hlists₃.node_eq _, Or.inl rfl⟩, ?_⟩, hlists₃, rfl, ?_, ?_⟩
  · change (((s.pushed _).pushed _).pushed _).unique[_]? = _
    rw [unique_pushed, if_neg (by simp), unique_pushed, if_pos rfl, hlists₁.size_eq]
    rfl
  · exact fun t ht => hunasked t (by omega)
  · intro m hm
    simp only [List.mem_append, List.mem_singleton, List.not_mem_nil, false_or] at hm
    rcases hm with (rfl | rfl) | rfl <;> exact Nat.lt_of_lt_of_le (Nat.sub_lt hpos Nat.one_pos)
      (by simp)
  · exact fun t ht => hunasked t (by omega)

/-- The shared variable is at index two, and is the conjunction of itself with so many clauses. -/
structure Led (s : Store) (limit n k : Nat) (ns : List Node) : Prop where
  shared : s.node (.toNode 2) = ⟨n + 1, .zero, .one⟩
  known : s.unique[(⟨n + 1, .zero, .one⟩ : Node)]? = some (.ofNat 2)
  lists : s.Lists limit ns
  length : ns.length = 2 * k + 1
  vars : ∀ m ∈ ns, n - k < m.var
  unasked : ∀ t : Triple, 2 * k + 2 < t.test.index ∨ 2 * k + 2 < t.onTrue.index →
    s.computed[t]? = none

theorem exists_led_zero (clock : Clock) {limit n : Nat} (hn : n + 1 < 2147483648)
    (hroom : 2 < limit) :
    ∃ s ns, (new ⟨none, limit⟩ clock).clause [.ofNat (n + 1)] = (.ok (.toNode 2), s) ∧
      s.Led limit n 0 ns := by
  have hlists := new_lists limit clock
  have hlists₁ := hlists.pushed ⟨n + 1, .zero, .one⟩
  have hfirst := hlists.mkLiteral_new (a := n + 1) hn List.not_mem_nil hroom
  refine ⟨_, _, hlists₁.clause_single hfirst, hlists₁.node_eq _, ?_, hlists₁, rfl, ?_, ?_⟩
  · rw [unique_pushed, if_pos rfl]
    rfl
  · intro m hm
    rw [List.mem_singleton.mp hm]
    exact Nat.lt_succ_self n
  · exact fun _ _ => Std.TreeMap.getElem?_emptyc

/-- A clause is two nodes more, and none is needed to join it. -/
theorem Led.step {s : Store} {limit n k : Nat} {ns : List Node} (h : s.Led limit n k ns)
    (hkn : k < n) (hn : n + 1 < 2147483648) (hword : 2 * k + 4 < 2147483648)
    (hroom : 2 * k + 4 < limit) :
    ∃ s₁ s₂ ns', s.clause [.ofNat (n - k), .ofNat (n + 1)] = (.ok (.toNode (2 * k + 4)), s₁) ∧
      s₁.conj (.toNode 2) (.toNode (2 * k + 4)) = (.ok (.toNode 2), s₂) ∧
      s₂.Led limit n (k + 1) ns' := by
  have hlength := h.length
  have hsize := h.lists.size_eq
  have hnew_index : (Edge.toNode (ns.length + 2)).index = 2 * k + 3 := by
    rw [Edge.index_toNode (by omega), hlength]
  have hclause_index : (Edge.toNode (2 * k + 4)).index = 2 * k + 4 := Edge.index_toNode (by omega)
  have htwo : (Edge.toNode 2).index = 2 := rfl
  obtain ⟨s₁, hclause, hlists, hnode, hentered⟩ := h.lists.clause_pair (a := n - k) (b := n + 1)
    (j := 2) (by omega) (by omega) (by omega) hn h.shared h.known h.vars
    (h.unasked _ (Or.inl (by rw [hnew_index]; omega))) (by omega) (by omega)
  rw [show ns.length + 3 = 2 * k + 4 by omega] at hclause hnode
  have hshared : s₁.node (.toNode 2) = ⟨n + 1, .zero, .one⟩ := by
    rw [hentered.grown.node_eq ⟨by decide, show 2 < _ by omega⟩, h.shared]
  have hlater : n - k < s₁.var (.toNode 2) := by
    rw [show s₁.var (.toNode 2) = n + 1 from congrArg Node.var hshared]
    omega
  have hfresh : s₁.computed[(⟨.toNode 2, .toNode (2 * k + 4), .zero⟩ : Triple)]? = none := by
    rw [hentered.computed]
    · exact h.unasked _ (Or.inr (by rw [hclause_index]; omega))
    · intro heq
      have hindex := congrArg (fun t : Triple => t.test.index) heq
      rw [htwo, hnew_index] at hindex
      omega
  have hconj := hlists.conj_implied (inner_toNode (by omega) (by omega))
    (inner_toNode (by omega) hword) (by rw [htwo, hclause_index]; omega) hnode hlater hfresh
  refine ⟨s₁, _, _, hclause, hconj, ?_, ?_, hlists.remember _ _, ?_, ?_, ?_⟩
  · rw [node_remember, hshared]
  · exact (hentered.unique _ (show n - k ≠ n + 1 by omega)).trans h.known
  · simp only [List.length_append, List.length_singleton, hlength]
    omega
  · intro m hm
    simp only [List.mem_append, List.mem_singleton] at hm
    rcases hm with (hm | rfl) | rfl
    · exact Nat.lt_of_le_of_lt (by omega) (h.vars m hm)
    · exact show n - (k + 1) < n - k by omega
    · exact show n - (k + 1) < n - k by omega
  · intro t ht
    rw [computed_remember, if_neg, hentered.computed, h.unasked t (by omega)]
    · rintro rfl
      rw [hnew_index, Edge.index_one] at ht
      omega
    · rintro rfl
      rw [htwo, hclause_index] at ht
      omega

end GuardedMachines.Diagram.Store
