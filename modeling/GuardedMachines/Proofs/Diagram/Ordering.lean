import GuardedMachines.Proofs.Diagram.IfThenElse

/-!
Ordered stores. Along every path the variables increase, they belong to a given
set, and a remembered result does not come before its operands. Nodes put above
later edges keep a store ordered, and if-then-else makes no others: its node
gets the least variable of the operands, and the cofactors come after it.
-/

namespace GuardedMachines.Diagram.Store

/-- All variables of the edge come after the given one, as far as its top variable tells. -/
def After (s : Store) (var : Nat) (e : Edge) : Prop := e.isTerminal ∨ var < s.var e

structure Ordered (s : Store) (V : Nat → Prop) : Prop where
  var_mem : ∀ i n, 2 ≤ i → s.nodes[i]? = some n → V n.var
  children : ∀ i n, 2 ≤ i → s.nodes[i]? = some n → s.After n.var n.low ∧ s.After n.var n.high
  computed : ∀ (t : Triple) r, s.computed[t]? = some r →
    ∀ var, t.Forall (s.After var) → s.After var r

/-- An operation leaves an ordered store, and its answer comes after the variables
that the property holds of. -/
structure Sorts (outcome : Outcome Edge) (V before : Nat → Prop) : Prop where
  ordered : outcome.2.Ordered V
  after : ∀ r, outcome.1 = .ok r → ∀ var, before var → outcome.2.After var r

theorem after_one (s : Store) (var : Nat) : s.After var .one := Or.inl rfl

theorem after_zero (s : Store) (var : Nat) : s.After var .zero := Or.inl rfl

theorem After.neg {s : Store} {var : Nat} {e : Edge} (h : s.After var e) : s.After var (-e) := by
  unfold After at *
  rw [Edge.isTerminal_neg, var_neg]
  exact h

theorem After.negateIf {s : Store} {var : Nat} {e : Edge} (h : s.After var e) (b : Bool) :
    s.After var (e.negateIf b) := by
  cases b with
  | false => exact h
  | true => exact h.neg

theorem After.mono {s : Store} {var var' : Nat} {e : Edge} (h : s.After var e) (hle : var' ≤ var) :
    s.After var' e := by
  rcases h with ht | hlt
  · exact Or.inl ht
  · exact Or.inr (Nat.lt_of_le_of_lt hle hlt)

theorem After.grown {s s' : Store} {var : Nat} {e : Edge} (h : s.After var e)
    (hgrown : s.Extends s') (he : s.Has e) : s'.After var e := by
  unfold After
  rw [hgrown.var_eq he]
  exact h

theorem After.of_grown {s s' : Store} {var : Nat} {e : Edge} (h : s'.After var e)
    (hgrown : s.Extends s') (he : s.Has e) : s.After var e := by
  unfold After
  rw [← hgrown.var_eq he]
  exact h

theorem forall_after_grown {s s' : Store} {var : Nat} {t : Triple} (h : t.Forall (s.After var))
    (hgrown : s.Extends s') (ht : t.Forall s.Has) : t.Forall (s'.After var) :=
  ⟨h.1.grown hgrown ht.1, h.2.1.grown hgrown ht.2.1, h.2.2.grown hgrown ht.2.2⟩

theorem forall_after_of_grown {s s' : Store} {var : Nat} {t : Triple}
    (h : t.Forall (s'.After var)) (hgrown : s.Extends s') (ht : t.Forall s.Has) :
    t.Forall (s.After var) :=
  ⟨h.1.of_grown hgrown ht.1, h.2.1.of_grown hgrown ht.2.1, h.2.2.of_grown hgrown ht.2.2⟩

namespace Sorts

variable {s : Store} {e : Edge} {V before : Nat → Prop}

theorem error (hs : s.Ordered V) (cause : Exhaustion) : Sorts (.error cause, s) V before :=
  ⟨hs, fun _ h => (nomatch h)⟩

theorem ok (hs : s.Ordered V) (he : ∀ var, before var → s.After var e) :
    Sorts (.ok e, s) V before where
  ordered := hs
  after r h := by
    cases h
    exact he

theorem negateIf (h : Sorts (.ok e, s) V before) (b : Bool) :
    Sorts (.ok (e.negateIf b), s) V before :=
  ok h.ordered fun var hvar => (h.after e rfl var hvar).negateIf b

end Sorts

theorem new_ordered (limits : Limits) (clock : Clock) (V : Nat → Prop) :
    (new limits clock).Ordered V where
  var_mem i n hi hn := by
    have hlt := (Array.getElem?_eq_some_iff.mp hn).1
    simp only [new, List.size_toArray, List.length_cons, List.length_nil] at hlt
    omega
  children i n hi hn := by
    have hlt := (Array.getElem?_eq_some_iff.mp hn).1
    simp only [new, List.size_toArray, List.length_cons, List.length_nil] at hlt
    omega
  computed t r h := by
    have hempty : (new limits clock).computed[t]? = none := Std.TreeMap.getElem?_emptyc
    rw [hempty] at h
    cases h

namespace Ordered

variable {s s' : Store} {V : Nat → Prop}

theorem checkTime (hs : s.Ordered V) {answer : Except Exhaustion Unit}
    (h : s.checkTime = (answer, s')) : s'.Ordered V := by
  rw [checkTime_store h]
  exact ⟨hs.var_mem, hs.children, hs.computed⟩

theorem var_mem_of_has (hs : s.Ordered V) {e : Edge} (he : s.Has e) (ht : ¬ e.isTerminal) :
    V (s.var e) :=
  hs.var_mem e.index _ (he.two_le ht) (s.node_eq he)

/-- The children of an edge come after its variable. -/
theorem after_child (hs : s.Ordered V) {e : Edge} (he : s.Has e) (ht : ¬ e.isTerminal)
    (b : Bool) : s.After (s.var e) (s.child b e) := by
  obtain ⟨hlow, hhigh⟩ := hs.children e.index _ (he.two_le ht) (s.node_eq he)
  cases b with
  | false => exact hlow.negateIf _
  | true => exact hhigh.negateIf _

theorem pushed (hs : s.Ordered V) (hvalid : s.Valid) {n : Node} (hn : n.Proper s.nodes.size)
    (hvar : V n.var) (hlow : s.After n.var n.low) (hhigh : s.After n.var n.high) :
    (s.pushed n).Ordered V where
  var_mem i m hi hm := by
    rw [s.getElem?_pushed n i] at hm
    split at hm
    · cases hm
      exact hvar
    · exact hs.var_mem i m hi hm
  children i m hi hm := by
    have hgrown := s.extends_pushed n
    rw [s.getElem?_pushed n i] at hm
    split at hm
    · cases hm
      exact ⟨hlow.grown hgrown ⟨hn.low_pos, hn.low_lt⟩,
        hhigh.grown hgrown ⟨hn.high_pos, hn.high_lt⟩⟩
    · have hm' := hvalid.proper i m hi hm
      have hlt := (Array.getElem?_eq_some_iff.mp hm).1
      obtain ⟨hlow', hhigh'⟩ := hs.children i m hi hm
      exact ⟨hlow'.grown hgrown ⟨hm'.low_pos, Nat.lt_trans hm'.low_lt hlt⟩,
        hhigh'.grown hgrown ⟨hm'.high_pos, Nat.lt_trans hm'.high_lt hlt⟩⟩
  computed t r h var ht := by
    have hgrown := s.extends_pushed n
    obtain ⟨hhas, hr⟩ := hvalid.computed_has t r h
    exact (hs.computed t r h var (forall_after_of_grown ht hgrown hhas)).grown hgrown hr

theorem append (hs : s.Ordered V) (hvalid : s.Valid) {n : Node} (hn : n.Proper s.nodes.size)
    (hvar : V n.var) (hlow : s.After n.var n.low) (hhigh : s.After n.var n.high) :
    Sorts (s.append n) V (· < n.var) := by
  rw [append_eq]
  split
  · exact .error hs _
  · next hroom =>
    refine .ok (hs.pushed hvalid hn hvar hlow hhigh) fun var hlt => Or.inr ?_
    have hlast : (s.pushed n).nodes[s.nodes.size]? = some n := by
      rw [s.getElem?_pushed n, if_pos rfl]
    have hlimit := hvalid.limit_word
    have hlayered := hvalid.toLayered.pushed hn (by omega)
    rw [Store.var, hvalid.toNat_size, hlayered.node_toNode hlast]
    exact hlt

theorem mkRegular (hs : s.Ordered V) (hvalid : s.Valid) {n : Node}
    (hregular : n.high.isNegated = false) (hhasLow : s.Has n.low) (hhasHigh : s.Has n.high)
    (hvar : V n.var) (hlow : s.After n.var n.low) (hhigh : s.After n.var n.high) :
    Sorts (s.mkRegular n) V (· < n.var) := by
  unfold Store.mkRegular
  split
  · exact .ok hs fun var hlt => hlow.mono (Nat.le_of_lt hlt)
  · next hne =>
    split
    · next index hknown =>
      obtain ⟨-, hn⟩ := (hvalid.unique_iff n index).mp hknown
      refine .ok hs fun var hlt => Or.inr ?_
      rw [Store.var, hvalid.node_toNode hn]
      exact hlt
    · exact hs.append hvalid
        ⟨hregular, hne, hhasLow.1, hhasLow.2, hhasHigh.1, hhasHigh.2⟩ hvar hlow hhigh

/-- A node put above later edges comes after all smaller variables. -/
theorem mkNode (hs : s.Ordered V) (hvalid : s.Valid) {var : Nat} {low high : Edge}
    (hhasLow : s.Has low) (hhasHigh : s.Has high) (hvar : V var) (hlow : s.After var low)
    (hhigh : s.After var high) : Sorts (s.mkNode var low high) V (· < var) := by
  unfold Store.mkNode
  by_cases hneg : high.isNegated
  · rw [if_pos hneg]
    have hregular : (-high).isNegated = false := by
      rw [hvalid.isNegated_neg hhasHigh, hneg]
      rfl
    have hmade := hs.mkRegular hvalid (n := ⟨var, -low, -high⟩) hregular hhasLow.neg hhasHigh.neg
      hvar hlow.neg hhigh.neg
    split
    · next e s' hresult =>
      rw [hresult] at hmade
      exact hmade.negateIf true
    · next cause s' hresult =>
      rw [hresult] at hmade
      exact .error hmade.ordered cause
  · rw [if_neg hneg]
    exact hs.mkRegular hvalid (by simpa using hneg) hhasLow hhasHigh hvar hlow hhigh

theorem mkVar (hs : s.Ordered V) (hvalid : s.Valid) {var : Nat} (hvar : V var) :
    Sorts (s.mkVar var) V (· < var) :=
  hs.mkNode hvalid hvalid.has_zero hvalid.has_one hvar (s.after_zero var) (s.after_one var)

theorem mkLiteral (hs : s.Ordered V) (hvalid : s.Valid) {literal : Int32}
    (hvar : V (Word.magnitude literal)) :
    Sorts (s.mkLiteral literal) V (· < Word.magnitude literal) := by
  unfold Store.mkLiteral
  have hmade := hs.mkVar hvalid hvar
  split
  · next e s' hresult =>
    rw [hresult] at hmade
    exact hmade.negateIf _
  · next cause s' hresult =>
    rw [hresult] at hmade
    exact .error hmade.ordered cause

theorem remember (hs : s.Ordered V) {t : Triple} {e : Edge}
    (hafter : ∀ var, t.Forall (s.After var) → s.After var e) : (s.remember t e).Ordered V where
  var_mem := hs.var_mem
  children := hs.children
  computed u r h var hu := by
    rw [computed_remember] at h
    split at h
    · next htu =>
      subst u
      cases h
      exact hafter var hu
    · exact hs.computed u r h var hu

theorem after_cofactor (hs : s.Ordered V) {var : Nat} (b : Bool) {e : Edge} (he : s.Has e)
    (hle : ¬ e.isTerminal → var ≤ s.var e) : s.After var (s.cofactor var b e) := by
  rcases s.cofactor_cases var b e with ⟨hother, heq⟩ | ⟨ht, hvar, heq⟩
  · rw [heq]
    by_cases ht : e.isTerminal
    · exact Or.inl ht
    · rcases hother with hterminal | hne
      · exact absurd hterminal ht
      · have := hle ht
        exact Or.inr (by omega)
  · rw [heq, ← hvar]
    exact hs.after_child he ht b

theorem after_cofactors (hs : s.Ordered V) {t : Triple} (ht : t.Forall s.Has)
    (htest : ¬ t.test.isTerminal) (b : Bool) :
    (s.cofactors t b).Forall (s.After (s.topVar t)) := by
  obtain ⟨-, hleast⟩ := s.topVar_spec htest
  exact ⟨hs.after_cofactor b ht.1 hleast.1, hs.after_cofactor b ht.2.1 hleast.2.1,
    hs.after_cofactor b ht.2.2 hleast.2.2⟩

theorem topVar_mem (hs : s.Ordered V) {t : Triple} (ht : t.Forall s.Has)
    (htest : ¬ t.test.isTerminal) : V (s.topVar t) := by
  obtain ⟨⟨e, hmem, hterminal, hvar⟩, -⟩ := s.topVar_spec htest
  rw [← hvar]
  rcases hmem with rfl | rfl | rfl
  · exact hs.var_mem_of_has ht.1 hterminal
  · exact hs.var_mem_of_has ht.2.1 hterminal
  · exact hs.var_mem_of_has ht.2.2 hterminal

end Ordered

theorem lt_topVar {s : Store} {t : Triple} {var : Nat} (ht : t.Forall (s.After var))
    (htest : ¬ t.test.isTerminal) : var < s.topVar t := by
  obtain ⟨⟨e, hmem, hterminal, hvar⟩, -⟩ := s.topVar_spec htest
  have hafter : s.After var e := by
    rcases hmem with rfl | rfl | rfl
    · exact ht.1
    · exact ht.2.1
    · exact ht.2.2
  rcases hafter with he | hlt
  · exact absurd he hterminal
  · omega

theorem request_after {s : Store} {q : Triple} {var : Nat} (hq : q.Forall (s.After var)) :
    (Request.ofEdges q.test q.onTrue q.onFalse).Forall (s.After var) :=
  Request.ofEdges_forall (s.after_one var) (fun _ he => he.neg) hq.1 hq.2.1 hq.2.2

theorem Asks.after {s s' : Store} {q t : Triple} {negated : Bool} (h : Asks s q s' t negated)
    {var : Nat} (hq : q.Forall (s.After var)) : t.Forall (s'.After var) := by
  have hforall := request_after hq
  rw [h.request] at hforall
  rw [checkTime_store h.inTime]
  exact hforall

/-- The node made of both results comes after all variables before the top one. -/
theorem sorts_node {s' s₀ s₁ : Store} {t : Triple} {l h : Edge} {V : Nat → Prop}
    {φ ψ : (Nat → Bool) → Bool} (hs : s'.Valid) (ht : t.Forall s'.Has)
    (htest : ¬ t.test.isTerminal) (ho : s'.Ordered V) (hlow : Computes s' (.ok l, s₀) φ)
    (hhigh : Computes s₀ (.ok h, s₁) ψ)
    (slow : Sorts (.ok l, s₀) V fun var => (s'.cofactors t false).Forall (s'.After var))
    (shigh : Sorts (.ok h, s₁) V fun var => (s'.cofactors t true).Forall (s₀.After var)) :
    Sorts (s₁.mkNode (s'.topVar t) l h) V (· < s'.topVar t) := by
  have hl : s₀.After (s'.topVar t) l := slow.after l rfl _ (ho.after_cofactors ht htest false)
  have hh : s₁.After (s'.topVar t) h := shigh.after h rfl _
    (forall_after_grown (ho.after_cofactors ht htest true) hlow.grown (hs.has_cofactors ht true))
  exact shigh.ordered.mkNode hhigh.valid (hhigh.grown.has (hlow.has l rfl)) (hhigh.has h rfl)
    (ho.topVar_mem ht htest) (hl.grown hhigh.grown (hlow.has l rfl)) hh

/-- If-then-else keeps a store ordered, and its answer comes after whatever comes before
all of its operands. -/
theorem Unfolds.sorts {s : Store} {q : Triple} {outcome : Outcome Edge} {V : Nat → Prop}
    (h : Unfolds s q outcome) (hs : s.Valid) (hq : q.Forall s.Has) (ho : s.Ordered V) :
    Sorts outcome V fun var => q.Forall (s.After var) := by
  induction h with
  | late time => exact .error (ho.checkTime time) _
  | @answered s s' q e inTime request =>
    refine .ok (ho.checkTime inTime) fun var hvar => ?_
    have hforall := request_after hvar
    rw [request] at hforall
    rw [checkTime_store inTime]
    exact hforall
  | @remembered s s' q t negated e inTime request known =>
    have hordered := ho.checkTime inTime
    refine (Sorts.ok hordered fun var hvar => ?_).negateIf negated
    have hforall := request_after hvar
    rw [request] at hforall
    refine hordered.computed t e known var ?_
    rw [checkTime_store inTime]
    exact hforall
  | lowFails asks low ihlow =>
    have hvalid := asks.valid hs
    have hlow := ihlow hvalid (hvalid.has_cofactors (asks.has hs hq) false)
      (ho.checkTime asks.inTime)
    exact .error hlow.ordered _
  | highFails asks low high ihlow ihhigh =>
    have hvalid := asks.valid hs
    have hhas := hvalid.has_cofactors (asks.has hs hq)
    have hlow := low.computes hvalid (hhas false)
    have hhigh := ihhigh hlow.valid ((hhas true).mono fun _ he => hlow.grown.has he)
      (ihlow hvalid (hhas false) (ho.checkTime asks.inTime)).ordered
    exact .error hhigh.ordered _
  | @full s s' s₀ s₁ s₂ q t negated l h cause asks low high node ihlow ihhigh =>
    have hvalid := asks.valid hs
    have hordered := ho.checkTime asks.inTime
    have hhas := hvalid.has_cofactors (asks.has hs hq)
    have hlow := low.computes hvalid (hhas false)
    have hhas₁ := (hhas true).mono fun _ he => hlow.grown.has he
    have slow := ihlow hvalid (hhas false) hordered
    have shigh := ihhigh hlow.valid hhas₁ slow.ordered
    have hmade := sorts_node hvalid (asks.has hs hq) (asks.test_not_isTerminal hq) hordered hlow
      (high.computes hlow.valid hhas₁) slow shigh
    rw [node] at hmade
    exact .error hmade.ordered _
  | @made s s' s₀ s₁ s₂ q t negated l h e asks low high node ihlow ihhigh =>
    have hvalid := asks.valid hs
    have ht := asks.has hs hq
    have htest := asks.test_not_isTerminal hq
    have hordered := ho.checkTime asks.inTime
    have hhas := hvalid.has_cofactors ht
    have hlow := low.computes hvalid (hhas false)
    have hhas₁ := (hhas true).mono fun _ he => hlow.grown.has he
    have hhigh := high.computes hlow.valid hhas₁
    have slow := ihlow hvalid (hhas false) hordered
    have shigh := ihhigh hlow.valid hhas₁ slow.ordered
    have hmade := sorts_node hvalid ht htest hordered hlow hhigh slow shigh
    have hnode := hhigh.valid.mkNode (s'.topVar t) (hhigh.grown.has (hlow.has l rfl))
      (hhigh.has h rfl)
    rw [node] at hmade hnode
    have hgrown := hlow.grown.trans (hhigh.grown.trans hnode.grown)
    have hafter : ∀ var, t.Forall (s₂.After var) → s₂.After var e := by
      intro var hvar
      exact hmade.after e rfl var (lt_topVar (forall_after_of_grown hvar hgrown ht) htest)
    refine (Sorts.ok (hmade.ordered.remember hafter) fun var hvar => ?_).negateIf negated
    exact hmade.after e rfl var (lt_topVar (asks.after hvar) htest)

namespace Ordered

variable {s : Store} {V : Nat → Prop} {f g h : Edge}

theorem ite (ho : s.Ordered V) (hs : s.Valid) (hf : s.Has f) (hg : s.Has g) (hh : s.Has h) :
    (s.ite f g h).2.Ordered V :=
  ((unfolds_ite hs hf hg hh).sorts hs ⟨hf, hg, hh⟩ ho).ordered

theorem clauseFrom (ho : s.Ordered V) (hs : s.Valid) {current : Edge} (hcurrent : s.Has current)
    {literals : List Int32} (hvars : ∀ l ∈ literals, V (Word.magnitude l)) :
    (s.clauseFrom current literals).2.Ordered V := by
  induction literals generalizing s current with
  | nil => exact ho
  | cons literal rest ih =>
    have hmade := ho.mkLiteral hs (hvars literal List.mem_cons_self)
    have hliteral := hs.mkLiteral literal
    rw [Store.clauseFrom]
    split
    · next cause s₁ heq =>
      rw [heq] at hmade
      exact hmade.ordered
    · next e s₁ heq =>
      rw [heq] at hmade hliteral
      have hhas := hliteral.grown.has hcurrent
      have hdisj := hliteral.valid.disj hhas (hliteral.has e rfl)
      have hordered := hmade.ordered.ite hliteral.valid hhas hliteral.valid.has_one
        (hliteral.has e rfl)
      change (s₁.disj current e).2.Ordered V at hordered
      split
      · next cause s₂ heq₂ =>
        rw [heq₂] at hordered
        exact hordered
      · next joined s₂ heq₂ =>
        rw [heq₂] at hordered hdisj
        exact ih hordered hdisj.valid (hdisj.has joined rfl)
          fun l hl => hvars l (List.mem_cons_of_mem literal hl)

theorem clause (ho : s.Ordered V) (hs : s.Valid) {literals : List Int32}
    (hvars : ∀ l ∈ literals, V (Word.magnitude l)) : (s.clause literals).2.Ordered V :=
  ho.clauseFrom hs hs.has_zero hvars

end Ordered

end GuardedMachines.Diagram.Store
