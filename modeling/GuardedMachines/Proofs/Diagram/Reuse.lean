import GuardedMachines.Proofs.Diagram.GreedyPath
import GuardedMachines.Proofs.Diagram.Recursion
import GuardedMachines.Proofs.Diagram.Room

/-!
If-then-else makes no node in vain. On every store, the nodes that a call adds
are met on the ways down from its answer: those that the two recursive calls add
are below their answers, which become the children of the node made last. In an
ordered store, a function that an edge has already is found again without a new
node. The answer is that edge by canonicity, below which there are old nodes
only; and room is never wanting, since the cofactors of the edge have the
functions that the recursive calls ask for, and its own node joins the two.
-/

namespace GuardedMachines.Diagram

namespace Store

/-- The node of the given index is met on a way down from the edge, whatever the signs. -/
inductive Reaches (s : Store) : Edge → Nat → Prop
  | here (e : Edge) : Reaches s e e.index
  | child {e : Edge} {i : Nat} (ht : ¬ e.isTerminal) (b : Bool)
      (below : Reaches s (s.child b e) i) : Reaches s e i

namespace Reaches

variable {s s' : Store} {e : Edge} {i : Nat}

theorem eq_one (h : s.Reaches e i) (ht : e.isTerminal) : i = 1 := by
  cases h with
  | here => exact (Edge.isTerminal_iff e).mp ht
  | child hnot => exact absurd ht hnot

theorem le_index (h : s.Reaches e i) (hs : s.Layered) (he : s.Has e) : i ≤ e.index := by
  induction h with
  | here e => exact Nat.le_refl _
  | child ht b below ih =>
    exact Nat.le_trans (ih (hs.has_child he ht b)) (Nat.le_of_lt (hs.index_child_lt he ht b))

theorem neg (h : s.Reaches e i) (hs : s.Layered) (he : s.Has e) : s.Reaches (-e) i := by
  induction h with
  | here e =>
    rw [← Edge.index_neg e]
    exact .here (-e)
  | @child e i ht b below ih =>
    refine .child (by rwa [Edge.isTerminal_neg]) b ?_
    rw [hs.child_neg he]
    exact ih (hs.has_child he ht b)

theorem negateIf (h : s.Reaches e i) (hs : s.Layered) (he : s.Has e) (b : Bool) :
    s.Reaches (e.negateIf b) i := by
  cases b with
  | false => exact h
  | true => exact h.neg hs he

theorem grown (h : s.Reaches e i) (hs : s.Layered) (he : s.Has e) (hgrown : s.Extends s') :
    s'.Reaches e i := by
  induction h with
  | here e => exact .here e
  | @child e i ht b below ih =>
    refine .child ht b ?_
    rw [hgrown.child_eq he]
    exact ih (hs.has_child he ht b)

theorem toNode {n : Node} {index : Nat} (hs : s.Layered) (hindex : 2 ≤ index)
    (hn : s.nodes[index]? = some n) (h : s.Reaches n.low i ∨ s.Reaches n.high i) :
    s.Reaches (.toNode index) i := by
  have ht := hs.toNode_not_isTerminal hindex hn
  rcases h with hlow | hhigh
  · refine .child ht false ?_
    rwa [hs.child_toNode hn]
  · refine .child ht true ?_
    rwa [hs.child_toNode hn]

end Reaches

def Added (s s' : Store) (i : Nat) : Prop := s.nodes.size ≤ i ∧ i < s'.nodes.size

theorem not_added_self (s : Store) (i : Nat) : ¬ Added s s i :=
  fun h => Nat.not_lt.mpr h.1 h.2

/-- A node that is added between two stores is added before or after one in between. -/
theorem Added.split {s s'' : Store} {i : Nat} (h : Added s s'' i) (s' : Store) :
    Added s s' i ∨ Added s' s'' i := by
  by_cases hi : i < s'.nodes.size
  · exact Or.inl ⟨h.1, hi⟩
  · exact Or.inr ⟨Nat.not_lt.mp hi, h.2⟩

namespace Valid

variable {s s' : Store} {e low high : Edge} {i : Nat}

theorem reaches_mkRegular (hs : s.Valid) {n : Node} (hregular : n.high.isNegated = false)
    (hlow : s.Has n.low) (hhigh : s.Has n.high) (h : s.mkRegular n = (.ok e, s'))
    (hi : s.Reaches n.low i ∨ s.Reaches n.high i ∨ Added s s' i) : s'.Reaches e i := by
  unfold Store.mkRegular at h
  split at h
  · next heq =>
    cases h
    rcases hi with hi | hi | hadded
    · exact hi
    · rwa [heq]
    · exact absurd hadded (s.not_added_self i)
  · next hne =>
    split at h
    · next index hknown =>
      cases h
      obtain ⟨hindex, hn⟩ := (hs.unique_iff n index).mp hknown
      rcases hi with hi | hi | hadded
      · exact .toNode hs.toLayered hindex hn (Or.inl hi)
      · exact .toNode hs.toLayered hindex hn (Or.inr hi)
      · exact absurd hadded (s.not_added_self i)
    · next hnew =>
      rw [append_eq, hs.toNat_size] at h
      split at h
      · cases h
      · next hroom =>
        cases h
        have hgrown := s.extends_pushed n
        have hlast : (s.pushed n).nodes[s.nodes.size]? = some n := by
          rw [s.getElem?_pushed n, if_pos rfl]
        have hvalid := hs.pushed ⟨hregular, hne, hlow.1, hlow.2, hhigh.1, hhigh.2⟩ hnew
          (Nat.not_le.mp hroom)
        have hlayered := hvalid.toLayered
        rcases hi with hi | hi | ⟨hge, hlt⟩
        · exact .toNode hlayered hs.size_ge hlast (Or.inl (hi.grown hs.toLayered hlow hgrown))
        · exact .toNode hlayered hs.size_ge hlast (Or.inr (hi.grown hs.toLayered hhigh hgrown))
        · rw [s.size_pushed n] at hlt
          have hindex : i = (Edge.toNode s.nodes.size).index := by
            rw [Edge.index_toNode (hlayered.lt_of_getElem? hlast)]
            omega
          rw [hindex]
          exact .here _

/-- The edge that joins two others leads to all that they lead to, and to the node that was
added for it, if there is one. -/
theorem reaches_mkNode (hs : s.Valid) {var : Nat} (hlow : s.Has low) (hhigh : s.Has high)
    (h : s.mkNode var low high = (.ok e, s'))
    (hi : s.Reaches low i ∨ s.Reaches high i ∨ Added s s' i) : s'.Reaches e i := by
  unfold Store.mkNode at h
  by_cases hneg : high.isNegated
  · rw [if_pos hneg] at h
    have hregular : (-high).isNegated = false := by
      rw [hs.isNegated_neg hhigh, hneg]
      rfl
    have hmade := hs.mkRegular (n := ⟨var, -low, -high⟩) hregular hlow.neg hhigh.neg
    split at h
    · next d s'' hresult =>
      cases h
      rw [hresult] at hmade
      have hi' : s.Reaches (-low) i ∨ s.Reaches (-high) i ∨ Added s s' i :=
        hi.imp (·.neg hs.toLayered hlow) (Or.imp_left (·.neg hs.toLayered hhigh))
      have hreaches :=
        hs.reaches_mkRegular (n := ⟨var, -low, -high⟩) hregular hlow.neg hhigh.neg hresult hi'
      exact hreaches.neg hmade.valid.toLayered (hmade.has d rfl)
    · cases h
  · rw [if_neg hneg] at h
    exact hs.reaches_mkRegular (n := ⟨var, low, high⟩) (by simpa using hneg) hlow hhigh h hi

/-- A node made of the children of an edge is the node of that edge. -/
theorem mkNode_children (hs : s.Valid) (he : s.Has e) (ht : ¬ e.isTerminal) :
    s.mkNode (s.var e) (s.low e) (s.high e) = (.ok e, s) := by
  have hn := hs.node_proper he ht
  have hknown := hs.unique_ofNat (he.two_le ht) (s.node_eq he)
  have hregular : s.mkRegular (s.node e) = (.ok (.toNode e.index), s) := by
    unfold Store.mkRegular
    rw [if_neg hn.low_ne_high, hknown]
    dsimp only
    rw [hs.toNat_ofNat (s.node_eq he)]
  rw [mkNode_eq, hs.isNegated_high he ht]
  unfold low high
  rcases e.eq_toNode_or_neg with ⟨hsign, heq⟩ | ⟨hsign, heq⟩
  · rw [hsign, if_neg Bool.false_ne_true]
    exact hregular.trans (by rw [← heq])
  · rw [hsign, if_pos rfl]
    simp only [Edge.negateIf, if_true, Edge.neg_neg]
    rw [show (⟨s.var e, (s.node e).low, (s.node e).high⟩ : Node) = s.node e from rfl, hregular]
    show (Except.ok (-Edge.toNode e.index), s) = _
    rw [← heq]

end Valid

/-- A node made of the two cofactors of an edge is that edge again. -/
theorem Valid.mkNode_cofactors {s : Store} (hs : s.Valid) {e : Edge} (he : s.Has e) (var : Nat) :
    s.mkNode var (s.cofactor var false e) (s.cofactor var true e) = (.ok e, s) := by
  by_cases hother : e.isTerminal ∨ s.var e ≠ var
  · have hsame : ∀ b, s.cofactor var b e = e := by
      intro b
      rcases s.cofactor_cases var b e with ⟨-, heq⟩ | ⟨ht, hvar, -⟩
      · exact heq
      · exact absurd hother (not_or.mpr ⟨ht, not_not.mpr hvar⟩)
    rw [hsame, hsame, s.mkNode_self]
  · obtain ⟨ht, hvar⟩ := not_or.mp hother
    have hchild : ∀ b, s.cofactor var b e = s.child b e := by
      intro b
      rcases s.cofactor_cases var b e with ⟨hne, -⟩ | ⟨-, -, heq⟩
      · exact absurd hne hother
      · exact heq
    rw [hchild, hchild, ← not_not.mp hvar]
    exact hs.mkNode_children he ht

theorem Extends.cofactor_eq {s s' : Store} (h : s.Extends s') {e : Edge} (he : s.Has e) (var : Nat)
    (b : Bool) : s'.cofactor var b e = s.cofactor var b e := by
  simp only [cofactor, var_eq h he, low, high, h.node_eq he]

/-- Every node that if-then-else adds is met on a way down from its answer. -/
theorem Unfolds.reaches_added {s : Store} {q : Triple} {outcome : Outcome Edge}
    (h : Unfolds s q outcome) (hs : s.Valid) (hq : q.Forall s.Has) {r : Edge}
    (hr : outcome.1 = .ok r) {i : Nat} (hi : Added s outcome.2 i) : outcome.2.Reaches r i := by
  induction h generalizing r with
  | late time => cases hr
  | answered inTime request =>
    rw [checkTime_store inTime] at hi
    exact absurd hi (not_added_self _ i)
  | remembered inTime request known =>
    rw [checkTime_store inTime] at hi
    exact absurd hi (not_added_self _ i)
  | lowFails asks low ihlow => cases hr
  | highFails asks low high ihlow ihhigh => cases hr
  | full asks low high node ihlow ihhigh => cases hr
  | @made s s' s₀ s₁ s₂ q t negated l h e asks low high node ihlow ihhigh =>
    cases hr
    obtain ⟨hvalid, hhas₀, -⟩ := (Calls.low asks).descends hs hq
    obtain ⟨hvalid₀, hhas₁, -⟩ := (Calls.high asks low).descends hs hq
    have hlow := low.computes hvalid hhas₀
    have hhigh := high.computes hvalid₀ hhas₁
    have hl := hlow.has l rfl
    have hh := hhigh.has h rfl
    have hnode := hhigh.valid.mkNode (s'.topVar t) (hhigh.grown.has hl) hh
    rw [node] at hnode
    have hadded : Added s' s₂ i := by
      rw [checkTime_store asks.inTime]
      exact hi
    -- The node was added by the low call, by the high one, or last.
    have hreaches : s₂.Reaches e i := by
      refine hhigh.valid.reaches_mkNode (hhigh.grown.has hl) hh node ?_
      rcases hadded.split s₀ with h₀ | h₀
      · exact Or.inl ((ihlow hvalid hhas₀ rfl h₀).grown hvalid₀.toLayered hl hhigh.grown)
      · rcases h₀.split s₁ with h₁ | h₁
        · exact Or.inr (Or.inl (ihhigh hvalid₀ hhas₁ rfl h₁))
        · exact Or.inr (Or.inr h₁)
    have he := hnode.has e rfl
    exact (hreaches.negateIf hnode.valid.toLayered he negated).grown hnode.valid.toLayered
      (he.negateIf negated) (s₂.extends_remember t e)

def Denotes (s : Store) (r : Edge) (q : Triple) : Prop := ∀ ρ, s.value ρ r = q.holds (s.value ρ)

section Ordered

variable {s s' : Store} {V : Nat → Prop} {q t : Triple} {r : Edge}

theorem Denotes.grown (h : s.Denotes r q) (hs : s.Layered) (hr : s.Has r) (hq : q.Forall s.Has)
    (hgrown : s.Extends s') : s'.Denotes r q := by
  intro ρ
  rw [hgrown.value_eq hs ρ hr, hgrown.holds_eq hs ρ hq]
  exact h ρ

theorem Ordered.holds_update (ho : s.Ordered V) (hs : s.Layered) (hq : q.Forall s.Has) {var : Nat}
    (hafter : q.Forall (s.After var)) (ρ : Nat → Bool) (b : Bool) :
    q.holds (s.value (Function.update ρ var b)) = q.holds (s.value ρ) :=
  Triple.holds_congr ⟨ho.value_update hs hq.1 hafter.1 ρ b,
    ho.value_update hs hq.2.1 hafter.2.1 ρ b, ho.value_update hs hq.2.2 hafter.2.2 ρ b⟩

/-- An edge with the function of a request does not come before the operands, since it depends
on its own variable. -/
theorem Denotes.topVar_le (h : s.Denotes r t) (ho : s.Ordered V) (hs : s.Valid) (hr : s.Has r)
    (ht : t.Forall s.Has) (htest : ¬ t.test.isTerminal) (hterminal : ¬ r.isTerminal) :
    s.topVar t ≤ s.var r := by
  by_contra hlt
  have hafter : t.Forall (s.After (s.var r)) := by
    refine (s.topVar_spec htest).2.mono fun e hle => ?_
    by_cases he : e.isTerminal
    · exact Or.inl he
    · have := hle he
      exact Or.inr (by omega)
  obtain ⟨ρ, hρ⟩ := ho.dependsOn_var hs hr hterminal
  apply hρ
  have hside : ∀ b, s.value (Function.update ρ (s.var r) b) r = t.holds (s.value ρ) := by
    intro b
    rw [h, ho.holds_update hs.toLayered ht hafter]
  exact (hside true).trans (hside false).symm

/-- The cofactors of an edge have the functions of the cofactors of the request, also where the
edge does not depend on the top variable of the operands. -/
theorem Denotes.cofactor (h : s.Denotes r t) (ho : s.Ordered V) (hs : s.Valid) (hr : s.Has r)
    (ht : t.Forall s.Has) (htest : ¬ t.test.isTerminal) (b : Bool) :
    s.Denotes (s.cofactor (s.topVar t) b r) (s.cofactors t b) := by
  intro ρ
  have hlayered := hs.toLayered
  have hafter := ho.after_cofactor b hr (h.topVar_le ho hs hr ht htest)
  -- With the top variable on the side in question both sides have the values of the whole.
  let ρ' := Function.update ρ (s.topVar t) b
  have hb : ρ' (s.topVar t) = b := Function.update_self ..
  have hedge := hlayered.value_cofactor ρ' (s.topVar t) hr
  have hoperands := hlayered.holds_cofactors ρ' ht
  rw [hb] at hedge hoperands
  calc s.value ρ (s.cofactor (s.topVar t) b r)
      = s.value ρ' (s.cofactor (s.topVar t) b r) :=
        (ho.value_update hlayered (hlayered.has_cofactor _ b hr) hafter ρ b).symm
    _ = s.value ρ' r := hedge
    _ = t.holds (s.value ρ') := h ρ'
    _ = (s.cofactors t b).holds (s.value ρ') := hoperands.symm
    _ = (s.cofactors t b).holds (s.value ρ) :=
        ho.holds_update hlayered (hlayered.has_cofactors ht b) (ho.after_cofactors ht htest b) ρ b

/-- The standard form of a request is denoted by the same edge, with the sign of the answer. -/
theorem Denotes.standard {negated : Bool} (h : s.Denotes r q) (hs : s.Valid) (hr : s.Has r)
    (hq : q.Forall s.Has) (asks : Asks s q s' t negated) : s'.Denotes (r.negateIf negated) t := by
  intro ρ
  rw [(asks.valid hs).value_negateIf ρ (asks.grown.has hr), asks.grown.value_eq hs.toLayered ρ hr,
    h ρ, ← asks.holds hs hq ρ]
  simp

/-- What the two recursive calls ask for is had by the cofactors of the edge. -/
theorem Denotes.sides {negated : Bool} (h : s.Denotes r q) (ho : s.Ordered V) (hs : s.Valid)
    (hr : s.Has r) (hq : q.Forall s.Has) (asks : Asks s q s' t negated) (b : Bool) :
    s'.Has (s'.cofactor (s'.topVar t) b (r.negateIf negated)) ∧
      s'.Denotes (s'.cofactor (s'.topVar t) b (r.negateIf negated)) (s'.cofactors t b) := by
  have hvalid := asks.valid hs
  have hr' := (asks.grown.has hr).negateIf negated
  exact ⟨hvalid.has_cofactor _ b hr', (h.standard hs hr hq asks).cofactor
    (ho.checkTime asks.inTime) hvalid hr' (asks.has hs hq) (asks.test_not_isTerminal hq) b⟩

/-- The low call does not change what its successor is asked for. -/
theorem Denotes.side_after_low {s₀ : Store} {l : Edge} {negated : Bool} (h : s.Denotes r q)
    (ho : s.Ordered V) (hs : s.Valid) (hr : s.Has r) (hq : q.Forall s.Has)
    (asks : Asks s q s' t negated) (low : Unfolds s' (s'.cofactors t false) (.ok l, s₀)) :
    s₀.Has (s'.cofactor (s'.topVar t) true (r.negateIf negated)) ∧
      s₀.Denotes (s'.cofactor (s'.topVar t) true (r.negateIf negated)) (s'.cofactors t true) := by
  obtain ⟨hvalid, hhas₀, -⟩ := (Calls.low asks).descends hs hq
  obtain ⟨hside, hasked⟩ := h.sides ho hs hr hq asks true
  have hgrown := (low.computes hvalid hhas₀).grown
  exact ⟨hgrown.has hside, hasked.grown hvalid.toLayered hside
    (hvalid.has_cofactors (asks.has hs hq) true) hgrown⟩

theorem Asks.nodes_eq {negated : Bool} (h : Asks s q s' t negated) : s'.nodes = s.nodes := by
  rw [checkTime_store h.inTime]

/-- A call whose function an edge has already answers that edge and adds no node. -/
theorem Unfolds.eq_of_denotes {outcome : Outcome Edge} (h : Unfolds s q outcome) (hs : s.Valid)
    (hq : q.Forall s.Has) (ho : s.Ordered V) (hr : s.Has r) (hdenotes : s.Denotes r q) {e : Edge}
    (he : outcome.1 = .ok e) : e = r ∧ outcome.2.nodes = s.nodes := by
  have hcomputes := h.computes hs hq
  have heq : e = r := by
    apply (h.sorts hs hq ho).ordered.eq_of_same hcomputes.valid (hcomputes.has e he)
      (hcomputes.grown.has hr)
    intro ρ
    rw [hcomputes.value e he ρ, hcomputes.grown.value_eq hs.toLayered ρ hr, hdenotes ρ]
  refine ⟨heq, ?_⟩
  subst heq
  -- What is added would be below an old edge.
  have hsize : outcome.2.nodes.size ≤ s.nodes.size := by
    by_contra hlt
    have hlast : Added s outcome.2 s.nodes.size := ⟨Nat.le_refl _, Nat.not_le.mp hlt⟩
    have hle := (h.reaches_added hs hq he hlast).le_index hcomputes.valid.toLayered
      (hcomputes.has e he)
    exact absurd hr.2 (Nat.not_lt.mpr hle)
  have hlist := hcomputes.grown.nodes.eq_of_length_le (by simpa using hsize)
  exact (Array.toList_inj.mp hlist).symm

theorem checkTime_error {cause : Exhaustion} (h : s.checkTime = (.error cause, s')) :
    ∃ limit, s.limits.timeout = some limit ∧ cause = .timeout limit := by
  unfold checkTime at h
  split at h
  · cases h
  · next limit htimeout =>
    split at h
    · cases h
      exact ⟨limit, htimeout, rfl⟩
    · cases h

/-- A call whose function an edge has already reaches no bound but the timeout. -/
theorem Unfolds.timeout_of_denotes {outcome : Outcome Edge} (h : Unfolds s q outcome)
    (hs : s.Valid) (hq : q.Forall s.Has) (ho : s.Ordered V) (hr : s.Has r)
    (hdenotes : s.Denotes r q) {cause : Exhaustion} (hcause : outcome.1 = .error cause) :
    outcome.2.nodes = s.nodes ∧
      ∃ limit, s.limits.timeout = some limit ∧ cause = .timeout limit := by
  induction h generalizing r with
  | late time =>
    cases hcause
    refine ⟨?_, checkTime_error time⟩
    rw [checkTime_store time]
  | answered inTime request => cases hcause
  | remembered inTime request known => cases hcause
  | made asks low high node ihlow ihhigh => cases hcause
  | @lowFails s s' s₀ q t negated _ asks low ihlow =>
    obtain ⟨hvalid, hhas₀, -⟩ := (Calls.low asks).descends hs hq
    obtain ⟨hside, hasked⟩ := hdenotes.sides ho hs hr hq asks false
    obtain ⟨hnodes, htimeout⟩ :=
      ihlow hvalid hhas₀ (ho.checkTime asks.inTime) hside hasked hcause
    rw [asks.grown.limits] at htimeout
    exact ⟨hnodes.trans asks.nodes_eq, htimeout⟩
  | @highFails s s' s₀ s₁ q t negated l _ asks low high ihlow ihhigh =>
    obtain ⟨hvalid, hhas₀, -⟩ := (Calls.low asks).descends hs hq
    obtain ⟨hvalid₀, hhas₁, -⟩ := (Calls.high asks low).descends hs hq
    have hordered := ho.checkTime asks.inTime
    have hordered₀ := (low.sorts hvalid hhas₀ hordered).ordered
    obtain ⟨hside₀, hasked₀⟩ := hdenotes.sides ho hs hr hq asks false
    obtain ⟨hside₁, hasked₁⟩ := hdenotes.side_after_low ho hs hr hq asks low
    obtain ⟨-, hnodes₀⟩ := low.eq_of_denotes hvalid hhas₀ hordered hside₀ hasked₀ rfl
    obtain ⟨hnodes, htimeout⟩ := ihhigh hvalid₀ hhas₁ hordered₀ hside₁ hasked₁ hcause
    rw [(asks.grown.trans (low.computes hvalid hhas₀).grown).limits] at htimeout
    exact ⟨hnodes.trans (hnodes₀.trans asks.nodes_eq), htimeout⟩
  | @full s s' s₀ s₁ s₂ q t negated l h _ asks low high node ihlow ihhigh =>
    obtain ⟨hvalid, hhas₀, -⟩ := (Calls.low asks).descends hs hq
    obtain ⟨hvalid₀, hhas₁, -⟩ := (Calls.high asks low).descends hs hq
    have hordered := ho.checkTime asks.inTime
    have hordered₀ := (low.sorts hvalid hhas₀ hordered).ordered
    obtain ⟨hside₀, hasked₀⟩ := hdenotes.sides ho hs hr hq asks false
    obtain ⟨hside₁, hasked₁⟩ := hdenotes.side_after_low ho hs hr hq asks low
    obtain ⟨hl, -⟩ := low.eq_of_denotes hvalid hhas₀ hordered hside₀ hasked₀ rfl
    obtain ⟨hh, -⟩ := high.eq_of_denotes hvalid₀ hhas₁ hordered₀ hside₁ hasked₁ rfl
    -- Both answers are cofactors of the edge, whose own node joins them.
    have hhigh := high.computes hvalid₀ hhas₁
    have hgrown := (low.computes hvalid hhas₀).grown.trans hhigh.grown
    have hr' := (asks.grown.has hr).negateIf negated
    have hjoined := hhigh.valid.mkNode_cofactors (hgrown.has hr') (s'.topVar t)
    rw [hgrown.cofactor_eq hr', hgrown.cofactor_eq hr', ← hl, ← hh, node] at hjoined
    cases hjoined

end Ordered

end Store

/-- If-then-else on every store that a run leaves, where the bound on the nodes leaves every index
room beside the sign of an edge. Whatever the order of the variables, each node that a call adds
is met on a way down from its answer. If the run respects the order, and an edge has the function
asked for, then a call adds no node and answers that edge, however full the store is, unless a
timeout that was set has passed. -/
theorem no_garbage_of_runs (limits : Limits) (hlimit : limits.nodeLimit ≤ 2147483648)
    (clock : Clock) (s : Store) (f g h : Edge) (hf : s.Has f) (hg : s.Has g) (hh : s.Has h) :
    (Runs (fun s op => op.Allowed s) (.new limits clock) s →
      ∀ e, (s.ite f g h).1 = .ok e →
        ∀ i, s.nodes.size ≤ i → i < (s.ite f g h).2.nodes.size → (s.ite f g h).2.Reaches e i) ∧
    (Runs OrderedCall (.new limits clock) s →
      ∀ r, s.Has r → (∀ ρ, s.value ρ r = if s.value ρ f then s.value ρ g else s.value ρ h) →
        (s.ite f g h).2.nodes = s.nodes ∧
        ((s.ite f g h).1 = .ok r ∨
          ∃ limit, limits.timeout = some limit ∧ (s.ite f g h).1 = .error (.timeout limit))) := by
  have hnew := Store.new_valid hlimit clock
  have hq : Triple.Forall s.Has ⟨f, g, h⟩ := ⟨hf, hg, hh⟩
  constructor
  · intro before e he i hge hlt
    obtain ⟨hs, -⟩ := before.valid_grown (fun _ _ hcall => hcall) hnew
    exact (Store.unfolds_ite hs hf hg hh).reaches_added hs hq he ⟨hge, hlt⟩
  · intro before r hr hdenotes
    obtain ⟨hs, ho⟩ := before.valid_ordered hlimit
    obtain ⟨-, hgrown⟩ := before.valid_grown (fun _ _ hcall => hcall.1) hnew
    have hunfolds := Store.unfolds_ite hs hf hg hh
    cases hanswer : (s.ite f g h).1 with
    | ok e =>
      obtain ⟨heq, hnodes⟩ := hunfolds.eq_of_denotes hs hq ho hr hdenotes hanswer
      exact ⟨hnodes, Or.inl (congrArg Except.ok heq)⟩
    | error cause =>
      obtain ⟨hnodes, limit, htimeout, hcause⟩ :=
        hunfolds.timeout_of_denotes hs hq ho hr hdenotes hanswer
      rw [hgrown.limits] at htimeout
      exact ⟨hnodes, Or.inr ⟨limit, htimeout, congrArg Except.error hcause⟩⟩

/-- Joining the third variable to the conjunction of the first two takes two more nodes, and the
store is full. Joining the second variable to that conjunction gives the second variable, which is
found although the recursion starts at the first one. -/
theorem no_garbage_of_full_store :
    let s₁ := (Operation.run (.new ⟨none, 8⟩ .stopped) (.var 1)).2
    let s₂ := (Operation.run s₁ (.var 2)).2
    let s₃ := (Operation.run s₂ (.var 3)).2
    let s₄ := (Operation.run s₃ (.conj (.toNode 2) (.toNode 3))).2
    let joined := s₄.ite (.toNode 5) .one (.toNode 4)
    joined.1 = .ok (.toNode 7) ∧ s₄.nodes.size = 6 ∧ joined.2.nodes.size = 8 ∧
    joined.2.Reaches (.toNode 7) 6 ∧ joined.2.Reaches (.toNode 7) 7 ∧
    (joined.2.conj (.toNode 2) (.toNode 4)).1 = .error (.nodeLimit 8) ∧
    (joined.2.ite (.toNode 5) .one (.toNode 3)).1 = .ok (.toNode 3) ∧
    (joined.2.ite (.toNode 5) .one (.toNode 3)).2.nodes = joined.2.nodes := by
  intro s₁ s₂ s₃ s₄ joined
  have hcall₁ : OrderedCall (.new ⟨none, 8⟩ .stopped) (.var 1) := ⟨Nat.succ_ne_zero 0, trivial⟩
  have hcall₂ : OrderedCall s₁ (.var 2) := ⟨Nat.succ_ne_zero 1, trivial⟩
  have hcall₃ : OrderedCall s₂ (.var 3) := ⟨Nat.succ_ne_zero 2, trivial⟩
  have hfirst : s₃.Has (.toNode 2) := ⟨by decide, by decide⟩
  have hsecond : s₃.Has (.toNode 3) := ⟨by decide, by decide⟩
  have hcall₄ : OrderedCall s₃ (.conj (.toNode 2) (.toNode 3)) := ⟨⟨hfirst, hsecond⟩, trivial⟩
  have hboth : s₄.Has (.toNode 5) := ⟨by decide, by decide +kernel⟩
  have hthird : s₄.Has (.toNode 4) := ⟨by decide, by decide +kernel⟩
  have run₃ : Runs OrderedCall (.new ⟨none, 8⟩ .stopped) s₃ :=
    .call (.call (.call .start _ hcall₁) _ hcall₂) _ hcall₃
  have hvalid₃ := (run₃.valid_ordered (by decide)).1
  have hconj := hvalid₃.conj hfirst hsecond
  have hvalid₄ : s₄.Valid := hconj.valid
  have hsecond₄ : s₄.Has (.toNode 3) := hconj.grown.has hsecond
  have hcall₅ : OrderedCall s₄ (.ite (.toNode 5) .one (.toNode 4)) :=
    ⟨⟨hboth, hvalid₄.has_one, hthird⟩, trivial⟩
  have run₅ : Runs OrderedCall (.new ⟨none, 8⟩ .stopped) joined.2 :=
    .call (.call run₃ _ hcall₄) (.ite (.toNode 5) .one (.toNode 4)) hcall₅
  have hgrown : s₄.Extends joined.2 := (hvalid₄.ite hboth hvalid₄.has_one hthird).grown
  have hjoined : joined.1 = .ok (.toNode 7) := by decide +kernel
  have hsize₄ : s₄.nodes.size = 6 := by decide +kernel
  have hsize₅ : joined.2.nodes.size = 8 := by decide +kernel
  obtain ⟨hadded, -⟩ := no_garbage_of_runs ⟨none, 8⟩ (by decide) .stopped s₄ (.toNode 5) .one
    (.toNode 4) hboth hvalid₄.has_one hthird
  have hreaches := hadded (.call (.call (.call (.call .start _ hcall₁.1) _ hcall₂.1) _ hcall₃.1) _
    hcall₄.1) (.toNode 7) hjoined
  have hvalue : ∀ ρ, joined.2.value ρ (.toNode 3) =
      if joined.2.value ρ (.toNode 5) then joined.2.value ρ .one
      else joined.2.value ρ (.toNode 3) := by
    intro ρ
    have hconj' : s₄.value ρ (.toNode 5) = (s₃.value ρ (.toNode 2) && s₃.value ρ (.toNode 3)) :=
      hconj.value (.toNode 5) (by decide +kernel) ρ
    have hsecond' : s₄.value ρ (.toNode 3) = s₃.value ρ (.toNode 3) :=
      hconj.grown.value_eq hvalid₃.toLayered ρ hsecond
    rw [hgrown.value_eq hvalid₄.toLayered ρ hboth, hgrown.value_eq hvalid₄.toLayered ρ hsecond₄,
      joined.2.value_one, hconj', hsecond']
    cases s₃.value ρ (.toNode 2) <;> cases s₃.value ρ (.toNode 3) <;> rfl
  obtain ⟨-, hreused⟩ := no_garbage_of_runs ⟨none, 8⟩ (by decide) .stopped joined.2 (.toNode 5) .one
    (.toNode 3) (hgrown.has hboth) (hgrown.has hvalid₄.has_one) (hgrown.has hsecond₄)
  obtain ⟨hnodes, hanswer⟩ := hreused run₅ (.toNode 3) (hgrown.has hsecond₄) hvalue
  refine ⟨hjoined, hsize₄, hsize₅, ?_, ?_, by decide +kernel, ?_, hnodes⟩
  · exact hreaches 6 (by rw [hsize₄]) (by rw [hsize₅]; decide)
  · exact hreaches 7 (by rw [hsize₄]; decide) (by rw [hsize₅]; decide)
  · rcases hanswer with hok | ⟨limit, htimeout, -⟩
    · exact hok
    · cases htimeout

/-- With room for two nodes more, the conjunction of two variables adds a node and answers the
negation of another variable, from which the new node is not reached. -/
theorem garbage_beyond_words :
    ∃ (s : Store) (f g h e : Edge) (i : Nat),
      Runs (fun s op => op.Allowed s) (.new ⟨none, 2147483650⟩ .stopped) s ∧
      s.Has f ∧ s.Has g ∧ s.Has h ∧ (s.ite f g h).1 = .ok e ∧
      s.nodes.size ≤ i ∧ i < (s.ite f g h).2.nodes.size ∧ ¬ (s.ite f g h).2.Reaches e i := by
  obtain ⟨s, s', hruns, hbefore, hcall, hconj, hlists, -⟩ :=
    Store.exists_conjunction .stopped (n := 2147483647) (by decide) (Nat.lt_succ_self 2147483649)
  have hsize := hbefore.size_eq
  have hsize' := hlists.size_eq
  rw [Store.length_variableNodes] at hsize
  rw [List.length_append, Store.length_variableNodes, List.length_singleton] at hsize'
  have hzero : s.Has .zero := ⟨Nat.le_refl 1, by rw [hsize, Edge.index_zero]; decide⟩
  have hnode : s'.node (-.toNode 2147483647) = ⟨2147483646, .zero, .one⟩ :=
    hlists.node_variable (List.prefix_append _ _) (i := 2147483645) rfl (by decide)
  have hchild : ∀ b, (s'.child b (-.toNode 2147483647)).isTerminal := by
    intro b
    simp only [Store.child, Store.low, Store.high, hnode]
    cases b <;> rfl
  have hite : s.ite (.toNode 2) (.toNode 3) .zero = (.ok (-.toNode 2147483647), s') := hconj
  refine ⟨s, .toNode 2, .toNode 3, .zero, -.toNode 2147483647, 2147483649,
    hruns.mono fun _ _ hok => hok.1.1, hcall.1.1, hcall.1.2, hzero, congrArg Prod.fst hite, ?_⟩
  rw [hite, hsize, hsize']
  refine ⟨Nat.le_refl _, Nat.lt_succ_self _, ?_⟩
  intro hreaches
  cases hreaches with
  | child ht b below => exact absurd (below.eq_one (hchild b)) (by decide)

end GuardedMachines.Diagram
