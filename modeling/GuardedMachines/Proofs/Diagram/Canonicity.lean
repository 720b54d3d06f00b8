import GuardedMachines.Proofs.Diagram.Counting
import GuardedMachines.Proofs.Diagram.Crowded
import GuardedMachines.Proofs.Diagram.Satisfaction

/-!
Canonicity. Two edges of a valid and ordered store have the same function only
if they are equal, signs included. Below two such edges the children on either
side of the least variable have the same function again; an edge cannot have
the function of one that comes after its variable, because its two children
differ; and the high child of an edge shows the sign of the edge, because high
edges are stored without sign. Hence the answer of a call depends on nothing
but the function that it asks for.
-/

namespace GuardedMachines.Diagram

theorem Edge.eq_of_index_eq {d e : Edge} (hindex : d.index = e.index)
    (hsign : d.isNegated = e.isNegated) : d = e := by
  rcases d.eq_toNode_or_neg with ⟨hd, hd'⟩ | ⟨hd, hd'⟩
  · rcases e.eq_toNode_or_neg with ⟨-, he'⟩ | ⟨he, -⟩
    · rw [hd', he', hindex]
    · rw [hd, he] at hsign
      cases hsign
  · rcases e.eq_toNode_or_neg with ⟨he, -⟩ | ⟨-, he'⟩
    · rw [hd, he] at hsign
      cases hsign
    · rw [hd', he', hindex]

namespace Store

variable {s : Store} {r q : Edge} {V : Nat → Prop}

/-- The high child shows the sign of an edge. -/
theorem Layered.isNegated_high (hs : s.Layered) (hr : s.Has r) (ht : ¬ r.isTerminal) :
    (s.high r).isNegated = r.isNegated := by
  have hn := hs.node_proper hr ht
  have hregular := hn.high_regular
  unfold high
  cases hsign : r.isNegated with
  | false => exact hregular
  | true =>
    have hhigh : s.Has (s.node r).high := ⟨hn.high_pos, Nat.lt_trans hn.high_lt hr.2⟩
    show (-(s.node r).high).isNegated = true
    rw [hs.isNegated_neg hhigh, hregular]
    rfl

/-- Edges with one variable and the same children are equal, because a node is stored once. -/
theorem Valid.eq_of_children (hs : s.Valid) (hr : s.Has r) (hq : s.Has q) (htr : ¬ r.isTerminal)
    (htq : ¬ q.isTerminal) (hvar : s.var r = s.var q) (hlow : s.low r = s.low q)
    (hhigh : s.high r = s.high q) : r = q := by
  have hsign : r.isNegated = q.isNegated := by
    rw [← hs.isNegated_high hr htr, ← hs.isNegated_high hq htq, hhigh]
  have hnode : s.node r = s.node q := by
    unfold low high at *
    rw [hsign] at hlow hhigh
    have hlow' := Edge.negateIf_injective _ hlow
    have hhigh' := Edge.negateIf_injective _ hhigh
    show Node.mk (s.node r).var (s.node r).low (s.node r).high = s.node q
    rw [hlow', hhigh', show (s.node r).var = (s.node q).var from hvar]
  apply Edge.eq_of_index_eq _ hsign
  apply hs.index_unique (hr.two_le htr) (hq.two_le htq) (s.node_eq hr)
  rw [hnode]
  exact s.node_eq hq

/-- An edge that goes on does not have the function of one that comes after its variable, as
long as its children are told apart from that one by their functions. -/
theorem Ordered.not_after_of_same (ho : s.Ordered V) (hs : s.Valid) (hr : s.Has r)
    (ht : ¬ r.isTerminal) (hq : s.Has q) (hsame : ∀ ρ, s.value ρ r = s.value ρ q)
    (hchild : ∀ b, (∀ ρ, s.value ρ (s.child b r) = s.value ρ q) → s.child b r = q) :
    ¬ s.After (s.var r) q := by
  intro hafter
  have hboth : ∀ b, s.child b r = q := by
    intro b
    apply hchild b
    intro ρ
    rw [← ho.value_update_var hs.toLayered hr ht ρ b, hsame,
      ho.value_update hs.toLayered hq hafter]
  apply hs.low_ne_high hr ht
  show s.child false r = s.child true r
  rw [hboth, hboth]

/-- Two edges with the same function are equal. -/
theorem Ordered.eq_of_same (ho : s.Ordered V) (hs : s.Valid) (hr : s.Has r) (hq : s.Has q)
    (hsame : ∀ ρ, s.value ρ r = s.value ρ q) : r = q := by
  -- Each step goes to a child of at least one of the two edges, so the sum of their indices falls.
  induction hsum : r.index + q.index using Nat.strong_induction_on generalizing r q with
  | h sum ih =>
    have hleft : ¬ r.isTerminal → ∀ b, (∀ ρ, s.value ρ (s.child b r) = s.value ρ q) →
        s.child b r = q := by
      intro ht b hb
      have hlt := hs.index_child_lt hr ht b
      exact ih _ (by omega) (hs.has_child hr ht b) hq hb rfl
    have hright : ¬ q.isTerminal → ∀ b, (∀ ρ, s.value ρ (s.child b q) = s.value ρ r) →
        s.child b q = r := by
      intro ht b hb
      have hlt := hs.index_child_lt hq ht b
      exact ih _ (by omega) (hs.has_child hq ht b) hr hb rfl
    have hback : ∀ ρ, s.value ρ q = s.value ρ r := fun ρ => (hsame ρ).symm
    by_cases htr : r.isTerminal
    · by_cases htq : q.isTerminal
      · have hsign : r.isNegated = q.isNegated := by
          have hvalue := hsame fun _ => false
          rw [s.value_of_isTerminal _ htr, s.value_of_isTerminal _ htq] at hvalue
          exact Bool.not_inj hvalue
        apply Edge.eq_of_index_eq _ hsign
        rw [(Edge.isTerminal_iff r).mp htr, (Edge.isTerminal_iff q).mp htq]
      · exact absurd (Or.inl htr) (ho.not_after_of_same hs hq htq hr hback (hright htq))
    · have hq' := ho.not_after_of_same hs hr htr hq hsame (hleft htr)
      have htq : ¬ q.isTerminal := fun ht => hq' (Or.inl ht)
      have hr' := ho.not_after_of_same hs hq htq hr hback (hright htq)
      have hvar : s.var r = s.var q := by
        have hge : ¬ s.var r < s.var q := fun hlt => hq' (Or.inr hlt)
        have hle : ¬ s.var q < s.var r := fun hlt => hr' (Or.inr hlt)
        omega
      have hchildren : ∀ b, s.child b r = s.child b q := by
        intro b
        have hltr := hs.index_child_lt hr htr b
        have hltq := hs.index_child_lt hq htq b
        refine ih _ (by omega) (hs.has_child hr htr b) (hs.has_child hq htq b) ?_ rfl
        intro ρ
        rw [← ho.value_update_var hs.toLayered hr htr, hsame, hvar,
          ho.value_update_var hs.toLayered hq htq]
      exact hs.eq_of_children hr hq htr htq hvar (hchildren false) (hchildren true)

/-- Up to a sign, edges are equal exactly when their functions are. -/
theorem Ordered.eq_negateIf_iff (ho : s.Ordered V) (hs : s.Valid) (hr : s.Has r) (hq : s.Has q)
    (b : Bool) : r = q.negateIf b ↔ ∀ ρ, s.value ρ r = (s.value ρ q != b) := by
  constructor
  · intro heq ρ
    rw [heq, hs.value_negateIf ρ hq]
  · intro hsame
    apply ho.eq_of_same hs hr (hq.negateIf b)
    intro ρ
    rw [hsame, hs.value_negateIf ρ hq]

end Store

/-- A run that respects the order leaves a valid and ordered store. -/
theorem Runs.valid_ordered {limits : Limits} {clock : Clock} {s : Store}
    (h : Runs OrderedCall (.new limits clock) s) (hlimit : limits.nodeLimit ≤ 2147483648) :
    s.Valid ∧ s.Ordered (· ≠ 0) :=
  have hnew := Store.new_valid hlimit clock
  ⟨(h.valid_grown (fun _ _ hcall => hcall.1) hnew).1,
    h.ordered hnew (Store.new_ordered limits clock _)⟩

/-- A call made before and one made later answer the same edge, or edges that differ in their
sign only, exactly when they ask for the same function, or for opposite ones. -/
theorem Runs.answers_eq_iff {limits : Limits} {clock : Clock} {s s' : Store} {op op' : Operation}
    {e e' : Edge} (before : Runs OrderedCall (.new limits clock) s)
    (hlimit : limits.nodeLimit ≤ 2147483648) (hop : OrderedCall s op)
    (he : (op.run s).1 = .ok e) (between : Runs OrderedCall (op.run s).2 s')
    (hop' : OrderedCall s' op') (he' : (op'.run s').1 = .ok e') (b : Bool) :
    e' = e.negateIf b ↔ ∀ ρ, op'.denotes s' ρ = (op.denotes s ρ != b) := by
  have hallowed : ∀ s op, OrderedCall s op → op.Allowed s := fun _ _ hcall => hcall.1
  obtain ⟨hs, ho⟩ := before.valid_ordered hlimit
  have hfirst := Operation.run_denotes hs hop.1
  have hordered := Operation.run_ordered hs ho hop.1 hop.2 hop.1.over
  obtain ⟨hs', hgrown⟩ := between.valid_grown hallowed hfirst.valid
  have ho' := between.ordered hfirst.valid hordered
  have hsecond := Operation.run_denotes hs' hop'.1
  have hlast := Operation.run_ordered hs' ho' hop'.1 hop'.2 hop'.1.over
  have hhas := hfirst.has e he
  have hold : ∀ ρ, (op'.run s').2.value ρ e = op.denotes s ρ := by
    intro ρ
    rw [hsecond.grown.value_eq hs'.toLayered ρ (hgrown.has hhas),
      hgrown.value_eq hfirst.valid.toLayered ρ hhas, hfirst.value e he ρ]
  rw [hlast.eq_negateIf_iff hsecond.valid (hsecond.has e' he')
    (hsecond.grown.has (hgrown.has hhas)) b]
  simp only [hsecond.value e' he', hold]

/-- In every store that a run leaves, edges stand for functions one to one, where the bound on
the nodes leaves every index room beside the sign of an edge. In particular zero
is the only edge that is false everywhere and one the only edge that is true everywhere, and
two calls answer alike exactly when they ask for the same function, however far apart they are:
a conjunction does not depend on the order of its operands, and the two sides of a law of
De Morgan are the same edge. -/
theorem canonical_of_runs (limits : Limits) (hlimit : limits.nodeLimit ≤ 2147483648)
    (clock : Clock) (s : Store) (before : Runs OrderedCall (.new limits clock) s) :
    (∀ r q, s.Has r → s.Has q → ((∀ ρ, s.value ρ r = s.value ρ q) ↔ r = q)) ∧
    (∀ r, s.Has r → ((∀ ρ, s.value ρ r = false) ↔ r = .zero)) ∧
    (∀ r, s.Has r → ((∀ ρ, s.value ρ r = true) ↔ r = .one)) ∧
    (∀ op e, OrderedCall s op → (op.run s).1 = .ok e →
      ∀ s', Runs OrderedCall (op.run s).2 s' →
      ∀ op' e', OrderedCall s' op' → (op'.run s').1 = .ok e' →
        (e' = e ↔ ∀ ρ, op'.denotes s' ρ = op.denotes s ρ) ∧
        (e' = -e ↔ ∀ ρ, op'.denotes s' ρ = !op.denotes s ρ)) ∧
    (∀ f g e, s.Has f → s.Has g → (s.conj f g).1 = .ok e →
      ∀ s', Runs OrderedCall (s.conj f g).2 s' →
        (∀ e', (s'.conj g f).1 = .ok e' → e' = e) ∧
        (∀ e', (s'.disj (-f) (-g)).1 = .ok e' → e' = -e)) := by
  obtain ⟨hs, ho⟩ := before.valid_ordered hlimit
  have hcanonical : ∀ r q, s.Has r → s.Has q → ((∀ ρ, s.value ρ r = s.value ρ q) ↔ r = q) := by
    intro r q hr hq
    constructor
    · exact ho.eq_of_same hs hr hq
    · intro heq ρ
      rw [heq]
  refine ⟨hcanonical, ?_, ?_, ?_, ?_⟩
  · intro r hr
    simpa only [s.value_zero] using hcanonical r .zero hr hs.has_zero
  · intro r hr
    simpa only [s.value_one] using hcanonical r .one hr hs.has_one
  · intro op e hop he s' between op' e' hop' he'
    have hsame := before.answers_eq_iff hlimit hop he between hop' he'
    constructor
    · simpa [Edge.negateIf] using hsame false
    · simpa [Edge.negateIf] using hsame true
  · intro f g e hf hg he s' between
    have hop : OrderedCall s (.conj f g) := ⟨⟨hf, hg⟩, trivial⟩
    have hconj := hs.conj hf hg
    obtain ⟨-, hgrown⟩ := between.valid_grown (fun _ _ hcall => hcall.1) hconj.valid
    have hlater := hconj.grown.trans hgrown
    have hvalue : ∀ d, s.Has d → ∀ ρ, s'.value ρ d = s.value ρ d :=
      fun d hd ρ => hlater.value_eq hs.toLayered ρ hd
    constructor
    · intro e' he'
      have hop' : OrderedCall s' (.conj g f) := ⟨⟨hlater.has hg, hlater.has hf⟩, trivial⟩
      apply (before.answers_eq_iff hlimit hop he between hop' he' false).mpr
      intro ρ
      simp only [Operation.denotes, hvalue f hf, hvalue g hg, Bool.bne_false, Bool.and_comm]
    · intro e' he'
      have hop' : OrderedCall s' (.disj (-f) (-g)) :=
        ⟨⟨(hlater.has hf).neg, (hlater.has hg).neg⟩, trivial⟩
      apply (before.answers_eq_iff hlimit hop he between hop' he' true).mpr
      intro ρ
      simp only [Operation.denotes, hvalue _ hf.neg, hvalue _ hg.neg, hs.value_neg ρ hf,
        hs.value_neg ρ hg, Bool.bne_true, Bool.not_and]

/-- The conjunction of two variables, made first, is neither constant nor one of the variables;
asked for again with its operands exchanged, or by the law of De Morgan, it is the same node. -/
theorem canonical_of_two_variables :
    let s₁ := (Operation.run (.new ⟨none, 10⟩ .stopped) (.var 1)).2
    let s₂ := (Operation.run s₁ (.var 2)).2
    let first := s₂.conj (.toNode 2) (.toNode 3)
    first.1 = .ok (.toNode 4) ∧
    (¬ ∀ ρ, s₂.value ρ (.toNode 2) = s₂.value ρ (.toNode 3)) ∧
    (¬ ∀ ρ, s₂.value ρ (.toNode 2) = false) ∧
    (first.2.conj (.toNode 3) (.toNode 2)).1 = .ok (.toNode 4) ∧
    (∀ e, (first.2.conj (.toNode 3) (.toNode 2)).1 = .ok e → e = .toNode 4) ∧
    (∀ e, (first.2.disj (-.toNode 2) (-.toNode 3)).1 = .ok e → e = -.toNode 4) := by
  intro s₁ s₂ first
  have hcall₁ : OrderedCall (.new ⟨none, 10⟩ .stopped) (.var 1) := ⟨Nat.succ_ne_zero 0, trivial⟩
  have hcall₂ : OrderedCall s₁ (.var 2) := ⟨Nat.succ_ne_zero 1, trivial⟩
  have hleft : s₂.Has (.toNode 2) := ⟨by decide, by decide⟩
  have hright : s₂.Has (.toNode 3) := ⟨by decide, by decide⟩
  obtain ⟨hsame, hzero, -, -, hconj⟩ :=
    canonical_of_runs ⟨none, 10⟩ (by decide) .stopped s₂
      (.call (.call .start _ hcall₁) _ hcall₂)
  have hfirst : first.1 = .ok (.toNode 4) := by decide +kernel
  obtain ⟨hswapped, hdual⟩ := hconj _ _ _ hleft hright hfirst first.2 .start
  refine ⟨hfirst, ?_, ?_, by decide +kernel, hswapped, hdual⟩
  · rw [hsame _ _ hleft hright]
    decide
  · rw [hzero _ hleft]
    decide

/-- With room for one node more, a variable and its negation are the same edge. -/
theorem canonical_lost_beyond_words :
    ∃ s, Runs OrderedCall (.new ⟨none, 2147483649⟩ .stopped) s ∧
      ∃ (op op' : Operation) (e : Edge) (ρ : Nat → Bool),
        OrderedCall s op ∧ (op.run s).1 = .ok e ∧
        OrderedCall (op.run s).2 op' ∧ (op'.run (op.run s).2).1 = .ok e ∧
        op'.denotes (op.run s).2 ρ ≠ op.denotes s ρ := by
  obtain ⟨s, s', hruns, hmade, hfound, -⟩ :=
    Store.exists_next_variable .stopped (n := 2147483646) (Nat.lt_succ_self 2147483648)
  have hpositive : s.mkLiteral 2147483647 = (.ok ⟨Int32.minValue⟩, s') := by
    unfold Store.mkLiteral
    rw [show Word.magnitude 2147483647 = 2147483646 + 1 from rfl, hmade]
    rfl
  have hnegative : s'.mkLiteral (-2147483647) = (.ok ⟨Int32.minValue⟩, s') := by
    unfold Store.mkLiteral
    rw [show Word.magnitude (-2147483647) = 2147483646 + 1 from rfl, hfound]
    rfl
  have hliterals : (2147483647 : Int32) ≠ 0 ∧ (-2147483647 : Int32) ≠ 0 := by decide
  have hvalues : Store.literalValue (fun _ => false) (-2147483647) ≠
      Store.literalValue (fun _ => false) 2147483647 := by
    decide
  refine ⟨s, hruns.mono fun _ _ hok => hok.1, .literal 2147483647, .literal (-2147483647),
    ⟨Int32.minValue⟩, fun _ => false, ⟨hliterals.1, trivial⟩, congrArg Prod.fst hpositive,
    ⟨hliterals.2, trivial⟩, ?_, hvalues⟩
  rw [show (Operation.run s (.literal 2147483647)).2 = s' from congrArg Prod.snd hpositive]
  exact congrArg Prod.fst hnegative

end GuardedMachines.Diagram
