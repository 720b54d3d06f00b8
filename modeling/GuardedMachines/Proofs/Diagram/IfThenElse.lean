import GuardedMachines.Proofs.Diagram.Request

/-!
If-then-else computes if-then-else. The recursion is given as a relation between
a store, a request and an outcome, one rule for each way in which a call ends.
Every rule keeps the store valid, whatever the order of the variables: at a
fixed assignment an operand and its cofactor on the side of the top variable
have the same value. Children have smaller indices, so the sum of the indices
of the operands is fuel enough for the recursion to follow the relation.
-/

namespace GuardedMachines.Diagram

namespace Store

def cofactors (s : Store) (t : Triple) (b : Bool) : Triple :=
  ⟨s.cofactor (s.topVar t) b t.test, s.cofactor (s.topVar t) b t.onTrue,
    s.cofactor (s.topVar t) b t.onFalse⟩

theorem cofactor_cases (s : Store) (var : Nat) (b : Bool) (e : Edge) :
    (e.isTerminal ∨ s.var e ≠ var) ∧ s.cofactor var b e = e ∨
      ¬ e.isTerminal ∧ s.var e = var ∧ s.cofactor var b e = s.child b e := by
  unfold cofactor
  by_cases ht : e.isTerminal
  · exact Or.inl ⟨Or.inl ht, by simp [ht]⟩
  · by_cases hvar : s.var e = var
    · exact Or.inr ⟨ht, hvar, by simp [ht, hvar, child]⟩
    · exact Or.inl ⟨Or.inr hvar, by simp [hvar]⟩

/-- The top variable is the least one of the operands that are not terminal. -/
theorem topVar_spec (s : Store) {t : Triple} (htest : ¬ t.test.isTerminal) :
    (∃ e, (e = t.test ∨ e = t.onTrue ∨ e = t.onFalse) ∧ ¬ e.isTerminal ∧ s.var e = s.topVar t) ∧
      t.Forall fun e => ¬ e.isTerminal → s.topVar t ≤ s.var e := by
  have hmem : ∀ v, v ∈ ([t.test, t.onTrue, t.onFalse].filter fun e => !e.isTerminal).map s.var ↔
      ∃ e, (e = t.test ∨ e = t.onTrue ∨ e = t.onFalse) ∧ ¬ e.isTerminal ∧ s.var e = v := by
    intro v
    simp [and_assoc]
  have hsome := List.isSome_min?_of_mem ((hmem _).mpr ⟨t.test, Or.inl rfl, htest, rfl⟩)
  obtain ⟨top, htop⟩ := Option.isSome_iff_exists.mp hsome
  have heq : s.topVar t = top := by
    unfold topVar
    rw [htop]
    rfl
  obtain ⟨hin, hleast⟩ := List.min?_eq_some_iff.mp htop
  rw [heq]
  refine ⟨(hmem top).mp hin, ?_, ?_, ?_⟩
  · exact fun ht => hleast _ ((hmem _).mpr ⟨_, Or.inl rfl, ht, rfl⟩)
  · exact fun ht => hleast _ ((hmem _).mpr ⟨_, Or.inr (Or.inl rfl), ht, rfl⟩)
  · exact fun ht => hleast _ ((hmem _).mpr ⟨_, Or.inr (Or.inr rfl), ht, rfl⟩)

namespace Layered

variable {s : Store}

theorem has_cofactor (hs : s.Layered) (var : Nat) (b : Bool) {e : Edge} (he : s.Has e) :
    s.Has (s.cofactor var b e) := by
  rcases s.cofactor_cases var b e with ⟨-, heq⟩ | ⟨ht, -, heq⟩
  · rw [heq]
    exact he
  · rw [heq]
    exact hs.has_child he ht b

theorem index_cofactor_le (hs : s.Layered) (var : Nat) (b : Bool) {e : Edge} (he : s.Has e) :
    (s.cofactor var b e).index ≤ e.index := by
  rcases s.cofactor_cases var b e with ⟨-, heq⟩ | ⟨ht, -, heq⟩
  · exact Nat.le_of_eq (congrArg Edge.index heq)
  · rw [heq]
    exact Nat.le_of_lt (hs.index_child_lt he ht b)

theorem index_cofactor_lt (hs : s.Layered) (b : Bool) {e : Edge} (he : s.Has e)
    (ht : ¬ e.isTerminal) : (s.cofactor (s.var e) b e).index < e.index := by
  rcases s.cofactor_cases (s.var e) b e with ⟨hother, -⟩ | ⟨-, -, heq⟩
  · rcases hother with hterminal | hne
    · exact absurd hterminal ht
    · exact absurd rfl hne
  · rw [heq]
    exact hs.index_child_lt he ht b

/-- On the side that the assignment takes, a cofactor has the value of the edge. -/
theorem value_cofactor (hs : s.Layered) (ρ : Nat → Bool) (var : Nat) {e : Edge} (he : s.Has e) :
    s.value ρ (s.cofactor var (ρ var) e) = s.value ρ e := by
  rcases s.cofactor_cases var (ρ var) e with ⟨-, heq⟩ | ⟨ht, hvar, heq⟩
  · rw [heq]
  · rw [heq, hs.value_child ρ he ht, hvar]

theorem has_cofactors (hs : s.Layered) {t : Triple} (ht : t.Forall s.Has) (b : Bool) :
    (s.cofactors t b).Forall s.Has :=
  ⟨hs.has_cofactor _ b ht.1, hs.has_cofactor _ b ht.2.1, hs.has_cofactor _ b ht.2.2⟩

theorem holds_cofactors (hs : s.Layered) (ρ : Nat → Bool) {t : Triple} (ht : t.Forall s.Has) :
    (s.cofactors t (ρ (s.topVar t))).holds (s.value ρ) = t.holds (s.value ρ) := by
  simp only [Triple.holds, cofactors, hs.value_cofactor ρ _ ht.1, hs.value_cofactor ρ _ ht.2.1,
    hs.value_cofactor ρ _ ht.2.2]

theorem weight_cofactors_lt (hs : s.Layered) {t : Triple} (ht : t.Forall s.Has)
    (htest : ¬ t.test.isTerminal) (b : Bool) : (s.cofactors t b).weight < t.weight := by
  have h₁ := hs.index_cofactor_le (s.topVar t) b ht.1
  have h₂ := hs.index_cofactor_le (s.topVar t) b ht.2.1
  have h₃ := hs.index_cofactor_le (s.topVar t) b ht.2.2
  obtain ⟨⟨e, hmem, hterminal, hvar⟩, -⟩ := s.topVar_spec htest
  have he : s.Has e := by
    rcases hmem with rfl | rfl | rfl
    · exact ht.1
    · exact ht.2.1
    · exact ht.2.2
  have hlt := hs.index_cofactor_lt b he hterminal
  rw [hvar] at hlt
  simp only [Triple.weight, cofactors]
  rcases hmem with rfl | rfl | rfl <;> omega

end Layered

/-- In time, a store has to compute a request that it does not remember. -/
structure Asks (s : Store) (q : Triple) (s' : Store) (t : Triple) (negated : Bool) : Prop where
  inTime : s.checkTime = (.ok (), s')
  request : Request.ofEdges q.test q.onTrue q.onFalse = .compute t negated
  unknown : s'.computed[t]? = none

inductive Unfolds : Store → Triple → Outcome Edge → Prop
  | late {s s' : Store} {q : Triple} {cause : Exhaustion}
      (time : s.checkTime = (.error cause, s')) : Unfolds s q (.error cause, s')
  | answered {s s' : Store} {q : Triple} {e : Edge} (inTime : s.checkTime = (.ok (), s'))
      (request : Request.ofEdges q.test q.onTrue q.onFalse = .answer e) : Unfolds s q (.ok e, s')
  | remembered {s s' : Store} {q t : Triple} {negated : Bool} {e : Edge}
      (inTime : s.checkTime = (.ok (), s'))
      (request : Request.ofEdges q.test q.onTrue q.onFalse = .compute t negated)
      (known : s'.computed[t]? = some e) : Unfolds s q (.ok (e.negateIf negated), s')
  | lowFails {s s' s₀ : Store} {q t : Triple} {negated : Bool} {cause : Exhaustion}
      (asks : Asks s q s' t negated) (low : Unfolds s' (s'.cofactors t false) (.error cause, s₀)) :
      Unfolds s q (.error cause, s₀)
  | highFails {s s' s₀ s₁ : Store} {q t : Triple} {negated : Bool} {l : Edge} {cause : Exhaustion}
      (asks : Asks s q s' t negated) (low : Unfolds s' (s'.cofactors t false) (.ok l, s₀))
      (high : Unfolds s₀ (s'.cofactors t true) (.error cause, s₁)) : Unfolds s q (.error cause, s₁)
  | full {s s' s₀ s₁ s₂ : Store} {q t : Triple} {negated : Bool} {l h : Edge} {cause : Exhaustion}
      (asks : Asks s q s' t negated) (low : Unfolds s' (s'.cofactors t false) (.ok l, s₀))
      (high : Unfolds s₀ (s'.cofactors t true) (.ok h, s₁))
      (node : s₁.mkNode (s'.topVar t) l h = (.error cause, s₂)) : Unfolds s q (.error cause, s₂)
  | made {s s' s₀ s₁ s₂ : Store} {q t : Triple} {negated : Bool} {l h e : Edge}
      (asks : Asks s q s' t negated) (low : Unfolds s' (s'.cofactors t false) (.ok l, s₀))
      (high : Unfolds s₀ (s'.cofactors t true) (.ok h, s₁))
      (node : s₁.mkNode (s'.topVar t) l h = (.ok e, s₂)) :
      Unfolds s q (.ok (e.negateIf negated), s₂.remember t e)

namespace Asks

variable {s s' : Store} {q t : Triple} {negated : Bool}

theorem valid (h : Asks s q s' t negated) (hs : s.Valid) : s'.Valid := hs.checkTime h.inTime

theorem grown (h : Asks s q s' t negated) : s.Extends s' := checkTime_extends h.inTime

theorem has (h : Asks s q s' t negated) (hs : s.Valid) (hq : q.Forall s.Has) :
    t.Forall s'.Has := by
  have hforall := Request.ofEdges_forall hs.has_one (fun _ he => he.neg) hq.1 hq.2.1 hq.2.2
  rw [h.request] at hforall
  exact hforall.mono fun _ he => h.grown.has he

theorem test_not_isTerminal (h : Asks s q s' t negated) (hq : q.Forall s.Has) :
    ¬ t.test.isTerminal :=
  (Request.ofEdges_compute hq.2.1.1 hq.2.2.1 h.request).1

theorem weight_le (h : Asks s q s' t negated) (hq : q.Forall s.Has) : t.weight ≤ q.weight :=
  (Request.ofEdges_compute hq.2.1.1 hq.2.2.1 h.request).2

theorem holds (h : Asks s q s' t negated) (hs : s.Valid) (hq : q.Forall s.Has) (ρ : Nat → Bool) :
    (t.holds (s'.value ρ) != negated) = q.holds (s.value ρ) := by
  have hvalue := Request.ofEdges_holds hs.toLayered ρ hq.1 hq.2.1 hq.2.2
  have hforall := Request.ofEdges_forall hs.has_one (fun _ he => he.neg) hq.1 hq.2.1 hq.2.2
  rw [h.request] at hvalue hforall
  rw [h.grown.holds_eq hs.toLayered ρ hforall]
  exact hvalue

end Asks

/-- The node made of both results has the value of the request. -/
theorem nodeValue_cofactors {s' s₀ s₁ : Store} {t : Triple} {l h : Edge} (hs : s'.Valid)
    (ht : t.Forall s'.Has)
    (hlow : Computes s' (.ok l, s₀) fun ρ => (s'.cofactors t false).holds (s'.value ρ))
    (hhigh : Computes s₀ (.ok h, s₁) fun ρ => (s'.cofactors t true).holds (s₀.value ρ))
    (ρ : Nat → Bool) :
    s₁.nodeValue ⟨s'.topVar t, l, h⟩ ρ = t.holds (s'.value ρ) := by
  have hside := hs.holds_cofactors ρ ht
  have hl : s₁.value ρ l = (s'.cofactors t false).holds (s'.value ρ) := by
    rw [hhigh.grown.value_eq hlow.valid.toLayered ρ (hlow.has l rfl)]
    exact hlow.value l rfl ρ
  have hh : s₁.value ρ h = (s'.cofactors t true).holds (s'.value ρ) := by
    rw [hhigh.value h rfl ρ]
    exact hlow.grown.holds_eq hs.toLayered ρ (hs.has_cofactors ht true)
  unfold nodeValue
  cases hb : ρ (s'.topVar t) with
  | false => simpa [hb, hl] using hside
  | true => simpa [hb, hh] using hside

/-- Whichever way it goes, if-then-else computes the value of its request. -/
theorem Unfolds.computes {s : Store} {q : Triple} {outcome : Outcome Edge}
    (h : Unfolds s q outcome) (hs : s.Valid) (hq : q.Forall s.Has) :
    Computes s outcome fun ρ => q.holds (s.value ρ) := by
  -- The hypotheses on the two recursive calls are about the stores they start from, which are
  -- valid and have the cofactors only because the calls before them computed something.
  induction h with
  | late time => exact .error (hs.checkTime time) (checkTime_extends time) _
  | @answered s s' q e inTime request =>
    have hgrown := checkTime_extends inTime
    have hforall := Request.ofEdges_forall hs.has_one (fun _ he => he.neg) hq.1 hq.2.1 hq.2.2
    rw [request] at hforall
    refine .ok (hs.checkTime inTime) hgrown (hgrown.has hforall) fun ρ => ?_
    have hvalue := Request.ofEdges_holds hs.toLayered ρ hq.1 hq.2.1 hq.2.2
    rw [request] at hvalue
    rw [hgrown.value_eq hs.toLayered ρ hforall]
    exact hvalue
  | @remembered s s' q t negated e inTime request known =>
    have hvalid := hs.checkTime inTime
    have hgrown := checkTime_extends inTime
    obtain ⟨ht, he⟩ := hvalid.computed_has t e known
    have hknown : Computes s (.ok e, s') fun ρ => t.holds (s'.value ρ) :=
      .ok hvalid hgrown he (hvalid.computed_value t e known)
    refine (hknown.negateIf negated).congr fun ρ => ?_
    have hvalue := Request.ofEdges_holds hs.toLayered ρ hq.1 hq.2.1 hq.2.2
    have hforall := Request.ofEdges_forall hs.has_one (fun _ he => he.neg) hq.1 hq.2.1 hq.2.2
    rw [request] at hvalue hforall
    rw [hgrown.holds_eq hs.toLayered ρ hforall]
    exact hvalue
  | lowFails asks low ihlow =>
    have hlow := ihlow (asks.valid hs) ((asks.valid hs).has_cofactors (asks.has hs hq) false)
    exact .error hlow.valid (asks.grown.trans hlow.grown) _
  | highFails asks low high ihlow ihhigh =>
    have hvalid := asks.valid hs
    have hlow := ihlow hvalid (hvalid.has_cofactors (asks.has hs hq) false)
    have hhigh := ihhigh hlow.valid
      ((hvalid.has_cofactors (asks.has hs hq) true).mono fun _ he => hlow.grown.has he)
    exact .error hhigh.valid (asks.grown.trans (hlow.grown.trans hhigh.grown)) _
  | @full s s' s₀ s₁ s₂ q t negated l h cause asks low high node ihlow ihhigh =>
    have hvalid := asks.valid hs
    have hlow := ihlow hvalid (hvalid.has_cofactors (asks.has hs hq) false)
    have hhigh := ihhigh hlow.valid
      ((hvalid.has_cofactors (asks.has hs hq) true).mono fun _ he => hlow.grown.has he)
    have hnode := hhigh.valid.mkNode (s'.topVar t) (hhigh.grown.has (hlow.has l rfl))
      (hhigh.has h rfl)
    rw [node] at hnode
    exact .error hnode.valid
      (asks.grown.trans (hlow.grown.trans (hhigh.grown.trans hnode.grown))) _
  | @made s s' s₀ s₁ s₂ q t negated l h e asks low high node ihlow ihhigh =>
    have hvalid := asks.valid hs
    have ht := asks.has hs hq
    have hlow := ihlow hvalid (hvalid.has_cofactors ht false)
    have hhigh := ihhigh hlow.valid
      ((hvalid.has_cofactors ht true).mono fun _ he => hlow.grown.has he)
    have hnode := hhigh.valid.mkNode (s'.topVar t) (hhigh.grown.has (hlow.has l rfl))
      (hhigh.has h rfl)
    rw [node] at hnode
    have hgrown := hlow.grown.trans (hhigh.grown.trans hnode.grown)
    have hvalue : ∀ ρ, s₂.value ρ e = t.holds (s'.value ρ) := by
      intro ρ
      rw [hnode.value e rfl ρ]
      exact nodeValue_cofactors hvalid ht hlow hhigh ρ
    have hremember : (s₂.remember t e).Valid := by
      refine hnode.valid.remember (ht.mono fun _ he => hgrown.has he) (hnode.has e rfl) fun ρ => ?_
      rw [hgrown.holds_eq hvalid.toLayered ρ ht]
      exact hvalue ρ
    have hlast := s₂.extends_remember t e
    have hcomputed : Computes s (.ok e, s₂.remember t e) fun ρ => t.holds (s'.value ρ) := by
      refine .ok hremember (asks.grown.trans (hgrown.trans hlast)) (hlast.has (hnode.has e rfl)) ?_
      intro ρ
      rw [hlast.value_eq hnode.valid.toLayered ρ (hnode.has e rfl)]
      exact hvalue ρ
    exact (hcomputed.negateIf negated).congr fun ρ => asks.holds hs hq ρ

theorem three_le_weight {s : Store} {q : Triple} (hq : q.Forall s.Has) : 3 ≤ q.weight := by
  have h₁ := hq.1.1
  have h₂ := hq.2.1.1
  have h₃ := hq.2.2.1
  unfold Triple.weight
  omega

/-- A request that is not remembered leads to both cofactors and to a node. -/
theorem iteWithin_asks (fuel : Nat) {s s' : Store} {q t : Triple} {negated : Bool}
    (asks : Asks s q s' t negated) :
    iteWithin (fuel + 1) s q.test q.onTrue q.onFalse =
      match iteWithin fuel s' (s'.cofactors t false).test (s'.cofactors t false).onTrue
          (s'.cofactors t false).onFalse with
      | (.error cause, s₀) => (.error cause, s₀)
      | (.ok l, s₀) =>
        match iteWithin fuel s₀ (s'.cofactors t true).test (s'.cofactors t true).onTrue
            (s'.cofactors t true).onFalse with
        | (.error cause, s₁) => (.error cause, s₁)
        | (.ok h, s₁) =>
          match s₁.mkNode (s'.topVar t) l h with
          | (.error cause, s₂) => (.error cause, s₂)
          | (.ok e, s₂) => (.ok (e.negateIf negated), s₂.remember t e) := by
  rw [iteWithin, asks.inTime]
  simp only [asks.request, asks.unknown]
  rfl

/-- With the indices of its operands as fuel the recursion never runs dry. -/
theorem unfolds_iteWithin (fuel : Nat) {s : Store} {q : Triple} (hs : s.Valid)
    (hq : q.Forall s.Has) (hfuel : q.weight ≤ fuel) :
    Unfolds s q (iteWithin fuel s q.test q.onTrue q.onFalse) := by
  -- Each call spends one unit, and the cofactors of the standard request weigh less than it.
  induction fuel generalizing s q with
  | zero =>
    have := three_le_weight hq
    omega
  | succ fuel ih =>
    rcases htime : s.checkTime with ⟨cause | ⟨⟩, s'⟩
    · simpa [iteWithin, htime] using Unfolds.late htime
    cases hrequest : Request.ofEdges q.test q.onTrue q.onFalse with
    | answer e => simpa [iteWithin, htime, hrequest] using Unfolds.answered htime hrequest
    | compute t negated =>
      cases hknown : s'.computed[t]? with
      | some e =>
        simpa [iteWithin, htime, hrequest, hknown] using Unfolds.remembered htime hrequest hknown
      | none =>
        have asks : Asks s q s' t negated := ⟨htime, hrequest, hknown⟩
        have hvalid := asks.valid hs
        have ht := asks.has hs hq
        have hweight := asks.weight_le hq
        have hside := fun b => hvalid.weight_cofactors_lt ht (asks.test_not_isTerminal hq) b
        have hfuel₀ : (s'.cofactors t false).weight ≤ fuel := by
          have := hside false
          omega
        have hfuel₁ : (s'.cofactors t true).weight ≤ fuel := by
          have := hside true
          omega
        have low := ih hvalid (hvalid.has_cofactors ht false) hfuel₀
        have hlow := low.computes hvalid (hvalid.has_cofactors ht false)
        rw [iteWithin_asks fuel asks]
        split
        · next cause s₀ heq =>
          rw [heq] at low
          exact .lowFails asks low
        · next l s₀ heq =>
          rw [heq] at low hlow
          have hq₁ := (hvalid.has_cofactors ht true).mono fun _ he => hlow.grown.has he
          have high := ih hlow.valid hq₁ hfuel₁
          split
          · next cause s₁ heq₁ =>
            rw [heq₁] at high
            exact .highFails asks low high
          · next h s₁ heq₁ =>
            rw [heq₁] at high
            split
            · next cause s₂ hnode => exact .full asks low high hnode
            · next e s₂ hnode => exact .made asks low high hnode

theorem unfolds_ite {s : Store} {f g h : Edge} (hs : s.Valid) (hf : s.Has f) (hg : s.Has g)
    (hh : s.Has h) : Unfolds s ⟨f, g, h⟩ (s.ite f g h) :=
  unfolds_iteWithin _ hs ⟨hf, hg, hh⟩ (Nat.le_refl _)

namespace Valid

variable {s : Store} {f g h : Edge}

theorem ite (hs : s.Valid) (hf : s.Has f) (hg : s.Has g) (hh : s.Has h) :
    Computes s (s.ite f g h) fun ρ => if s.value ρ f then s.value ρ g else s.value ρ h :=
  (unfolds_ite hs hf hg hh).computes hs ⟨hf, hg, hh⟩

theorem conj (hs : s.Valid) (hf : s.Has f) (hg : s.Has g) :
    Computes s (s.conj f g) fun ρ => s.value ρ f && s.value ρ g := by
  refine (hs.ite hf hg hs.has_zero).congr fun ρ => ?_
  cases s.value ρ f <;> simp

theorem disj (hs : s.Valid) (hf : s.Has f) (hg : s.Has g) :
    Computes s (s.disj f g) fun ρ => s.value ρ f || s.value ρ g := by
  refine (hs.ite hf hs.has_one hg).congr fun ρ => ?_
  cases s.value ρ f <;> simp

end Valid

theorem Valid.clauseFrom {s : Store} (hs : s.Valid) {current : Edge} (hcurrent : s.Has current)
    (literals : List Int32) :
    Computes s (s.clauseFrom current literals) fun ρ =>
      s.value ρ current || literals.any (literalValue ρ) := by
  induction literals generalizing s current with
  | nil => exact .ok hs (.refl s) hcurrent fun ρ => by simp
  | cons literal rest ih =>
    have hliteral := hs.mkLiteral literal
    rw [Store.clauseFrom]
    split
    · next cause s₁ heq =>
      rw [heq] at hliteral
      exact .error hliteral.valid hliteral.grown cause
    · next e s₁ heq =>
      rw [heq] at hliteral
      have hdisj := hliteral.valid.disj (hliteral.grown.has hcurrent) (hliteral.has e rfl)
      split
      · next cause s₂ heq₂ =>
        rw [heq₂] at hdisj
        exact .error hdisj.valid (hliteral.grown.trans hdisj.grown) cause
      · next joined s₂ heq₂ =>
        rw [heq₂] at hdisj
        refine ((ih hdisj.valid (hdisj.has joined rfl)).from_earlier
          (hliteral.grown.trans hdisj.grown)).congr fun ρ => ?_
        have hjoined := hdisj.value joined rfl ρ
        rw [hliteral.grown.value_eq hs.toLayered ρ hcurrent, hliteral.value e rfl ρ] at hjoined
        simp only at hjoined ⊢
        rw [hjoined, List.any_cons, Bool.or_assoc]

/-- A clause computes the disjunction of its literals. -/
theorem Valid.clause {s : Store} (hs : s.Valid) (literals : List Int32) :
    Computes s (s.clause literals) fun ρ => literals.any (literalValue ρ) := by
  refine (hs.clauseFrom hs.has_zero literals).congr fun ρ => ?_
  simp

end Store

end GuardedMachines.Diagram
