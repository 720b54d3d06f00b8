import GuardedMachines.Diagram.Count
import GuardedMachines.Diagram.Path
import GuardedMachines.Proofs.Diagram.IfThenElse

/-!
Room for more nodes changes no answer. Two stores that hold the same and do not
watch the time go alike through every operation as long as the one with less room
answers: the limit is only compared with the number of nodes before a node is
appended. What is read off an edge depends on the nodes alone.
-/

namespace GuardedMachines.Diagram.Store

/-- The stores hold the same, without a timeout, and the second one has no less room. -/
structure Roomier (s s' : Store) : Prop where
  untimed : s.limits.timeout = none
  untimed' : s'.limits.timeout = none
  room : s.limits.nodeLimit ≤ s'.limits.nodeLimit
  nodes : s'.nodes = s.nodes
  unique : s'.unique = s.unique
  computed : s'.computed = s.computed

theorem new_roomier {limit limit' : Nat} (h : limit ≤ limit') (clock clock' : Clock) :
    Roomier (.new ⟨none, limit⟩ clock) (.new ⟨none, limit'⟩ clock') :=
  ⟨rfl, rfl, h, rfl, rfl, rfl⟩

/-- The second outcome has the answer of the first one, if there is one, and a store alike. -/
def Kept {α : Type} (outcome outcome' : Outcome α) : Prop :=
  ∀ a, outcome.1 = .ok a → outcome'.1 = .ok a ∧ Roomier outcome.2 outcome'.2

def andThen {α β : Type} (outcome : Outcome α) (next : α → Store → Outcome β) : Outcome β :=
  match outcome with
  | (.error e, s) => (.error e, s)
  | (.ok a, s) => next a s

theorem mkNode_eq (s : Store) (var : Nat) (low high : Edge) :
    s.mkNode var low high =
      if high.isNegated then
        andThen (s.mkRegular ⟨var, -low, -high⟩) fun e s => (.ok (-e), s)
      else s.mkRegular ⟨var, low, high⟩ := by
  unfold mkNode andThen
  rcases s.mkRegular ⟨var, -low, -high⟩ with ⟨_ | _, _⟩ <;> rfl

theorem mkLiteral_eq (s : Store) (literal : Int32) :
    s.mkLiteral literal = andThen (s.mkVar (Word.magnitude literal)) fun e s =>
      (.ok (e.negateIf (decide (literal < 0))), s) := by
  unfold mkLiteral andThen
  rcases s.mkVar (Word.magnitude literal) with ⟨_ | _, _⟩ <;> rfl

theorem clauseFrom_cons (s : Store) (current : Edge) (literal : Int32) (rest : List Int32) :
    s.clauseFrom current (literal :: rest) =
      andThen (s.mkLiteral literal) fun e s =>
        andThen (s.disj current e) fun current s => s.clauseFrom current rest := by
  rw [clauseFrom]
  unfold andThen
  rcases s.mkLiteral literal with ⟨_ | e, t⟩
  · rfl
  · dsimp only
    rcases t.disj current e with ⟨_ | _, _⟩ <;> rfl

/-- If-then-else that is not answered at once goes to both cofactors and then to a node. -/
theorem iteWithin_unknown (fuel : Nat) {s s' : Store} {q t : Triple} {negated : Bool}
    (asks : Asks s q s' t negated) :
    iteWithin (fuel + 1) s q.test q.onTrue q.onFalse =
      andThen (iteWithin fuel s' (s'.cofactors t false).test (s'.cofactors t false).onTrue
        (s'.cofactors t false).onFalse) fun low s₀ =>
      andThen (iteWithin fuel s₀ (s'.cofactors t true).test (s'.cofactors t true).onTrue
        (s'.cofactors t true).onFalse) fun high s₁ =>
      andThen (s₁.mkNode (s'.topVar t) low high) fun e s₂ =>
        (.ok (e.negateIf negated), s₂.remember t e) := by
  rw [iteWithin_asks fuel asks]
  unfold andThen
  rcases iteWithin fuel s' _ _ _ with ⟨_ | low, s₀⟩
  · rfl
  · dsimp only
    rcases iteWithin fuel s₀ _ _ _ with ⟨_ | high, s₁⟩
    · rfl
    · dsimp only
      rcases s₁.mkNode _ low high with ⟨_ | _, _⟩ <;> rfl

theorem Roomier.kept_ok {α : Type} {s s' : Store} (h : Roomier s s') (a : α) :
    Kept (.ok a, s) (.ok a, s') := by
  intro b hb
  exact ⟨hb, h⟩

theorem Kept.andThen {α β : Type} {outcome outcome' : Outcome α}
    {next next' : α → Store → Outcome β} (h : Kept outcome outcome')
    (hnext : ∀ a s s', Roomier s s' → Kept (next a s) (next' a s')) :
    Kept (andThen outcome next) (andThen outcome' next') := by
  obtain ⟨answer, s⟩ := outcome
  obtain ⟨answer', s'⟩ := outcome'
  cases answer with
  | error cause =>
    intro b hb
    cases hb
  | ok a =>
    obtain ⟨hanswer, hroomier⟩ := h a rfl
    have hanswer' : answer' = .ok a := hanswer
    subst hanswer'
    exact hnext a s s' hroomier

namespace Roomier

variable {s s' : Store}

theorem pushed (h : Roomier s s') (n : Node) : Roomier (s.pushed n) (s'.pushed n) where
  untimed := h.untimed
  untimed' := h.untimed'
  room := h.room
  nodes := by simp only [Store.pushed, h.nodes]
  unique := by simp only [Store.pushed, h.nodes, h.unique]
  computed := h.computed

theorem remember (h : Roomier s s') (t : Triple) (e : Edge) :
    Roomier (s.remember t e) (s'.remember t e) where
  untimed := h.untimed
  untimed' := h.untimed'
  room := h.room
  nodes := h.nodes
  unique := h.unique
  computed := by simp only [Store.remember, h.computed]

/-- Where the smaller limit leaves room, so does the larger one. -/
theorem append (h : Roomier s s') (n : Node) : Kept (s.append n) (s'.append n) := by
  rw [append_eq, append_eq, h.nodes]
  split
  · intro e he
    cases he
  · next hroom =>
    have hroom' : ¬ s'.limits.nodeLimit ≤ s.nodes.size := by
      have := h.room
      omega
    rw [if_neg hroom']
    exact (h.pushed n).kept_ok _

theorem mkRegular (h : Roomier s s') (n : Node) : Kept (s.mkRegular n) (s'.mkRegular n) := by
  unfold Store.mkRegular
  split
  · exact h.kept_ok n.low
  · rw [h.unique]
    cases s.unique[n]? with
    | some index => exact h.kept_ok (Edge.toNode index.toNat)
    | none => exact h.append n

theorem mkNode (h : Roomier s s') (var : Nat) (low high : Edge) :
    Kept (s.mkNode var low high) (s'.mkNode var low high) := by
  rw [mkNode_eq, mkNode_eq]
  split
  · exact (h.mkRegular _).andThen fun e _ _ h => h.kept_ok (-e)
  · exact h.mkRegular _

theorem mkLiteral (h : Roomier s s') (literal : Int32) :
    Kept (s.mkLiteral literal) (s'.mkLiteral literal) := by
  rw [mkLiteral_eq, mkLiteral_eq]
  exact (h.mkNode _ _ _).andThen fun e _ _ h => h.kept_ok _

theorem view_eq (h : Roomier s s') :
    s'.var = s.var ∧ s'.low = s.low ∧ s'.high = s.high := by
  have hnode : s'.node = s.node := by
    funext e
    unfold node
    rw [h.nodes]
  unfold Store.var low high
  rw [hnode]
  exact ⟨rfl, rfl, rfl⟩

theorem topVar_eq (h : Roomier s s') (t : Triple) : s'.topVar t = s.topVar t := by
  unfold topVar
  rw [h.view_eq.1]

theorem cofactors_eq (h : Roomier s s') (t : Triple) (b : Bool) :
    s'.cofactors t b = s.cofactors t b := by
  obtain ⟨hvar, hlow, hhigh⟩ := h.view_eq
  unfold cofactors cofactor
  rw [h.topVar_eq, hvar, hlow, hhigh]

theorem iteWithin (h : Roomier s s') (fuel : Nat) (q : Triple) :
    Kept (iteWithin fuel s q.test q.onTrue q.onFalse)
      (iteWithin fuel s' q.test q.onTrue q.onFalse) := by
  induction fuel generalizing s s' q with
  | zero => exact h.kept_ok q.onFalse
  | succ fuel ih =>
    have htime : s.checkTime = (.ok (), s) := by simp [Store.checkTime, h.untimed]
    have htime' : s'.checkTime = (.ok (), s') := by simp [Store.checkTime, h.untimed']
    cases hrequest : Request.ofEdges q.test q.onTrue q.onFalse with
    | answer e =>
      rw [Store.iteWithin, Store.iteWithin, htime, htime']
      simp only [hrequest]
      exact h.kept_ok e
    | compute t negated =>
      cases hknown : s.computed[t]? with
      | some e =>
        have hknown' : s'.computed[t]? = some e := by rw [h.computed, hknown]
        rw [Store.iteWithin, Store.iteWithin, htime, htime']
        simp only [hrequest, hknown, hknown']
        exact h.kept_ok (e.negateIf negated)
      | none =>
        have hknown' : s'.computed[t]? = none := by rw [h.computed, hknown]
        rw [iteWithin_unknown fuel ⟨htime, hrequest, hknown⟩,
          iteWithin_unknown fuel ⟨htime', hrequest, hknown'⟩, h.cofactors_eq, h.cofactors_eq,
          h.topVar_eq]
        refine (ih h (s.cofactors t false)).andThen fun low s₀ s₀' h₀ => ?_
        refine (ih h₀ (s.cofactors t true)).andThen fun high s₁ s₁' h₁ => ?_
        refine (h₁.mkNode (s.topVar t) low high).andThen fun e s₂ s₂' h₂ => ?_
        exact (h₂.remember t e).kept_ok (e.negateIf negated)

theorem ite (h : Roomier s s') (f g k : Edge) : Kept (s.ite f g k) (s'.ite f g k) :=
  h.iteWithin _ ⟨f, g, k⟩

theorem clauseFrom (h : Roomier s s') (current : Edge) (literals : List Int32) :
    Kept (s.clauseFrom current literals) (s'.clauseFrom current literals) := by
  induction literals generalizing s s' current with
  | nil => exact h.kept_ok current
  | cons literal rest ih =>
    rw [clauseFrom_cons, clauseFrom_cons]
    refine (h.mkLiteral literal).andThen fun e s₁ s₁' h₁ => ?_
    exact (h₁.ite current .one e).andThen fun joined s₂ s₂' h₂ => ih h₂ joined

theorem path?_eq (h : Roomier s s') (e : Edge) : s'.path? e = s.path? e := by
  have hpath : ∀ fuel e, pathWithin fuel s' e = pathWithin fuel s e := by
    intro fuel
    induction fuel with
    | zero => exact fun _ => rfl
    | succ fuel ih =>
      intro e
      obtain ⟨hvar, hlow, hhigh⟩ := h.view_eq
      rw [pathWithin, pathWithin, hvar, hlow, hhigh, ih, ih]
  unfold path?
  rw [hpath]

theorem count_eq (h : Roomier s s') (e : Edge) (vars : Nat) : s'.count e vars = s.count e vars := by
  have hcount : ∀ full fuel e known,
      s'.countWithin full fuel e known = s.countWithin full fuel e known := by
    intro full fuel
    induction fuel with
    | zero => exact fun _ _ => rfl
    | succ fuel ih =>
      intro e known
      obtain ⟨-, hlow, hhigh⟩ := h.view_eq
      simp only [countWithin, hlow, hhigh, ih]
  unfold count
  rw [hcount]

end Roomier

end GuardedMachines.Diagram.Store
