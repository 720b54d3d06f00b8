import GuardedMachines.Condition.Chain

/-!
A balanced tree is the chain of its operands up to grouping. Joining neighbours
keeps a chain that is grouped to the right, up to any relation under which the
connective is associative, and halves the number of joints; as many levels as
there are operands leave none.
-/

namespace GuardedMachines.Condition

variable {α : Type} {R : α → α → Prop} {join : α → α → α}

/-- Under the relation the connective is associative, and it may be applied to both sides. -/
structure Associates (R : α → α → Prop) (join : α → α → α) : Prop where
  refl : ∀ p, R p p
  trans : ∀ {p q r}, R p q → R q r → R p r
  congr : ∀ {p p' q q'}, R p p' → R q q' → R (join p q) (join p' q')
  assoc : ∀ p q r, R (join (join p q) r) (join p (join q r))

def chained (join : α → α → α) : α → List α → α
  | p, [] => p
  | p, q :: rest => join p (chained join q rest)

theorem chained_append (join : α → α → α) (p : α) (before : List α) (last : α) :
    chained join p (before ++ [last]) = (p :: before).foldr join last := by
  induction before generalizing p with
  | nil => rfl
  | cons q before ih =>
    rw [List.cons_append, chained, ih]
    rfl

theorem repeat_succ_apply (step : α → α) (n : Nat) (a : α) :
    Nat.repeat step (n + 1) a = Nat.repeat step n (step a) := by
  induction n with
  | zero => rfl
  | succ n ih => exact congrArg step ih

/-- One level keeps the chain and halves the joints. -/
theorem Associates.joinPairs (h : Associates R join) : ∀ (p : α) (rest : List α),
    ∃ p' rest', joinPairs join (p :: rest) = p' :: rest' ∧ rest'.length = rest.length / 2 ∧
      R (chained join p' rest') (chained join p rest)
  | p, [] => ⟨p, [], rfl, by simp, h.refl p⟩
  | p, [q] => ⟨join p q, [], rfl, by simp, h.refl (join p q)⟩
  | p, q :: r :: rest => by
    obtain ⟨r', rest', heq, hlength, hchain⟩ := h.joinPairs r rest
    refine ⟨join p q, r' :: rest', ?_, ?_, ?_⟩
    · rw [Condition.joinPairs, heq]
    · simp only [List.length_cons]
      omega
    · exact h.trans (h.congr (h.refl (join p q)) hchain) (h.assoc p q (chained join r rest))

theorem Associates.levels (h : Associates R join) (p : α) (rest : List α) (n : Nat) :
    ∃ p' rest', Nat.repeat (Condition.joinPairs join) n (p :: rest) = p' :: rest' ∧
      rest'.length ≤ rest.length - n ∧ R (chained join p' rest') (chained join p rest) := by
  induction n with
  | zero => exact ⟨p, rest, rfl, Nat.le_refl _, h.refl _⟩
  | succ n ih =>
    obtain ⟨q, middle, heq, hlength, hchain⟩ := ih
    obtain ⟨r, last, heq', hlength', hchain'⟩ := h.joinPairs q middle
    refine ⟨r, last, ?_, by omega, h.trans hchain' hchain⟩
    rw [Nat.repeat, heq, heq']

theorem Associates.balanced (h : Associates R join) (before : List α) (last : α) :
    R (balanced join before last) (before.foldr join last) := by
  have hcons : ∃ p rest, before ++ [last] = p :: rest ∧
      chained join p rest = before.foldr join last := by
    cases before with
    | nil => exact ⟨last, [], rfl, rfl⟩
    | cons p before => exact ⟨p, before ++ [last], rfl, chained_append join p before last⟩
  obtain ⟨p, rest, heq, hchain⟩ := hcons
  obtain ⟨p', rest', hlevels, hlength, hkept⟩ := h.levels p rest (p :: rest).length
  have hnone : rest' = [] := by
    apply List.eq_nil_of_length_eq_zero
    rw [List.length_cons] at hlength
    omega
  subst rest'
  unfold Condition.balanced
  rw [heq]
  dsimp only
  rw [hlevels, ← hchain]
  exact hkept

theorem Associates.foldr_join (h : Associates R join) (before : List α) (p q : α) :
    R (join (before.foldr join p) q) (before.foldr join (join p q)) := by
  induction before with
  | nil => exact h.refl _
  | cons first before ih => exact h.trans (h.assoc first _ q) (h.congr (h.refl first) ih)

/-- A balanced tree with one more operand at its end. -/
theorem Associates.balanced_append (h : Associates R join) (hsymm : ∀ {p q}, R p q → R q p)
    (before : List α) (p q : α) :
    R (Condition.balanced join (before ++ [p]) q) (join (Condition.balanced join before p) q) := by
  have hlong := h.balanced (before ++ [p]) q
  rw [List.foldr_append] at hlong
  have hshort := h.congr (h.balanced before p) (h.refl q)
  exact h.trans hlong (hsymm (h.trans hshort (h.foldr_join before p q)))

end GuardedMachines.Condition
