import GuardedMachines.Diagram.Count
import GuardedMachines.Proofs.Diagram.Ordering
import GuardedMachines.Proofs.ModelCount

/-!
Counting models of an edge. In an ordered store a child does not depend on the
variable of its parent, so its count over a set of variables that has this one
is even, and half of it counts the models on one side of the parent. Halving
the sum of the counts of both children is therefore exact.
-/

namespace GuardedMachines.Diagram

namespace Edge

@[simp] theorem index_regular (e : Edge) : e.regular.index = e.index := by
  rcases e.regular_cases with ⟨-, heq⟩ | ⟨-, heq⟩
  · rw [heq]
  · rw [heq, index_neg]

@[simp] theorem isTerminal_regular (e : Edge) : e.regular.isTerminal = e.isTerminal := by
  simp [isTerminal]

end Edge

namespace Store

/-- The variables of an edge and of everything below it are in the set. -/
inductive Within (s : Store) (V : Nat → Prop) : Edge → Prop
  | terminal {e : Edge} (ht : e.isTerminal) : Within s V e
  | node {e : Edge} (hvar : V (s.var e)) (hchild : ∀ b, Within s V (s.child b e)) : Within s V e

theorem Ordered.within {s : Store} {V : Nat → Prop} (ho : s.Ordered V) (hs : s.Layered) {e : Edge}
    (he : s.Has e) : s.Within V e := by
  induction hindex : e.index using Nat.strong_induction_on generalizing e with
  | h index ih =>
    by_cases ht : e.isTerminal
    · exact .terminal ht
    · refine .node (ho.var_mem_of_has he ht) fun b => ?_
      have hlt := hs.index_child_lt he ht b
      exact ih (s.child b e).index (by omega) (hs.has_child he ht b) rfl

theorem Within.neg {s : Store} {V : Nat → Prop} {e : Edge} (h : s.Within V e)
    (hs : s.Layered) (he : s.Has e) : s.Within V (-e) := by
  induction h with
  | @terminal e ht => exact .terminal (by simpa using ht)
  | @node e hvar hchild ih =>
    by_cases ht : e.isTerminal
    · exact .terminal (by simpa using ht)
    · refine .node (by rw [s.var_neg e]; exact hvar) fun b => ?_
      rw [hs.child_neg he]
      exact ih b (hs.has_child he ht b)

theorem Has.regular {s : Store} {e : Edge} (h : s.Has e) : s.Has e.regular := by
  simpa only [Has, Edge.index_regular] using h

theorem Within.regular {s : Store} {V : Nat → Prop} {e : Edge} (h : s.Within V e) (hs : s.Layered)
    (he : s.Has e) : s.Within V e.regular := by
  rcases e.regular_cases with ⟨-, heq⟩ | ⟨-, heq⟩
  · rw [heq]
    exact h
  · rw [heq]
    exact h.neg hs he

theorem Within.of_node {s : Store} {V : Nat → Prop} {e : Edge} (h : s.Within V e)
    (ht : ¬ e.isTerminal) : V (s.var e) ∧ ∀ b, s.Within V (s.child b e) := by
  cases h with
  | terminal hterminal => exact absurd hterminal ht
  | node hvar hchild => exact ⟨hvar, hchild⟩

/-- An edge does not depend on a variable that comes before it. -/
theorem Ordered.value_update {s : Store} {V : Nat → Prop} (ho : s.Ordered V) (hs : s.Layered)
    {e : Edge} (he : s.Has e) {var : Nat} (hafter : s.After var e) (ρ : Nat → Bool) (b : Bool) :
    s.value (Function.update ρ var b) e = s.value ρ e := by
  induction hindex : e.index using Nat.strong_induction_on generalizing e with
  | h index ih =>
    by_cases ht : e.isTerminal
    · rw [s.value_of_isTerminal _ ht, s.value_of_isTerminal _ ht]
    · have hlt : var < s.var e := hafter.resolve_left ht
      have hsame : Function.update ρ var b (s.var e) = ρ (s.var e) :=
        Function.update_of_ne (by omega) b ρ
      rw [hs.value_child _ he ht, hs.value_child ρ he ht, hsame]
      have hsmaller := hs.index_child_lt he ht (ρ (s.var e))
      have hlater := (ho.after_child he ht (ρ (s.var e))).mono (Nat.le_of_lt hlt)
      exact ih _ (by omega) (hs.has_child he ht _) hlater rfl

/-- With its variable fixed an edge has the function of one child. -/
theorem Ordered.value_update_var {s : Store} {V : Nat → Prop} (ho : s.Ordered V) (hs : s.Layered)
    {e : Edge} (he : s.Has e) (ht : ¬ e.isTerminal) (ρ : Nat → Bool) (b : Bool) :
    s.value (Function.update ρ (s.var e) b) e = s.value ρ (s.child b e) := by
  rw [hs.value_child _ he ht, Function.update_self]
  exact ho.value_update hs (hs.has_child he ht b) (ho.after_child he ht b) ρ b

def models (s : Store) (V : Finset Nat) (e : Edge) : Nat := modelCount V fun ρ => s.value ρ e

theorem models_one (s : Store) (V : Finset Nat) : s.models V .one = 2 ^ V.card := by
  simp only [models, value_one, modelCount_true]

theorem models_zero (s : Store) (V : Finset Nat) : s.models V .zero = 0 := by
  simp [models, modelCount]

theorem Layered.models_neg {s : Store} (hs : s.Layered) (V : Finset Nat) {e : Edge}
    (he : s.Has e) : s.models V (-e) = 2 ^ V.card - s.models V e := by
  simp only [models, hs.value_neg _ he]
  exact modelCount_not V _

/-- The models of an edge are half of those of its children together. -/
theorem Ordered.two_mul_models {s : Store} {U : Nat → Prop} (ho : s.Ordered U) (hs : s.Layered)
    {V : Finset Nat} {e : Edge} (he : s.Has e) (ht : ¬ e.isTerminal) (hvar : s.var e ∈ V) :
    2 * s.models V e = s.models V (s.child false e) + s.models V (s.child true e) := by
  have hnot : s.var e ∉ V.erase (s.var e) := Finset.notMem_erase (s.var e) V
  have hinsert : V = insert (s.var e) (V.erase (s.var e)) := (Finset.insert_erase hvar).symm
  have hfree : ∀ (b : Bool) ρ c, s.value (Function.update ρ (s.var e) c) (s.child b e) =
      s.value ρ (s.child b e) := fun b ρ c =>
    ho.value_update hs (hs.has_child he ht b) (ho.after_child he ht b) ρ c
  have hchild : ∀ b, s.models V (s.child b e) =
      2 * modelCount (V.erase (s.var e)) fun ρ => s.value ρ (s.child b e) := by
    intro b
    rw [models, hinsert, modelCount_insert_of_free hnot (hfree b), ← hinsert]
  have hsplit : s.models V e =
      modelCount (V.erase (s.var e)) (fun ρ => s.value ρ (s.child false e)) +
        modelCount (V.erase (s.var e)) (fun ρ => s.value ρ (s.child true e)) := by
    rw [models, hinsert, modelCount_insert hnot, ← hinsert]
    simp only [ho.value_update_var hs he ht]
  rw [hchild, hchild, hsplit]
  omega

def freshCountWithin (s : Store) (full : Nat) : Nat → Edge → Nat
  | 0, _ => full
  | fuel + 1, e =>
    if e = .zero then 0
    else if e = .one then full
    else
      let half := (s.freshCountWithin full fuel (s.low e.regular) +
        s.freshCountWithin full fuel (s.high e.regular)) / 2
      if e.isNegated then full - half else half

def freshCount (s : Store) (full : Nat) (e : Edge) : Nat := s.freshCountWithin full e.index e

theorem Layered.isNegated_regular {s : Store} (hs : s.Layered) {e : Edge} (he : s.Has e) :
    e.regular.isNegated = false := by
  rcases e.regular_cases with ⟨hsign, heq⟩ | ⟨hsign, heq⟩
  · rw [heq, hsign]
  · rw [heq, hs.isNegated_neg he, hsign]
    rfl

theorem Layered.child_regular {s : Store} (hs : s.Layered) {e : Edge} (he : s.Has e)
    (ht : ¬ e.isTerminal) (b : Bool) :
    s.Has (s.child b e.regular) ∧ (s.child b e.regular).index < e.index := by
  have ht' : ¬ e.regular.isTerminal := by simpa using ht
  have hlt := hs.index_child_lt he.regular ht' b
  rw [Edge.index_regular] at hlt
  exact ⟨hs.has_child he.regular ht' b, hlt⟩

/-- Any fuel from the index on gives the same count. -/
theorem Layered.freshCountWithin_eq {s : Store} (hs : s.Layered) (full : Nat) {e : Edge}
    (he : s.Has e) {fuel fuel' : Nat} (hfuel : e.index ≤ fuel) (hfuel' : e.index ≤ fuel') :
    s.freshCountWithin full fuel e = s.freshCountWithin full fuel' e := by
  have hpos := he.1
  induction fuel generalizing e fuel' with
  | zero => omega
  | succ fuel ih =>
    obtain ⟨fuel', rfl⟩ : ∃ n, fuel' = n + 1 := ⟨fuel' - 1, by omega⟩
    by_cases ht : e.isTerminal
    · rcases e.eq_one_or_zero ht with rfl | rfl <;> rfl
    · have hchild : ∀ b, s.freshCountWithin full fuel (s.child b e.regular) =
          s.freshCountWithin full fuel' (s.child b e.regular) := by
        intro b
        obtain ⟨hhas, hlt⟩ := hs.child_regular he ht b
        exact ih hhas (by omega) (by omega) hhas.1
      have hlow : s.freshCountWithin full fuel (s.low e.regular) = _ := hchild false
      have hhigh : s.freshCountWithin full fuel (s.high e.regular) = _ := hchild true
      rw [freshCountWithin, freshCountWithin, hlow, hhigh]
      rfl

/-- A node counts half of what its children count together, and a negated edge what its node
does not. -/
theorem Layered.freshCount_node {s : Store} (hs : s.Layered) (full : Nat) {e : Edge}
    (he : s.Has e) (ht : ¬ e.isTerminal) :
    s.freshCount full e =
      if e.isNegated then
        full - (s.freshCount full (s.low e.regular) + s.freshCount full (s.high e.regular)) / 2
      else (s.freshCount full (s.low e.regular) + s.freshCount full (s.high e.regular)) / 2 := by
  obtain ⟨fuel, hfuel⟩ : ∃ n, e.index = n + 1 := ⟨e.index - 1, by have := he.1; omega⟩
  have hone : e ≠ .one := fun h => ht (h ▸ rfl)
  have hzero : e ≠ .zero := fun h => ht (h ▸ rfl)
  have hchild : ∀ b, s.freshCountWithin full fuel (s.child b e.regular) =
      s.freshCount full (s.child b e.regular) := by
    intro b
    obtain ⟨hhas, hlt⟩ := hs.child_regular he ht b
    exact hs.freshCountWithin_eq full hhas (by omega) (Nat.le_refl _)
  have hlow : s.freshCountWithin full fuel (s.low e.regular) = _ := hchild false
  have hhigh : s.freshCountWithin full fuel (s.high e.regular) = _ := hchild true
  rw [freshCount, hfuel, freshCountWithin, if_neg hzero, if_neg hone, hlow, hhigh]
  rfl

def Remembers (s : Store) (full : Nat) (known : Counts) : Prop :=
  ∀ (e : Edge) count, known[e]? = some count → count = s.freshCount full e

theorem Remembers.insert {s : Store} {full : Nat} {known : Counts} (h : s.Remembers full known)
    (e : Edge) : s.Remembers full (known.insert e (s.freshCount full e)) := by
  intro d count hcount
  simp only [Std.TreeMap.getElem?_insert, Std.LawfulEqCmp.compare_eq_iff_eq] at hcount
  split at hcount
  · next heq =>
    rw [← heq]
    exact (Option.some.inj hcount).symm
  · exact h d count hcount

/-- With a memory or without, an edge has one count. -/
theorem Layered.countWithin_eq {s : Store} (hs : s.Layered) (full : Nat) {e : Edge} (he : s.Has e)
    {fuel : Nat} (hfuel : e.index ≤ fuel) {known : Counts} (hknown : s.Remembers full known) :
    (s.countWithin full fuel e known).1 = s.freshCount full e ∧
      s.Remembers full (s.countWithin full fuel e known).2 := by
  have hpos := he.1
  induction fuel generalizing e known with
  | zero => omega
  | succ fuel ih =>
    by_cases ht : e.isTerminal
    · rcases e.eq_one_or_zero ht with rfl | rfl <;> exact ⟨rfl, hknown⟩
    · have hone : e ≠ .one := fun h => ht (h ▸ rfl)
      have hzero : e ≠ .zero := fun h => ht (h ▸ rfl)
      rw [countWithin, if_neg hzero, if_neg hone]
      cases hlookup : known[e]? with
      | some count => exact ⟨hknown e count hlookup, hknown⟩
      | none =>
        have hchild : ∀ b known, s.Remembers full known →
            (s.countWithin full fuel (s.child b e.regular) known).1 =
              s.freshCount full (s.child b e.regular) ∧
            s.Remembers full (s.countWithin full fuel (s.child b e.regular) known).2 := by
          intro b known hknown
          obtain ⟨hhas, hlt⟩ := hs.child_regular he ht b
          exact ih hhas (by omega) hknown hhas.1
        obtain ⟨hlow, hknown₁⟩ := hchild false known hknown
        obtain ⟨hhigh, hknown₂⟩ := hchild true _ hknown₁
        have hcount := hs.freshCount_node full he ht
        have hlow' : (s.countWithin full fuel (s.low e.regular) known).1 = _ := hlow
        have hhigh' : (s.countWithin full fuel (s.high e.regular)
          (s.countWithin full fuel (s.low e.regular) known).2).1 = _ := hhigh
        have hinsert := hknown₂.insert e
        rw [hcount] at hinsert ⊢
        simp only [hlow', hhigh']
        exact ⟨rfl, hinsert⟩

theorem Layered.count_eq_freshCount {s : Store} (hs : s.Layered) {e : Edge} (he : s.Has e)
    (vars : Nat) : s.count e vars = s.freshCount (2 ^ vars) e := by
  have hempty : s.Remembers (2 ^ vars) ∅ := by
    intro d count hcount
    rw [Std.TreeMap.getElem?_emptyc] at hcount
    cases hcount
  exact (hs.countWithin_eq (2 ^ vars) he (Nat.le_refl _) hempty).1

theorem count_one (s : Store) (vars : Nat) : s.count .one vars = 2 ^ vars := rfl

theorem count_zero (s : Store) (vars : Nat) : s.count .zero vars = 0 := rfl

theorem Layered.count_node {s : Store} (hs : s.Layered) {e : Edge} (he : s.Has e)
    (ht : ¬ e.isTerminal) (vars : Nat) :
    s.count e vars =
      if e.isNegated then
        2 ^ vars - (s.count (s.low e.regular) vars + s.count (s.high e.regular) vars) / 2
      else (s.count (s.low e.regular) vars + s.count (s.high e.regular) vars) / 2 := by
  have hlow : s.count (s.low e.regular) vars = s.freshCount (2 ^ vars) (s.low e.regular) :=
    hs.count_eq_freshCount (hs.child_regular he ht false).1 vars
  have hhigh : s.count (s.high e.regular) vars = s.freshCount (2 ^ vars) (s.high e.regular) :=
    hs.count_eq_freshCount (hs.child_regular he ht true).1 vars
  rw [hlow, hhigh, hs.count_eq_freshCount he]
  exact hs.freshCount_node (2 ^ vars) he ht

/-- A node counts half of what its children count together. -/
theorem Layered.count_regular {s : Store} (hs : s.Layered) {e : Edge} (he : s.Has e)
    (ht : ¬ e.isTerminal) (vars : Nat) :
    s.count e.regular vars =
      (s.count (s.low e.regular) vars + s.count (s.high e.regular) vars) / 2 := by
  have hregular : e.regular.regular = e.regular := congrArg Edge.toNode e.index_regular
  rw [hs.count_node he.regular (by simpa using ht), hs.isNegated_regular he, hregular,
    if_neg Bool.false_ne_true]

/-- A negated edge counts what its node does not. -/
theorem Layered.count_eq {s : Store} (hs : s.Layered) {e : Edge} (he : s.Has e) (vars : Nat) :
    s.count e vars = if e.isNegated then 2 ^ vars - s.count e.regular vars
      else s.count e.regular vars := by
  by_cases ht : e.isTerminal
  · rcases e.eq_one_or_zero ht with rfl | rfl
    · rfl
    · exact (Nat.sub_self (2 ^ vars)).symm
  · rw [hs.count_regular he ht]
    exact hs.count_node he ht vars

/-- Among any number of variables, few as they may be, an edge counts at most all assignments. -/
theorem Layered.count_le {s : Store} (hs : s.Layered) {e : Edge} (he : s.Has e) (vars : Nat) :
    s.count e vars ≤ 2 ^ vars := by
  induction hindex : e.index using Nat.strong_induction_on generalizing e with
  | h index ih =>
    by_cases ht : e.isTerminal
    · rcases e.eq_one_or_zero ht with rfl | rfl
      · exact (s.count_one vars).le
      · rw [s.count_zero]
        exact Nat.zero_le _
    · have hregular := he.regular
      have ht' : ¬ e.regular.isTerminal := by simpa using ht
      have hchild : ∀ b, s.count (s.child b e.regular) vars ≤ 2 ^ vars := by
        intro b
        have hlt := hs.index_child_lt hregular ht' b
        rw [Edge.index_regular] at hlt
        exact ih _ (by omega) (hs.has_child hregular ht' b) rfl
      have hlow : s.count (s.low e.regular) vars ≤ 2 ^ vars := hchild false
      have hhigh : s.count (s.high e.regular) vars ≤ 2 ^ vars := hchild true
      have hnode := hs.count_regular he ht vars
      rw [hs.count_eq he]
      by_cases hsign : e.isNegated
      · rw [if_pos hsign]
        omega
      · rw [if_neg hsign]
        omega

/-- The count of an edge among as many variables as a set has is the number of assignments of
the set that satisfy the edge, if the set has all variables of the edge. -/
theorem Ordered.count_eq_models {s : Store} {U : Nat → Prop} (ho : s.Ordered U) (hs : s.Layered)
    (V : Finset Nat) {e : Edge} (he : s.Has e) (hwithin : s.Within (· ∈ V) e) :
    s.count e V.card = s.models V e := by
  induction hindex : e.index using Nat.strong_induction_on generalizing e with
  | h index ih =>
    by_cases ht : e.isTerminal
    · rcases e.eq_one_or_zero ht with rfl | rfl
      · rw [s.count_one, s.models_one]
      · rw [s.count_zero, s.models_zero]
    · have hregular := he.regular
      have ht' : ¬ e.regular.isTerminal := by simpa using ht
      obtain ⟨hvar, hchild⟩ := (hwithin.regular hs he).of_node ht'
      have hcount : ∀ b, s.count (s.child b e.regular) V.card =
          s.models V (s.child b e.regular) := by
        intro b
        have hlt := hs.index_child_lt hregular ht' b
        rw [Edge.index_regular] at hlt
        exact ih _ (by omega) (hs.has_child hregular ht' b) (hchild b) rfl
      -- The count of the node is exact because it is half of an even number.
      have hnode : s.count e.regular V.card = s.models V e.regular := by
        have hlow : s.count (s.low e.regular) V.card = _ := hcount false
        have hhigh : s.count (s.high e.regular) V.card = _ := hcount true
        have hsum := ho.two_mul_models hs hregular ht' hvar
        rw [hs.count_regular he ht, hlow, hhigh]
        omega
      rw [hs.count_eq he, hnode]
      rcases e.regular_cases with ⟨hsign, heq⟩ | ⟨hsign, heq⟩
      · simp [hsign, heq]
      · have hneg : e = -e.regular := by rw [heq, Edge.neg_neg]
        rw [hsign, if_pos rfl, ← hs.models_neg V hregular, ← hneg]

end Store

end GuardedMachines.Diagram
