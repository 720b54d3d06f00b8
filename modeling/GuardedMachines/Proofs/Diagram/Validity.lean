import GuardedMachines.Proofs.Diagram.Value

/-!
Valid stores. Nodes are proper and stored once, the table of nodes knows exactly
the stored ones, remembered results are right, and the bound on the nodes is
kept, which leaves every index room beside the sign of an edge. A store changes
in three ways only: the clock is read, a node is appended, a result is
remembered. What an operation does is said by the function that it computes, and
by the store that it leaves, whether or not it reached a bound.
-/

namespace GuardedMachines.Diagram

instance : Std.TransOrd Edge := inferInstanceAs (Std.TransCmp (compareOn Edge.code))

instance : Std.TransOrd Node :=
  inferInstanceAs (Std.TransCmp (compareLex (compareOn Node.var)
    (compareLex (compareOn Node.low) (compareOn Node.high))))

instance : Std.TransOrd Triple :=
  inferInstanceAs (Std.TransCmp (compareLex (compareOn Triple.test)
    (compareLex (compareOn Triple.onTrue) (compareOn Triple.onFalse))))

instance : Std.LawfulEqOrd Edge where
  eq_of_compare {d e} h := by
    have hcode : compare d.code e.code = .eq := h
    exact congrArg Edge.mk (Std.LawfulEqCmp.eq_of_compare hcode)

instance : Std.LawfulEqOrd Node where
  eq_of_compare {m n} h := by
    obtain ⟨hvar, hchildren⟩ := compareLex_eq_eq.mp h
    obtain ⟨hlow, hhigh⟩ := compareLex_eq_eq.mp hchildren
    have hvar' : m.var = n.var := Std.LawfulEqCmp.eq_of_compare hvar
    have hlow' : m.low = n.low := Std.LawfulEqCmp.eq_of_compare hlow
    have hhigh' : m.high = n.high := Std.LawfulEqCmp.eq_of_compare hhigh
    cases m
    cases n
    simp_all

instance : Std.LawfulEqOrd Triple where
  eq_of_compare {t u} h := by
    obtain ⟨htest, hbranches⟩ := compareLex_eq_eq.mp h
    obtain ⟨htrue, hfalse⟩ := compareLex_eq_eq.mp hbranches
    have htest' : t.test = u.test := Std.LawfulEqCmp.eq_of_compare htest
    have htrue' : t.onTrue = u.onTrue := Std.LawfulEqCmp.eq_of_compare htrue
    have hfalse' : t.onFalse = u.onFalse := Std.LawfulEqCmp.eq_of_compare hfalse
    cases t
    cases u
    simp_all

namespace Store

structure Valid (s : Store) : Prop extends Layered s where
  size_le : s.nodes.size ≤ max 2 s.limits.nodeLimit
  limit_word : s.limits.nodeLimit ≤ 2147483648
  unique_iff : ∀ (n : Node) i, s.unique[n]? = some i ↔ 2 ≤ i.toNat ∧ s.nodes[i.toNat]? = some n
  computed_has : ∀ (t : Triple) r, s.computed[t]? = some r → t.Forall s.Has ∧ s.Has r
  computed_value : ∀ (t : Triple) r, s.computed[t]? = some r →
    ∀ ρ, s.value ρ r = t.holds (s.value ρ)

/-- The outcome of an operation on a store: the store it leaves is valid and has
grown, and the edge it answers has the given function. -/
structure Computes (s : Store) (outcome : Outcome Edge) (φ : (Nat → Bool) → Bool) : Prop where
  valid : outcome.2.Valid
  grown : s.Extends outcome.2
  has : ∀ r, outcome.1 = .ok r → outcome.2.Has r
  value : ∀ r, outcome.1 = .ok r → ∀ ρ, outcome.2.value ρ r = φ ρ

namespace Computes

variable {s s' : Store} {e : Edge} {φ : (Nat → Bool) → Bool}

theorem error (hvalid : s'.Valid) (hgrown : s.Extends s') (cause : Exhaustion) :
    Computes s (.error cause, s') φ :=
  ⟨hvalid, hgrown, fun _ h => (nomatch h), fun _ h => (nomatch h)⟩

theorem ok (hvalid : s'.Valid) (hgrown : s.Extends s') (he : s'.Has e)
    (hvalue : ∀ ρ, s'.value ρ e = φ ρ) : Computes s (.ok e, s') φ where
  valid := hvalid
  grown := hgrown
  has r h := by
    cases h
    exact he
  value r h := by
    cases h
    exact hvalue

theorem negateIf (h : Computes s (.ok e, s') φ) (b : Bool) :
    Computes s (.ok (e.negateIf b), s') fun ρ => φ ρ != b := by
  have he := h.has e rfl
  refine ok h.valid h.grown (he.negateIf b) fun ρ => ?_
  rw [h.valid.value_negateIf ρ he b, h.value e rfl ρ]

/-- An operation may start from a store that has grown before. -/
theorem from_earlier {outcome : Outcome Edge} (h : Computes s' outcome φ) (hgrown : s.Extends s') :
    Computes s outcome φ :=
  ⟨h.valid, hgrown.trans h.grown, h.has, h.value⟩

theorem congr {outcome : Outcome Edge} {ψ : (Nat → Bool) → Bool} (h : Computes s outcome φ)
    (heq : ∀ ρ, φ ρ = ψ ρ) : Computes s outcome ψ :=
  ⟨h.valid, h.grown, h.has, fun r hr ρ => (h.value r hr ρ).trans (heq ρ)⟩

end Computes

theorem new_valid {limits : Limits} (hlimit : limits.nodeLimit ≤ 2147483648) (clock : Clock) :
    (new limits clock).Valid where
  size_ge := Nat.le_refl 2
  size_word := show 2 ≤ 2147483648 by decide
  size_le := Nat.le_max_left ..
  limit_word := hlimit
  proper i n hi hn := by
    have hlt := (Array.getElem?_eq_some_iff.mp hn).1
    simp only [new, List.size_toArray, List.length_cons, List.length_nil] at hlt
    omega
  unique_iff n i := by
    have hempty : (new limits clock).unique[n]? = none := Std.TreeMap.getElem?_emptyc
    rw [hempty]
    constructor
    · intro h
      cases h
    · rintro ⟨hi, hn⟩
      have hlt := (Array.getElem?_eq_some_iff.mp hn).1
      simp only [new, List.size_toArray, List.length_cons, List.length_nil] at hlt
      omega
  computed_has t r h := by
    have hempty : (new limits clock).computed[t]? = none := Std.TreeMap.getElem?_emptyc
    rw [hempty] at h
    cases h
  computed_value t r h := by
    have hempty : (new limits clock).computed[t]? = none := Std.TreeMap.getElem?_emptyc
    rw [hempty] at h
    cases h

/-- Reading the clock changes nothing else. -/
theorem checkTime_store {s s' : Store} {answer : Except Exhaustion Unit}
    (h : s.checkTime = (answer, s')) : s' = { s with readings := s'.readings } := by
  unfold checkTime at h
  split at h
  · cases h
    rfl
  · split at h
    · cases h
      rfl
    · cases h
      rfl

theorem extends_readings (s : Store) (readings : Nat) :
    s.Extends { s with readings := readings } := ⟨rfl, List.prefix_refl _⟩

namespace Valid

variable {s s' : Store}

theorem withReadings (hs : s.Valid) (readings : Nat) :
    Store.Valid { s with readings := readings } where
  size_ge := hs.size_ge
  size_word := hs.size_word
  size_le := hs.size_le
  limit_word := hs.limit_word
  proper := hs.proper
  unique_iff := hs.unique_iff
  computed_has := hs.computed_has
  computed_value t r h ρ := by
    obtain ⟨ht, hr⟩ := hs.computed_has t r h
    have hgrown := s.extends_readings readings
    rw [hgrown.value_eq hs.toLayered ρ hr, hgrown.holds_eq hs.toLayered ρ ht]
    exact hs.computed_value t r h ρ

theorem checkTime (hs : s.Valid) {answer : Except Exhaustion Unit}
    (h : s.checkTime = (answer, s')) : s'.Valid := by
  rw [checkTime_store h]
  exact hs.withReadings _

end Valid

theorem checkTime_extends {s s' : Store} {answer : Except Exhaustion Unit}
    (h : s.checkTime = (answer, s')) : s.Extends s' := by
  rw [checkTime_store h]
  exact s.extends_readings _

theorem extends_remember (s : Store) (t : Triple) (e : Edge) : s.Extends (s.remember t e) :=
  ⟨rfl, List.prefix_refl _⟩

theorem node_remember (s : Store) (t : Triple) (e d : Edge) : (s.remember t e).node d = s.node d :=
  rfl

theorem computed_remember (s : Store) (t u : Triple) (e : Edge) :
    (s.remember t e).computed[u]? = if t = u then some e else s.computed[u]? := by
  change (s.computed.insert t e)[u]? = _
  simp only [Std.TreeMap.getElem?_insert, Std.LawfulEqCmp.compare_eq_iff_eq]

def pushed (s : Store) (n : Node) : Store :=
  { s with nodes := s.nodes.push n, unique := s.unique.insert n (.ofNat s.nodes.size) }

theorem append_eq (s : Store) (n : Node) :
    s.append n =
      if s.limits.nodeLimit ≤ s.nodes.size then (.error (.nodeLimit s.limits.nodeLimit), s)
      else (.ok (.toNode (UInt32.ofNat s.nodes.size).toNat), s.pushed n) := rfl

theorem extends_pushed (s : Store) (n : Node) : s.Extends (s.pushed n) :=
  ⟨rfl, by simp [pushed]⟩

theorem getElem?_pushed (s : Store) (n : Node) (i : Nat) :
    (s.pushed n).nodes[i]? = if i = s.nodes.size then some n else s.nodes[i]? :=
  Array.getElem?_push

theorem unique_pushed (s : Store) (n m : Node) :
    (s.pushed n).unique[m]? = if n = m then some (.ofNat s.nodes.size) else s.unique[m]? := by
  change (s.unique.insert n (.ofNat s.nodes.size))[m]? = _
  simp only [Std.TreeMap.getElem?_insert, Std.LawfulEqCmp.compare_eq_iff_eq]

theorem size_pushed (s : Store) (n : Node) : (s.pushed n).nodes.size = s.nodes.size + 1 :=
  Array.size_push n

theorem node_pushed {s : Store} (n : Node) {e : Edge} (h : e.index = s.nodes.size) :
    (s.pushed n).node e = n := by
  have hnodes := s.getElem?_pushed n e.index
  rw [if_pos h] at hnodes
  rw [node, Array.getD_eq_getD_getElem?, hnodes]
  rfl

theorem mkNode_self (s : Store) (var : Nat) (e : Edge) : s.mkNode var e e = (.ok e, s) := by
  unfold mkNode mkRegular
  split <;> simp

/-- The number of nodes keeps its value as the index of the next one. -/
theorem Layered.toNat_size {s : Store} (hs : s.Layered) :
    (UInt32.ofNat s.nodes.size).toNat = s.nodes.size :=
  UInt32.toNat_ofNat_of_lt (Nat.lt_of_le_of_lt hs.size_word (by decide))

theorem Layered.pushed {s : Store} (hs : s.Layered) {n : Node} (hn : n.Proper s.nodes.size)
    (hroom : s.nodes.size < 2147483648) : (s.pushed n).Layered where
  size_ge := Nat.le_trans hs.size_ge (s.extends_pushed n).size_le
  size_word := by
    rw [s.size_pushed n]
    exact hroom
  proper i m hi hm := by
    rw [s.getElem?_pushed n i] at hm
    split at hm
    · cases hm
      subst i
      exact hn
    · exact hs.proper i m hi hm

theorem Valid.pushed {s : Store} (hs : s.Valid) {n : Node} (hn : n.Proper s.nodes.size)
    (hnew : s.unique[n]? = none) (hroom : s.nodes.size < s.limits.nodeLimit) :
    (s.pushed n).Valid where
  toLayered := hs.toLayered.pushed hn (Nat.lt_of_lt_of_le hroom hs.limit_word)
  size_le := by
    rw [s.size_pushed n]
    exact Nat.le_trans hroom (Nat.le_max_right ..)
  limit_word := hs.limit_word
  unique_iff m i := by
    have hge := hs.size_ge
    have hlast := hs.toNat_size
    rw [s.unique_pushed n m, s.getElem?_pushed n i.toNat]
    by_cases hnm : n = m
    · subst m
      rw [if_pos rfl]
      by_cases hi : i.toNat = s.nodes.size
      · have hindex : UInt32.ofNat s.nodes.size = i := UInt32.toNat_inj.mp (hlast.trans hi.symm)
        simp [hi, hge, hindex]
      · have hindex : UInt32.ofNat s.nodes.size ≠ i := fun h => hi (h ▸ hlast)
        rw [if_neg hi, ← hs.unique_iff n i, hnew]
        simp [hindex]
    · rw [if_neg hnm, hs.unique_iff m i]
      by_cases hi : i.toNat = s.nodes.size
      · simp [hi, hnm]
      · rw [if_neg hi]
  computed_has t r h := by
    obtain ⟨ht, hr⟩ := hs.computed_has t r h
    have hgrown := s.extends_pushed n
    exact ⟨ht.mono fun _ he => hgrown.has he, hgrown.has hr⟩
  computed_value t r h ρ := by
    obtain ⟨ht, hr⟩ := hs.computed_has t r h
    have hgrown := s.extends_pushed n
    rw [hgrown.value_eq hs.toLayered ρ hr, hgrown.holds_eq hs.toLayered ρ ht]
    exact hs.computed_value t r h ρ

def literalValue (ρ : Nat → Bool) (literal : Int32) : Bool :=
  ρ (Word.magnitude literal) != decide (literal < 0)

def nodeValue (s : Store) (n : Node) (ρ : Nat → Bool) : Bool :=
  if ρ n.var then s.value ρ n.high else s.value ρ n.low

namespace Layered

variable {s : Store} {n : Node} {i : Nat}

/-- Indices of stored nodes keep their value in edges. -/
theorem lt_of_getElem? (hs : s.Layered) (hn : s.nodes[i]? = some n) : i < 2147483648 :=
  Nat.lt_of_lt_of_le (Array.getElem?_eq_some_iff.mp hn).1 hs.size_word

theorem toNode_has (hs : s.Layered) (hi : 2 ≤ i) (hn : s.nodes[i]? = some n) :
    s.Has (.toNode i) := by
  have hlt := (Array.getElem?_eq_some_iff.mp hn).1
  rw [Has, Edge.index_toNode (hs.lt_of_getElem? hn)]
  exact ⟨Nat.le_trans (by omega) hi, hlt⟩

theorem node_toNode (hs : s.Layered) (hn : s.nodes[i]? = some n) : s.node (.toNode i) = n := by
  rw [node, Edge.index_toNode (hs.lt_of_getElem? hn), Array.getD_eq_getD_getElem?, hn]
  rfl

theorem toNode_not_isTerminal (hs : s.Layered) (hi : 2 ≤ i) (hn : s.nodes[i]? = some n) :
    ¬ (Edge.toNode i).isTerminal := by
  rw [Edge.isTerminal_iff, Edge.index_toNode (hs.lt_of_getElem? hn)]
  omega

/-- The regular edge to a node has the children stored in it. -/
theorem child_toNode (hs : s.Layered) (hn : s.nodes[i]? = some n) (b : Bool) :
    s.child b (.toNode i) = if b then n.high else n.low := by
  have hregular := Edge.isNegated_toNode (hs.lt_of_getElem? hn)
  cases b <;> simp [child, high, low, hs.node_toNode hn, hregular, Edge.negateIf]

theorem value_toNode (hs : s.Layered) (hi : 2 ≤ i) (hn : s.nodes[i]? = some n) (ρ : Nat → Bool) :
    s.value ρ (.toNode i) = s.nodeValue n ρ := by
  have hvar : s.var (.toNode i) = n.var := congrArg Node.var (hs.node_toNode hn)
  rw [hs.value_child ρ (hs.toNode_has hi hn) (hs.toNode_not_isTerminal hi hn), hs.child_toNode hn,
    hvar, nodeValue]
  cases ρ n.var <;> rfl

end Layered

namespace Valid

variable {s : Store}

theorem append (hs : s.Valid) {n : Node} (hn : n.Proper s.nodes.size) (hnew : s.unique[n]? = none) :
    Computes s (s.append n) (s.nodeValue n) := by
  rw [append_eq]
  split
  · exact .error hs (.refl s) _
  · have hvalid := hs.pushed hn hnew (by omega)
    have hgrown := s.extends_pushed n
    have hlast : (s.pushed n).nodes[s.nodes.size]? = some n := by
      rw [s.getElem?_pushed n, if_pos rfl]
    rw [hs.toNat_size]
    refine .ok hvalid hgrown (hvalid.toNode_has hs.size_ge hlast) fun ρ => ?_
    rw [hvalid.value_toNode hs.size_ge hlast ρ, nodeValue, nodeValue,
      hgrown.value_eq hs.toLayered ρ ⟨hn.high_pos, hn.high_lt⟩,
      hgrown.value_eq hs.toLayered ρ ⟨hn.low_pos, hn.low_lt⟩]

theorem mkRegular (hs : s.Valid) {n : Node} (hregular : n.high.isNegated = false)
    (hlow : s.Has n.low) (hhigh : s.Has n.high) :
    Computes s (s.mkRegular n) (s.nodeValue n) := by
  unfold Store.mkRegular
  split
  · next heq =>
    refine .ok hs (.refl s) hlow fun ρ => ?_
    simp [nodeValue, heq]
  · next hne =>
    split
    · next index hknown =>
      obtain ⟨hi, hn⟩ := (hs.unique_iff n index).mp hknown
      exact .ok hs (.refl s) (hs.toNode_has hi hn) (hs.value_toNode hi hn)
    · next hnew =>
      exact hs.append ⟨hregular, hne, hlow.1, hlow.2, hhigh.1, hhigh.2⟩ hnew

theorem mkNode (hs : s.Valid) (var : Nat) {low high : Edge} (hlow : s.Has low)
    (hhigh : s.Has high) :
    Computes s (s.mkNode var low high) (s.nodeValue ⟨var, low, high⟩) := by
  unfold Store.mkNode
  by_cases hneg : high.isNegated
  · rw [if_pos hneg]
    have hregular : (-high).isNegated = false := by
      rw [hs.isNegated_neg hhigh, hneg]
      rfl
    have hopposite : ∀ ρ, (s.nodeValue ⟨var, -low, -high⟩ ρ != true) =
        s.nodeValue ⟨var, low, high⟩ ρ := by
      intro ρ
      simp only [nodeValue, hs.value_neg ρ hlow, hs.value_neg ρ hhigh]
      split <;> simp
    have hmade := hs.mkRegular (n := ⟨var, -low, -high⟩) hregular hlow.neg hhigh.neg
    split
    · next e s' hresult =>
      rw [hresult] at hmade
      exact (hmade.negateIf true).congr hopposite
    · next cause s' hresult =>
      rw [hresult] at hmade
      exact .error hmade.valid hmade.grown cause
  · rw [if_neg hneg]
    exact hs.mkRegular (by simpa using hneg) hlow hhigh

theorem mkVar (hs : s.Valid) (var : Nat) : Computes s (s.mkVar var) fun ρ => ρ var := by
  refine (hs.mkNode var hs.has_zero hs.has_one).congr fun ρ => ?_
  simp [nodeValue]

theorem mkLiteral (hs : s.Valid) (literal : Int32) :
    Computes s (s.mkLiteral literal) fun ρ => literalValue ρ literal := by
  unfold Store.mkLiteral
  have hvar := hs.mkVar (Word.magnitude literal)
  split
  · next e s' hresult =>
    rw [hresult] at hvar
    exact hvar.negateIf _
  · next cause s' hresult =>
    rw [hresult] at hvar
    exact .error hvar.valid hvar.grown cause

/-- Only right results may be remembered. -/
theorem remember (hs : s.Valid) {t : Triple} {e : Edge} (ht : t.Forall s.Has) (he : s.Has e)
    (hvalue : ∀ ρ, s.value ρ e = t.holds (s.value ρ)) : (s.remember t e).Valid where
  size_ge := hs.size_ge
  size_word := hs.size_word
  size_le := hs.size_le
  limit_word := hs.limit_word
  proper := hs.proper
  unique_iff := hs.unique_iff
  computed_has u r h := by
    rw [computed_remember] at h
    split at h
    · next htu =>
      subst u
      cases h
      exact ⟨ht, he⟩
    · exact hs.computed_has u r h
  computed_value u r h ρ := by
    have hgrown := s.extends_remember t e
    rw [computed_remember] at h
    split at h
    · next htu =>
      subst u
      cases h
      rw [hgrown.value_eq hs.toLayered ρ he, hgrown.holds_eq hs.toLayered ρ ht]
      exact hvalue ρ
    · obtain ⟨hu, hr⟩ := hs.computed_has u r h
      rw [hgrown.value_eq hs.toLayered ρ hr, hgrown.holds_eq hs.toLayered ρ hu]
      exact hs.computed_value u r h ρ

end Valid

end Store

end GuardedMachines.Diagram
