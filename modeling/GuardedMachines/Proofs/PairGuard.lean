import GuardedMachines.Proofs.Compilation
import GuardedMachines.Proofs.Diagram.PairClauses

/-!
A guard whose diagram has more nodes than edges have indices for, if its clauses come
first. Each clause is that a variable of its own is true or one that all clauses
share. The conjunction is found to be zero when its last clause is joined, where the
edges are no longer those of the nodes; yet it holds where the shared variable is
true. If the shared variable comes before the clauses, nodes are left over.
-/

namespace GuardedMachines

theorem Clause.eraseDups_eq_self {clauses : List Clause} (h : (clauses.map signature).Nodup) :
    clauses.eraseDups = clauses := by
  apply GuardedMachines.eraseDups_eq_self
  refine (List.pairwise_map.mp h).imp fun {c d} hne => ?_
  rw [← Bool.not_eq_true]
  exact fun hbeq => hne (signature_eq_of_beq hbeq).symm

namespace DiagramOracle

open Diagram Diagram.Store

section Answer

variable {limits : Limits} {clock : Clock} {cnf : Cnf} {root : Edge} {s : Store}
  (h : conjoinFrom (.new limits clock) .one
    (cnf.clauses.map fun c => c.literals.map (signedPosition cnf.vars)) = (.ok root, s))

include h

theorem compile_eq_ok : (compile limits clock cnf).result = .ok ⟨s, root, cnf.vars⟩ := by
  simp only [compile, h]

theorem solve_eq_ok :
    (solve limits clock cnf).result = .ok (Compiled.verdict ⟨s, root, cnf.vars⟩) := by
  apply Query.result_bind_eq_ok.mpr
  refine ⟨_, compile_eq_ok h, ?_⟩
  rw [Query.result_lift_bind, pathTraced, Compiled.verdict]
  cases s.path? root <;> rfl

theorem countModels_eq_ok :
    (countModels limits clock cnf).result = .ok (s.count root cnf.vars.length) :=
  Query.result_bind_eq_ok.mpr ⟨_, compile_eq_ok h, rfl⟩

end Answer

def pairWords (n : Nat) : Nat → List (List Int32)
  | 0 => []
  | k + 1 => [.ofNat (k + 1), .ofNat (n + 1)] :: pairWords n k

theorem conjoinFrom_pairWords_joined {s : Store} {limit n k m : Nat} {ns : List Node}
    (h : s.Joined limit n k ns) (hk : 1 ≤ k) (hkm : k + m + 1 = n) (hn : 3 * n = 2147483649)
    (hroom : 2147483649 < limit) (rest : List (List Int32)) :
    ∃ s', conjoinFrom s (.toNode (3 * k + 1)) (pairWords n (m + 1) ++ rest) = (.ok .zero, s') := by
  induction m generalizing s k ns with
  | zero =>
    obtain ⟨s', ns', hclause, hlists⟩ :=
      h.clause_wrapped (by omega) (by omega) (by omega) hroom
    have hindex : (Edge.toNode (3 * k + 1)).index = 3 * k + 1 := Edge.index_toNode (by omega)
    have hconj := hlists.conj_neg (inner_toNode (i := 3 * k + 1) (by omega) (by omega)) (by omega)
    rw [show n - k = 1 by omega] at hclause
    refine ⟨s', ?_⟩
    simp only [pairWords, List.cons_append, conjoinFrom, hclause, hconj, if_true]
  | succ m ih =>
    obtain ⟨s₁, ns₁, hclause, hoffered⟩ :=
      h.offer hk (by omega) (by omega) (by omega) (by omega)
    obtain ⟨s₂, ns₂, hconj, hjoined⟩ := hoffered.join hk (by omega) (by omega) (by omega)
    obtain ⟨s', hrest⟩ := ih hjoined (by omega) (by omega)
    have hzero : Edge.toNode (3 * k + 4) ≠ .zero := (inner_toNode (by omega) (by omega)).ne_zero
    rw [show n - k = m + 1 + 1 by omega] at hclause
    refine ⟨s', ?_⟩
    rw [pairWords, List.cons_append, conjoinFrom]
    simp only [hclause, hconj, if_neg hzero]
    exact hrest

theorem conjoinFrom_pairWords (clock : Clock) {limit n : Nat} (hn : 3 * n = 2147483649)
    (hroom : 2147483649 < limit) (rest : List (List Int32)) :
    ∃ s, conjoinFrom (.new ⟨none, limit⟩ clock) .one (pairWords n n ++ rest) =
      (.ok .zero, s) := by
  obtain ⟨m, rfl⟩ : ∃ m, n = m + 2 := ⟨n - 2, by omega⟩
  have hword : m + 2 + 1 < 2147483648 := by omega
  have hfour : 4 < limit := by omega
  obtain ⟨s, ns, hclause, hjoined⟩ := exists_joined_one clock (by omega) hword hfour
  obtain ⟨s', hrest⟩ :=
    conjoinFrom_pairWords_joined hjoined (m := m) (by omega) (by omega) hn hroom rest
  have hzero : Edge.toNode 4 ≠ .zero := by decide
  refine ⟨s', ?_⟩
  rw [pairWords, List.cons_append, conjoinFrom]
  simp only [hclause, hjoined.lists.conj_one, if_neg hzero]
  exact hrest

theorem conjoinFrom_pairWords_led {s : Store} {limit n k m : Nat} {ns : List Node}
    (h : s.Led limit n k ns) (hkm : k + m = n) (hword : 2 * n + 2 < 2147483648)
    (hroom : 2 * n + 2 < limit) :
    ∃ s', conjoinFrom s (.toNode 2) (pairWords n m) = (.ok (.toNode 2), s') := by
  induction m generalizing s k ns with
  | zero => exact ⟨s, rfl⟩
  | succ m ih =>
    obtain ⟨s₁, s₂, ns', hclause, hconj, hled⟩ :=
      h.step (by omega) (by omega) (by omega) (by omega)
    obtain ⟨s', hrest⟩ := ih hled (by omega)
    have hzero : Edge.toNode 2 ≠ .zero := by decide
    rw [show n - k = m + 1 by omega] at hclause
    refine ⟨s', ?_⟩
    rw [pairWords, conjoinFrom]
    simp only [hclause, hconj, if_neg hzero]
    exact hrest

theorem conjoinFrom_shared_pairWords (clock : Clock) {limit n : Nat}
    (hword : 2 * n + 2 < 2147483648) (hroom : 2 * n + 2 < limit) :
    ∃ s, conjoinFrom (.new ⟨none, limit⟩ clock) .one ([.ofNat (n + 1)] :: pairWords n n) =
      (.ok (.toNode 2), s) := by
  have hlast : n + 1 < 2147483648 := by omega
  have htwo : 2 < limit := by omega
  obtain ⟨s, ns, hclause, hled⟩ := exists_led_zero clock hlast htwo
  obtain ⟨s', hrest⟩ := conjoinFrom_pairWords_led hled (Nat.zero_add n) hword hroom
  have hzero : Edge.toNode 2 ≠ .zero := by decide
  refine ⟨s', ?_⟩
  rw [conjoinFrom]
  simp only [hclause, hled.lists.conj_one, if_neg hzero]
  exact hrest

end DiagramOracle

def numbered (i : Nat) : Variable := ⟨⟨i + 1, Nat.succ_pos i⟩, "V" ++ toString (i + 1), .boolean⟩

def pairClause (n i : Nat) : List Literal := [⟨numbered i, true⟩, ⟨numbered n, true⟩]

def pairClauses (n : Nat) : Nat → List (List Literal)
  | 0 => []
  | k + 1 => pairClause n k :: pairClauses n k

def pairsFrom (n : Nat) : Nat → Formula
  | 0 => .disj (.atom (numbered 0)) (.atom (numbered n))
  | k + 1 => .conj (.disj (.atom (numbered (k + 1))) (.atom (numbered n))) (pairsFrom n k)

/-- One of each of so many pairs is true. All pairs have their second member in common. -/
def pairGuard (n : Nat) : Formula := pairsFrom n (n - 1)

def sharedGuard (n : Nat) : Formula := .atom (numbered n)

theorem id_numbered_inj {i j : Nat} (h : (numbered i).id = (numbered j).id) : i = j :=
  Nat.succ.inj (congrArg VarId.number h)

theorem distribute_pairsFrom (n k : Nat) :
    Cnf.distribute (pairsFrom n k) true = pairClauses n (k + 1) := by
  induction k with
  | zero => rfl
  | succ k ih => rw [pairsFrom, Cnf.distribute, ih]; rfl

theorem distribute_pairGuard {n : Nat} (hn : 1 ≤ n) :
    Cnf.distribute (pairGuard n) true = pairClauses n n := by
  rw [pairGuard, distribute_pairsFrom, Nat.sub_add_cancel hn]

theorem mem_pairClauses {n k : Nat} {c : List Literal} :
    c ∈ pairClauses n k ↔ ∃ i < k, c = pairClause n i := by
  induction k with
  | zero => simp [pairClauses]
  | succ k ih =>
    rw [pairClauses, List.mem_cons, ih]
    constructor
    · rintro (rfl | ⟨i, hi, rfl⟩)
      · exact ⟨k, Nat.lt_succ_self k, rfl⟩
      · exact ⟨i, Nat.lt_succ_of_lt hi, rfl⟩
    · rintro ⟨i, hi, rfl⟩
      rcases Nat.lt_succ_iff_lt_or_eq.mp hi with hi | rfl
      · exact Or.inr ⟨i, hi, rfl⟩
      · exact Or.inl rfl

theorem holds_pairsFrom {a : VarId → Bool} {n : Nat} (h : a (numbered n).id = true) (k : Nat) :
    (pairsFrom n k).holds a = true := by
  induction k with
  | zero => simp [pairsFrom, Formula.holds, h]
  | succ k ih => simp [pairsFrom, Formula.holds, h, ih]

/-- The pairs hold where the shared variable is true. -/
theorem eval_pairGuard (n : Nat) :
    (pairGuard n).eval (.ofLiterals [⟨numbered n, true⟩]) = true := by
  apply holds_pairsFrom
  simp [Valuation.ofLiterals, Valuation.set, Valuation.setEntry, Valuation.empty,
    Valuation.assignment, Valuation.lookupId]

def sharedClause (n : Nat) : List Literal := [⟨numbered n, true⟩]

structure Covers (n : Nat) (rows : List (List Literal)) : Prop where
  numbered_of_mem : ∀ c ∈ rows, ∀ l ∈ c, ∃ i ≤ n, l.var = numbered i
  exists_mem : ∀ i ≤ n, ∃ c ∈ rows, ∃ l ∈ c, l.var = numbered i

theorem covers_pairClauses {n : Nat} (hn : 1 ≤ n) : Covers n (pairClauses n n) where
  numbered_of_mem c hc l hl := by
    obtain ⟨i, hi, rfl⟩ := mem_pairClauses.mp hc
    simp only [pairClause, List.mem_cons, List.not_mem_nil, or_false] at hl
    rcases hl with rfl | rfl
    · exact ⟨i, Nat.le_of_lt hi, rfl⟩
    · exact ⟨n, Nat.le_refl n, rfl⟩
  exists_mem i hi := by
    rcases Nat.lt_or_eq_of_le hi with hi | rfl
    · exact ⟨_, mem_pairClauses.mpr ⟨i, hi, rfl⟩, _, List.mem_cons_self, rfl⟩
    · exact ⟨_, mem_pairClauses.mpr ⟨0, hn, rfl⟩, ⟨numbered i, true⟩,
        List.mem_cons_of_mem _ List.mem_cons_self, rfl⟩

theorem Covers.of_perm_cons {n : Nat} {rows rows' : List (List Literal)} (h : Covers n rows)
    (hperm : rows'.Perm (sharedClause n :: rows)) : Covers n rows' where
  numbered_of_mem c hc l hl := by
    rcases List.mem_cons.mp (hperm.mem_iff.mp hc) with rfl | hc
    · exact ⟨n, Nat.le_refl n, by rw [List.mem_singleton.mp hl]⟩
    · exact h.numbered_of_mem c hc l hl
  exists_mem i hi := by
    obtain ⟨c, hc, hl⟩ := h.exists_mem i hi
    exact ⟨c, hperm.mem_iff.mpr (List.mem_cons_of_mem _ hc), hl⟩

theorem sorted_numbered (n : Nat) : Ascending.Sorted ((List.range n).map numbered) := by
  apply List.pairwise_map.mpr
  apply List.pairwise_lt_range.imp
  intro i j hij
  exact (Variable.compare_lt_iff _ _).mpr (Nat.succ_lt_succ hij)

namespace Covers

variable {n : Nat} {rows : List (List Literal)}

theorem map_id_vars (h : Covers n rows) :
    (Cnf.vars ⟨rows.map Clause.mk⟩).map Variable.id =
      ((List.range (n + 1)).map numbered).map Variable.id := by
  apply (Cnf.sorted_vars _).map_id_eq (sorted_numbered _)
  ext id
  rw [Cnf.mem_idSet_vars, mem_idSet]
  constructor
  · rintro ⟨_, hclause, l, hl, rfl⟩
    obtain ⟨c, hc, rfl⟩ := List.mem_map.mp hclause
    obtain ⟨i, hi, hvar⟩ := h.numbered_of_mem c hc l hl
    exact ⟨_, List.mem_map_of_mem (List.mem_range.mpr (Nat.lt_succ_of_le hi)), by rw [hvar]⟩
  · rintro ⟨_, hv, rfl⟩
    obtain ⟨i, hi, rfl⟩ := List.mem_map.mp hv
    obtain ⟨c, hc, l, hl, hvar⟩ := h.exists_mem i (Nat.le_of_lt_succ (List.mem_range.mp hi))
    exact ⟨_, List.mem_map_of_mem hc, l, hl, by rw [hvar]⟩

/-- A variable is at the position of its number. -/
theorem signedPosition_numbered (h : Covers n rows) {i : Nat} (hi : i ≤ n) :
    DiagramOracle.signedPosition (Cnf.vars ⟨rows.map Clause.mk⟩) ⟨numbered i, true⟩ =
      .ofNat (i + 1) := by
  have hids := h.map_id_vars
  generalize Cnf.vars ⟨rows.map Clause.mk⟩ = vars at hids
  have hmem : (numbered i).id ∈ idSet vars := by
    rw [idSet, hids, List.mem_toFinset]
    exact List.mem_map_of_mem (List.mem_map_of_mem (List.mem_range.mpr (Nat.lt_succ_of_le hi)))
  obtain ⟨j, v, hv, hid, heq⟩ :=
    DiagramOracle.signedPosition_eq (l := ⟨numbered i, true⟩) hmem
  have hlisted := congrArg (·[j]?) hids
  simp only [List.getElem?_map, hv, Option.map_some] at hlisted
  have hj : j < n + 1 := by
    by_contra hge
    rw [List.getElem?_eq_none (by rw [List.length_range]; omega)] at hlisted
    cases hlisted
  rw [List.getElem?_range hj] at hlisted
  have hij : i = j := id_numbered_inj (hid.symm.trans (Option.some.inj hlisted))
  rw [heq, hij]
  rfl

theorem map_pairClauses (h : Covers n rows) {k : Nat} (hk : k ≤ n) :
    (pairClauses n k).map (fun c =>
      c.map (DiagramOracle.signedPosition (Cnf.vars ⟨rows.map Clause.mk⟩))) =
        DiagramOracle.pairWords n k := by
  induction k with
  | zero => rfl
  | succ k ih =>
    rw [pairClauses, List.map_cons, ih (Nat.le_of_succ_le hk), DiagramOracle.pairWords]
    simp only [pairClause, List.map_cons, List.map_nil,
      h.signedPosition_numbered (Nat.le_of_succ_le hk), h.signedPosition_numbered (Nat.le_refl n)]

theorem map_sharedClause (h : Covers n rows) :
    (sharedClause n).map (DiagramOracle.signedPosition (Cnf.vars ⟨rows.map Clause.mk⟩)) =
      [.ofNat (n + 1)] :=
  congrArg (fun word => [word]) (h.signedPosition_numbered (Nat.le_refl n))

end Covers

theorem nodup_signature_pairClauses (n k : Nat) :
    ((pairClauses n k).map fun c => Clause.signature ⟨c⟩).Nodup := by
  induction k with
  | zero => exact .nil
  | succ k ih =>
    rw [pairClauses, List.map_cons, List.nodup_cons]
    refine ⟨?_, ih⟩
    intro hmem
    obtain ⟨c, hc, hsignature⟩ := List.mem_map.mp hmem
    obtain ⟨i, hi, rfl⟩ := mem_pairClauses.mp hc
    have hhead := (List.cons.inj hsignature).1
    exact Nat.ne_of_lt hi (id_numbered_inj (congrArg Prod.fst hhead))

/-- No clause among the pairs and the shared variable repeats another one. -/
theorem nodup_signature_shared (n k : Nat) :
    ((sharedClause n :: pairClauses n k).map fun c => Clause.signature ⟨c⟩).Nodup := by
  rw [List.map_cons, List.nodup_cons]
  refine ⟨?_, nodup_signature_pairClauses n k⟩
  intro hmem
  obtain ⟨c, hc, hsignature⟩ := List.mem_map.mp hmem
  obtain ⟨i, -, rfl⟩ := mem_pairClauses.mp hc
  cases congrArg List.length hsignature

/-- The answers about a formula that is distributed to clauses of which none is repeated. -/
theorem answers_of_distribute {f : Formula} {rows : List (List Literal)} {words : List (List Int32)}
    (hrows : Cnf.distribute f true = rows)
    (hnodup : (rows.map fun c => Clause.signature ⟨c⟩).Nodup)
    (hwords : (rows.map fun c =>
      c.map (DiagramOracle.signedPosition (Cnf.vars ⟨rows.map Clause.mk⟩))) = words)
    {limits : Limits} {clock : Diagram.Clock} {root : Diagram.Edge} {s : Diagram.Store}
    (h : DiagramOracle.conjoinFrom (.new limits clock) .one words = (.ok root, s)) :
    ∃ vars, ((Oracle.diagram limits clock).solve (.ofFormula f)).result =
        .ok (DiagramOracle.Compiled.verdict ⟨s, root, vars⟩) ∧
      ∃ models, ((Oracle.diagram limits clock).countModels (.ofFormula f)).result = .ok models := by
  have hcnf : Cnf.ofFormula f = ⟨rows.map Clause.mk⟩ := by
    rw [Cnf.ofFormula, hrows, Clause.eraseDups_eq_self]
    rwa [List.map_map]
  rw [← hwords] at h
  have hconjoined : DiagramOracle.conjoinFrom (.new limits clock) .one
      ((Cnf.ofFormula f).clauses.map fun c =>
        c.literals.map (DiagramOracle.signedPosition (Cnf.ofFormula f).vars)) = (.ok root, s) := by
    rw [hcnf, List.map_map]
    exact h
  exact ⟨_, DiagramOracle.solve_eq_ok hconjoined, _, DiagramOracle.countModels_eq_ok hconjoined⟩

section Verdicts

variable {n limit : Nat} (clock : Diagram.Clock) (hn : 3 * n = 2147483649)
  (hroom : 2147483649 < limit)

include hn hroom

theorem solve_pairGuard :
    ((Oracle.diagram ⟨none, limit⟩ clock).solve (.ofFormula (pairGuard n))).result =
      .ok .unsatisfiable := by
  have hpos : 1 ≤ n := by omega
  obtain ⟨s, hs⟩ := DiagramOracle.conjoinFrom_pairWords clock hn hroom []
  rw [List.append_nil] at hs
  obtain ⟨vars, hsolve, -⟩ := answers_of_distribute (distribute_pairGuard hpos)
    (nodup_signature_pairClauses n n) ((covers_pairClauses hpos).map_pairClauses (Nat.le_refl n)) hs
  exact hsolve

/-- The clauses come first, and the conjunction is given up before the shared variable. -/
theorem solve_pairGuard_shared :
    ((Oracle.diagram ⟨none, limit⟩ clock).solve
      (.ofFormula (.conj (pairGuard n) (sharedGuard n)))).result = .ok .unsatisfiable := by
  have hpos : 1 ≤ n := by omega
  have hperm : (pairClauses n n ++ [sharedClause n]).Perm (sharedClause n :: pairClauses n n) :=
    List.perm_append_comm
  have hcovers := (covers_pairClauses hpos).of_perm_cons hperm
  have hrows : Cnf.distribute (.conj (pairGuard n) (sharedGuard n)) true =
      pairClauses n n ++ [sharedClause n] := by
    rw [Cnf.distribute, distribute_pairGuard hpos]
    rfl
  have hnodup :=
    (hperm.map fun c => Clause.signature ⟨c⟩).nodup_iff.mpr (nodup_signature_shared n n)
  have hwords : ((pairClauses n n ++ [sharedClause n]).map fun c => c.map
      (DiagramOracle.signedPosition (Cnf.vars ⟨(pairClauses n n ++ [sharedClause n]).map .mk⟩))) =
        DiagramOracle.pairWords n n ++ [[.ofNat (n + 1)]] := by
    rw [List.map_append, hcovers.map_pairClauses (Nat.le_refl n), List.map_singleton,
      hcovers.map_sharedClause]
  obtain ⟨s, hs⟩ := DiagramOracle.conjoinFrom_pairWords clock hn hroom [[.ofNat (n + 1)]]
  obtain ⟨vars, hsolve, -⟩ := answers_of_distribute hrows hnodup hwords hs
  exact hsolve

/-- The shared variable comes first, and the clauses change nothing. -/
theorem solve_shared_pairGuard :
    (∃ w, ((Oracle.diagram ⟨none, limit⟩ clock).solve
      (.ofFormula (.conj (sharedGuard n) (pairGuard n)))).result = .ok (.satisfiable w)) ∧
    ∃ models, ((Oracle.diagram ⟨none, limit⟩ clock).countModels
      (.ofFormula (.conj (sharedGuard n) (pairGuard n)))).result = .ok models := by
  have hpos : 1 ≤ n := by omega
  have hcovers := (covers_pairClauses hpos).of_perm_cons (.refl _)
  have hrows : Cnf.distribute (.conj (sharedGuard n) (pairGuard n)) true =
      sharedClause n :: pairClauses n n := by
    rw [Cnf.distribute, distribute_pairGuard hpos]
    rfl
  have hwords : ((sharedClause n :: pairClauses n n).map fun c => c.map
      (DiagramOracle.signedPosition (Cnf.vars ⟨(sharedClause n :: pairClauses n n).map .mk⟩))) =
        [.ofNat (n + 1)] :: DiagramOracle.pairWords n n := by
    rw [List.map_cons, hcovers.map_pairClauses (Nat.le_refl n), hcovers.map_sharedClause]
  have hword : 2 * n + 2 < 2147483648 := by omega
  have hlimit : 2 * n + 2 < limit := by omega
  obtain ⟨s, hs⟩ := DiagramOracle.conjoinFrom_shared_pairWords clock hword hlimit
  obtain ⟨vars, hsolve, hcount⟩ :=
    answers_of_distribute hrows (nodup_signature_shared n n) hwords hs
  exact ⟨⟨_, hsolve⟩, hcount⟩

end Verdicts

end GuardedMachines
