import GuardedMachines.Diagram.Checked
import GuardedMachines.Proofs.Diagram.Support

/-!
Paths as literals. The walk down from an edge is followed until it is at the
terminal one, without a look at how far that is. It never comes to zero, because
the children of an edge differ, and every step goes to a smaller index, so it
ends, in one way only, and decides variables of the support one after the other.
Variables that keep their value as words give literals that can be written down.
-/

namespace GuardedMachines.Diagram

namespace Decision

theorem mapM_literalChecked {path : List Decision} (h : ∀ d ∈ path, d.var < 2147483648) :
    path.mapM literalChecked = .ok (path.map literal) := by
  induction path with
  | nil => rfl
  | cons d rest ih =>
    have hfirst := literalChecked_eq (h d List.mem_cons_self)
    have hrest := ih fun d hd => h d (List.mem_cons_of_mem _ hd)
    rw [List.mapM_cons, hfirst, hrest]
    rfl

end Decision

namespace Store

/-- The walk down from an edge: to the high child unless that is zero, and then to the low one. -/
inductive Walks (s : Store) : Edge → List Decision → Prop
  | done : Walks s .one []
  | high {e : Edge} {path : List Decision} (hone : e ≠ .one) (hhigh : s.high e ≠ .zero)
      (rest : Walks s (s.high e) path) : Walks s e (⟨s.var e, true⟩ :: path)
  | low {e : Edge} {path : List Decision} (hone : e ≠ .one) (hhigh : s.high e = .zero)
      (rest : Walks s (s.low e) path) : Walks s e (⟨s.var e, false⟩ :: path)

variable {s : Store} {V : Nat → Prop} {e : Edge}

theorem Walks.unique {path path' : List Decision} (h : s.Walks e path) (h' : s.Walks e path') :
    path = path' := by
  induction h generalizing path' with
  | done =>
    cases h' with
    | done => rfl
    | high hone => exact absurd rfl hone
    | low hone => exact absurd rfl hone
  | high hone hhigh rest ih =>
    cases h' with
    | done => exact absurd rfl hone
    | high _ _ rest' => rw [ih rest']
    | low _ hzero => exact absurd hzero hhigh
  | low hone hzero rest ih =>
    cases h' with
    | done => exact absurd rfl hone
    | high _ hhigh => exact absurd hzero hhigh
    | low _ _ rest' => rw [ih rest']

/-- From every edge but zero the walk ends. -/
theorem Layered.walks_pathWithin (hs : s.Layered) {fuel : Nat} (he : s.Has e) (hzero : e ≠ .zero)
    (hfuel : e.index ≤ fuel) : s.Walks e (pathWithin fuel s e) := by
  induction fuel generalizing e with
  | zero =>
    have := he.1
    omega
  | succ fuel ih =>
    by_cases hone : e = .one
    · rw [pathWithin, if_pos hone, hone]
      exact .done
    have ht := not_isTerminal_of_ne hone hzero
    obtain ⟨b, hb, hchild, hpath⟩ := hs.pathWithin_succ he ht fuel
    have hlt := hs.index_child_lt he ht b
    have hrest := ih (hs.has_child he ht b) hchild (by omega)
    rw [hpath]
    cases b with
    | true => exact .high hone (hb.mp rfl) hrest
    | false =>
      have hhigh : s.high e = .zero := by simpa using hb
      exact .low hone hhigh hrest

theorem Layered.mem_support_of_mem_pathWithin (hs : s.Layered) (fuel : Nat) (he : s.Has e)
    (hzero : e ≠ .zero) {d : Decision} (hd : d ∈ pathWithin fuel s e) : d.var ∈ s.support e := by
  induction fuel generalizing e with
  | zero => exact absurd hd List.not_mem_nil
  | succ fuel ih =>
    by_cases hone : e = .one
    · rw [pathWithin, if_pos hone] at hd
      exact absurd hd List.not_mem_nil
    have ht := not_isTerminal_of_ne hone hzero
    obtain ⟨b, -, hchild, hpath⟩ := hs.pathWithin_succ he ht fuel
    rw [hpath] at hd
    rcases List.mem_cons.mp hd with hd | hd
    · rw [hd]
      exact (hs.mem_support_of_not_isTerminal he ht).mpr (Or.inl rfl)
    · exact hs.support_child_subset he ht b (ih (hs.has_child he ht b) hchild hd)

/-- The literals of a path, where all variables of the store keep their value as words. -/
theorem Ordered.value_pathChecked (ho : s.Ordered V) (hs : s.Layered)
    (hV : ∀ v, V v → v < 2147483648) (he : s.Has e) (hzero : e ≠ .zero) :
    (s.pathChecked e).value = .ok (some ((pathWithin (e.index + 1) s e).map Decision.literal)) := by
  have hwords : (pathWithin (e.index + 1) s e).mapM Decision.literalChecked =
      .ok ((pathWithin (e.index + 1) s e).map Decision.literal) := by
    apply Decision.mapM_literalChecked
    intro d hd
    exact hV _ (ho.var_of_mem_pathWithin hs _ he hzero hd)
  simp only [pathChecked, path?, if_neg hzero, hwords]

theorem value_pathChecked_zero (s : Store) : (s.pathChecked .zero).value = .ok none := rfl

end Store

def WordCall (s : Store) (op : Operation) : Prop := OrderedCall s op ∧ op.Over (· < 2147483648)

/-- Paths in every store that a run leaves, where the bound on the nodes leaves every index room
beside the sign of an edge. There is none exactly for the edge that is false
everywhere. Every other edge has one walk down, and its literals have increasing variables, all
of the support, and satisfy the edge whatever the other variables are. -/
theorem path_of_runs (limits : Limits) (hlimit : limits.nodeLimit ≤ 2147483648) (clock : Clock)
    (s : Store) (before : Runs WordCall (.new limits clock) s) (r : Edge) (hr : s.Has r) :
    (∀ v, v ∈ s.support r ↔ DependsOn (fun ρ => s.value ρ r) v) ∧
    ((s.pathChecked r).value = .ok none ↔ ∀ ρ, s.value ρ r = false) ∧
    ((∃ ρ, s.value ρ r = true) → ∃ path literals,
      (∀ path', s.Walks r path' ↔ path' = path) ∧
      literals = path.map Decision.literal ∧
      (s.pathChecked r).value = .ok (some literals) ∧
      (literals.map Word.magnitude).Pairwise (· < ·) ∧
      (∀ l ∈ literals, l ≠ 0 ∧ Word.magnitude l ∈ s.support r) ∧
      ∀ ρ, (∀ l ∈ literals, ρ (Word.magnitude l) = decide (0 < l)) → s.value ρ r = true) := by
  have hnew := Store.new_valid hlimit clock
  obtain ⟨hs, -⟩ := before.valid_grown (fun _ _ hcall => hcall.1.1) hnew
  have ho := before.ordered_over (fun _ _ hcall => ⟨hcall.1, hcall.1.1.over.and hcall.2⟩) hnew
    (Store.new_ordered limits clock _)
  have hzero : r = .zero ↔ ∀ ρ, s.value ρ r = false := by
    constructor
    · intro h ρ
      rw [h, s.value_zero]
    · intro h
      apply ho.eq_of_same hs hr hs.has_zero
      intro ρ
      rw [h, s.value_zero]
  refine ⟨fun v => ho.mem_support_iff hs hr, ?_, ?_⟩
  · rw [← hzero]
    by_cases h : r = .zero
    · simp [h, s.value_pathChecked_zero]
    · rw [ho.value_pathChecked hs.toLayered (fun v hv => hv.2) hr h]
      simp [h]
  · intro hsome
    obtain ⟨ρ, hρ⟩ := hsome
    have hne : r ≠ .zero := by
      intro h
      rw [h, s.value_zero] at hρ
      cases hρ
    have hwalks := hs.walks_pathWithin hr hne (Nat.le_succ _)
    have hsupport := fun d => hs.mem_support_of_mem_pathWithin (d := d) (r.index + 1) hr hne
    have hvar := fun d hd => ho.var_of_mem_support hs.toLayered hr (hsupport d hd)
    have hmagnitude : ∀ d ∈ Store.pathWithin (r.index + 1) s r, Word.magnitude d.literal = d.var :=
      fun d hd => Decision.magnitude_literal (hvar d hd).2
    refine ⟨_, _, fun path' => ⟨fun h => h.unique hwalks, fun h => h ▸ hwalks⟩, rfl,
      ho.value_pathChecked hs.toLayered (fun v hv => hv.2) hr hne, ?_, ?_, ?_⟩
    · have hvars : (Store.pathWithin (r.index + 1) s r).map (Word.magnitude ∘ Decision.literal) =
          (Store.pathWithin (r.index + 1) s r).map Decision.var := List.map_congr_left hmagnitude
      rw [List.map_map, hvars]
      exact (ho.pathWithin_sorted hs.toLayered (r.index + 1) hr hne).1
    · intro l hl
      obtain ⟨d, hd, rfl⟩ := List.mem_map.mp hl
      have hword := hmagnitude d hd
      refine ⟨?_, hword ▸ hsupport d hd⟩
      intro hzero
      rw [hzero] at hword
      exact (hvar d hd).1 hword.symm
    · intro ρ hagree
      apply hs.value_of_pathWithin ρ (r.index + 1) hr hne (Nat.le_succ _)
      intro d hd
      have hliteral := hagree d.literal (List.mem_map_of_mem hd)
      rwa [hmagnitude d hd, Decision.literal_pos_iff (hvar d hd).1 (hvar d hd).2] at hliteral

/-- The conjunction of the first variable and the negated third one is a negated edge. Its path
decides both and leaves the second variable open; the edge zero has none. -/
theorem path_of_negated_edge :
    let s₁ := (Operation.run (.new ⟨none, 10⟩ .stopped) (.literal (-3))).2
    let s₂ := (Operation.run s₁ (.var 1)).2
    let outcome := Operation.run s₂ (.conj (.toNode 3) (-.toNode 2))
    outcome.1 = .ok (-.toNode 4) ∧
    (outcome.2.pathChecked (-.toNode 4)).value = .ok (some [1, -3]) ∧
    (∀ ρ, ρ 1 = true → ρ 3 = false → outcome.2.value ρ (-.toNode 4) = true) ∧
    (outcome.2.pathChecked .zero).value = .ok none := by
  intro s₁ s₂ outcome
  have hliteral : (-3 : Int32) ≠ 0 ∧ Word.magnitude (-3) < 2147483648 := by decide
  have hvar : 1 ≠ 0 ∧ 1 < 2147483648 := by decide
  have hoperands : s₂.Has (.toNode 3) ∧ s₂.Has (-.toNode 2) :=
    ⟨⟨by decide, by decide⟩, ⟨by decide, by decide⟩⟩
  have hcall₁ : WordCall (.new ⟨none, 10⟩ .stopped) (.literal (-3)) :=
    ⟨⟨hliteral.1, trivial⟩, hliteral.2⟩
  have hcall₂ : WordCall s₁ (.var 1) := ⟨⟨hvar.1, trivial⟩, hvar.2⟩
  have hcall₃ : WordCall s₂ (.conj (.toNode 3) (-.toNode 2)) := ⟨⟨hoperands, trivial⟩, trivial⟩
  have hrun : Runs WordCall (.new ⟨none, 10⟩ .stopped) outcome.2 :=
    .call (.call (.call .start _ hcall₁) _ hcall₂) _ hcall₃
  have hanswer : (outcome.2.pathChecked (-.toNode 4)).value = .ok (some [1, -3]) := by
    decide +kernel
  have hhas : outcome.2.Has (-.toNode 4) ∧ outcome.2.Has .zero :=
    ⟨⟨by decide, by decide +kernel⟩, ⟨by decide, by decide +kernel⟩⟩
  obtain ⟨-, hnone, hsome⟩ := path_of_runs ⟨none, 10⟩ (by decide) .stopped outcome.2 hrun _ hhas.1
  obtain ⟨-, hzero, -⟩ := path_of_runs ⟨none, 10⟩ (by decide) .stopped outcome.2 hrun _ hhas.2
  refine ⟨by decide +kernel, hanswer, ?_, hzero.mpr outcome.2.value_zero⟩
  intro ρ h₁ h₃
  have hmodel : ∃ ρ, outcome.2.value ρ (-.toNode 4) = true := by
    by_contra hfalse
    have hall : ∀ ρ, outcome.2.value ρ (-.toNode 4) = false := by
      intro ρ
      by_contra hne
      exact hfalse ⟨ρ, by simpa using hne⟩
    rw [hnone.mpr hall] at hanswer
    cases hanswer
  obtain ⟨path, literals, -, -, hliterals, -, -, hvalue⟩ := hsome hmodel
  rw [hanswer] at hliterals
  cases hliterals
  apply hvalue
  intro l hl
  rcases List.mem_pair.mp hl with rfl | rfl
  · exact h₁
  · exact h₃

/-- A run on variables that are words fills the table of nodes: above the last of the variables
there are enough nodes of two columns. The list holds all but the last of these nodes. -/
theorem exists_full_table : ∃ s ns, Runs WordCall (.new ⟨none, 4294967297⟩ .stopped) s ∧
    s.Lists 4294967297 ns ∧ ns.length = 4294967294 ∧ ⟨4, .toNode 2147483647, .one⟩ ∉ ns ∧
    WordCall s (.node 4 (.toNode 2147483647) .one) := by
  obtain ⟨s₁, hruns, hlists₁, -⟩ := Store.exists_variables .stopped (n := 2147483646)
    (show 2147483646 + 2 ≤ 4294967297 by decide)
  have hruns₁ : Runs WordCall _ s₁ :=
    hruns.mono fun _ _ hok => ⟨hok.1, hok.2.mono fun v hv => Nat.lt_of_le_of_lt hv (by decide)⟩
  have hcall : ∀ i < 2147483645, ∀ s ns, s.Lists 4294967297 ns →
      Store.variableNodes 2147483646 <+: ns →
        WordCall s (.node (i + 1) .zero (.toNode 2147483647)) ∧
        WordCall s (.node (i + 1) (.toNode 2147483647) .one) := by
    intro i hi s ns hlists hfirst
    have hone := hlists.has_one
    have hlast := hlists.has_variable hfirst (e := .toNode 2147483647) (i := 2147483645) rfl
      (by decide)
    have hnode := hlists.node_variable hfirst (e := .toNode 2147483647) (i := 2147483645) rfl
      (by decide)
    have hvar : s.var (.toNode 2147483647) = 2147483646 := congrArg Node.var hnode
    have hafter : s.After (i + 1) (.toNode 2147483647) := Or.inr (by omega)
    have hword : i + 1 < 2147483648 := by omega
    exact ⟨⟨⟨⟨Nat.succ_ne_zero i, hone.neg, hlast⟩, s.after_zero _, hafter⟩, hword⟩,
      ⟨⟨⟨Nat.succ_ne_zero i, hlast, hone⟩, hafter, s.after_one _⟩, hword⟩⟩
  have hzero : Edge.zero ≠ .toNode 2147483647 := by decide
  have hlow : ∀ high n, ∀ m ∈ Store.column .zero high n, m.low ≠ .toNode 2147483647 := by
    intro high n m hm
    rw [(Store.of_mem_column hm).1]
    exact hzero
  have hroom₁ := Store.length_variableNodes 2147483646
  obtain ⟨s₂, hruns₂, hlists₂, -⟩ := hlists₁.exists_column hruns₁ .zero (.toNode 2147483647)
    2147483645 (by decide) hzero
    (fun m hm hboth => absurd ((Store.of_mem_column hm).2.1.symm.trans hboth.2) (by decide))
    (by omega) (fun i hi s made hlists => (hcall i hi s _ hlists (List.prefix_append _ _)).1)
  have hfirst₂ := List.prefix_append (Store.variableNodes 2147483646)
    (Store.column .zero (.toNode 2147483647) 2147483645)
  have hroom₂ := Store.length_column .zero (.toNode 2147483647) 2147483645
  have hlow₂ : ∀ m ∈ Store.variableNodes 2147483646 ++
      Store.column .zero (.toNode 2147483647) 2147483645, m.low ≠ .toNode 2147483647 := by
    intro m hm
    rcases List.mem_append.mp hm with hm | hm
    · exact hlow _ _ m hm
    · exact hlow _ _ m hm
  obtain ⟨s₃, hruns₃, hlists₃, -⟩ := hlists₂.exists_column hruns₂ (.toNode 2147483647) .one
    3 (by decide) (by decide) (fun m hm hboth => hlow₂ m hm hboth.1)
    (by rw [List.length_append]; omega)
    (fun i hi s made hlists => (hcall i (by omega) s _ hlists
      (hfirst₂.trans (List.prefix_append _ _))).2)
  refine ⟨s₃, _, hruns₃, hlists₃, ?_, ?_,
    (hcall 3 (by decide) s₃ _ hlists₃ (hfirst₂.trans (List.prefix_append _ _))).2⟩
  · rw [List.length_append, List.length_append, hroom₁, hroom₂, Store.length_column]
  · intro hmem
    rcases List.mem_append.mp hmem with hmem | hmem
    · exact hlow₂ _ hmem rfl
    · exact absurd (Store.of_mem_column hmem).2.2 (by decide)

/-- With room for every index of the table of nodes and one more, a node gets the index zero again.
The path of its edge decides the variable zero, on which nothing depends. -/
theorem path_outside_support_beyond_words :
    ∃ s, Runs WordCall (.new ⟨none, 4294967297⟩ .stopped) s ∧
      ∃ (op : Operation) (r : Edge), WordCall s op ∧ (op.run s).1 = .ok r ∧
        ((op.run s).2.pathChecked r).value = .ok (some [0]) ∧
        ¬ DependsOn (fun ρ => (op.run s).2.value ρ r) 0 := by
  obtain ⟨s, ns, hruns, hlists, hlength, hnew, hcall⟩ := exists_full_table
  have hmade := hlists.mkNode_eq hnew rfl (by decide) (by rw [hlength]; decide)
  rw [Store.nextEdge, hlength] at hmade
  have hrun : Operation.run s (.node 4 (.toNode 2147483647) .one) = (.ok (.toNode 0), _) := hmade
  generalize hpushed : s.pushed ⟨4, .toNode 2147483647, .one⟩ = s' at hrun
  have hnode : s'.node (.toNode 0) = .terminal := by
    rw [← hpushed, (hlists.pushed _).node_eq]
    rfl
  have hhigh : s'.high (.toNode 0) = .one := by
    rw [Store.high, hnode]
    rfl
  have hpath : s'.path? (.toNode 0) = some [⟨0, true⟩] := by
    rw [Store.path?, if_neg (by decide)]
    change some (Store.pathWithin (0 + 1) s' _) = _
    rw [Store.pathWithin, if_neg (by decide), hhigh, if_neg (by decide), Store.var, hnode]
    rfl
  refine ⟨s, hruns, _, .toNode 0, hcall, ?_, ?_, ?_⟩
  · rw [hrun]
  · rw [hrun, Store.pathChecked, hpath]
    rfl
  · rintro ⟨ρ, hρ⟩
    exact hρ rfl

end GuardedMachines.Diagram
