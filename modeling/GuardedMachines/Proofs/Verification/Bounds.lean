import GuardedMachines.Proofs.Diagram.Room
import GuardedMachines.Proofs.Verification.Questions
import GuardedMachines.Proofs.Verification.Run

/-!
Bounds abort, and nothing else. The diagram oracle with a larger limit on its nodes
gives the same answer wherever the one with a smaller limit answers. Verification
keeps its result when the oracle is replaced by such an oracle, and so do whole
runs: a run that is not aborted is the same run under every larger limit.
-/

namespace GuardedMachines

namespace DiagramOracle

open Diagram Diagram.Store

theorem conjoinFrom_cons (s : Store) (f : Edge) (literals : List Int32) (rest : List (List Int32)) :
    conjoinFrom s f (literals :: rest) =
      andThen (s.clause literals) fun c s =>
        andThen (s.conj f c) fun f s => if f = .zero then (.ok f, s) else conjoinFrom s f rest := by
  rw [conjoinFrom]
  unfold andThen
  rcases s.clause literals with ⟨_ | c, t⟩
  · rfl
  · dsimp only
    rcases t.conj f c with ⟨_ | _, _⟩ <;> rfl

theorem conjoinFrom_kept {s s' : Store} (h : Roomier s s') (f : Edge)
    (clauses : List (List Int32)) :
    Kept (conjoinFrom s f clauses) (conjoinFrom s' f clauses) := by
  induction clauses generalizing s s' f with
  | nil => exact h.kept_ok f
  | cons literals rest ih =>
    rw [conjoinFrom_cons, conjoinFrom_cons]
    refine (h.clauseFrom .zero literals).andThen fun c s₁ s₁' h₁ => ?_
    refine (h₁.ite f c .zero).andThen fun g s₂ s₂' h₂ => ?_
    split
    · exact h₂.kept_ok g
    · exact ih h₂ g

section

variable {limit limit' : Nat} (hle : limit ≤ limit') (clock clock' : Clock)

include hle

theorem exists_compile {cnf : Cnf} {c : Compiled}
    (h : (compile ⟨none, limit⟩ clock cnf).result = .ok c) :
    ∃ c', (compile ⟨none, limit'⟩ clock' cnf).result = .ok c' ∧ c'.root = c.root ∧
      c'.vars = c.vars ∧ Roomier c.store c'.store := by
  have hkept := conjoinFrom_kept (new_roomier hle clock clock') .one
    (cnf.clauses.map fun c => c.literals.map (signedPosition cnf.vars))
  dsimp only [compile] at h ⊢
  rcases hless : conjoinFrom (.new ⟨none, limit⟩ clock) .one _ with ⟨cause | root, store⟩
  · rw [hless] at h
    cases h
  · rw [hless] at h hkept
    cases h
    obtain ⟨hroot, hstore⟩ := hkept root rfl
    rcases hmore : conjoinFrom (.new ⟨none, limit'⟩ clock') .one _ with ⟨answer, store'⟩
    rw [hmore] at hroot hstore
    cases hroot
    exact ⟨_, rfl, rfl, rfl, hstore⟩

theorem solve_kept (cnf : Cnf) :
    (solve ⟨none, limit⟩ clock cnf).Kept (solve ⟨none, limit'⟩ clock' cnf) := by
  intro verdict h
  obtain ⟨c, hc, h⟩ := Query.result_bind_eq_ok.mp h
  obtain ⟨c', hc', hroot, hvars, hstore⟩ := exists_compile hle clock clock' hc
  refine Query.result_bind_eq_ok.mpr ⟨c', hc', ?_⟩
  rw [Query.result_lift_bind, pathTraced] at h ⊢
  rw [hroot, hstore.path?_eq, hvars]
  cases hpath : c.store.path? c.root with
  | none =>
    rw [hpath] at h
    exact h
  | some path =>
    rw [hpath] at h
    exact h

theorem countModels_kept (cnf : Cnf) :
    (countModels ⟨none, limit⟩ clock cnf).Kept (countModels ⟨none, limit'⟩ clock' cnf) := by
  intro n h
  obtain ⟨c, hc, h⟩ := Query.result_bind_eq_ok.mp h
  obtain ⟨c', hc', hroot, hvars, hstore⟩ := exists_compile hle clock clock' hc
  refine Query.result_bind_eq_ok.mpr ⟨c', hc', ?_⟩
  rw [hroot, hvars, hstore.count_eq]
  exact h

end

end DiagramOracle

namespace Verification

variable {oracle oracle' : Oracle} {model : Model} {mode : Mode}

theorem agreeOn_diagram {limit limit' : Nat} (hle : limit ≤ limit') (clock clock' : Diagram.Clock) :
    AgreeOn model (.diagram ⟨none, limit⟩ clock) (.diagram ⟨none, limit'⟩ clock') :=
  fun _ _ => ⟨DiagramOracle.solve_kept hle clock clock' _,
    DiagramOracle.countModels_kept hle clock clock' _⟩

/-- A run that is not aborted goes the same way with an oracle that answers more. -/
theorem Goes.extend (hagree : AgreeOn model oracle oracle') {properties : List Property} {run : Run}
    (h : Goes oracle model mode properties run) (hrun : ∀ cause, run.status ≠ .aborted cause) :
    Goes oracle' model mode properties run := by
  induction h with
  | finished => exact .finished
  | aborted verified => exact absurd rfl (hrun _)
  | ended verified done => exact .ended (verify_kept hagree _ _ verified) done
  | continued verified undone later ih =>
    refine .continued (verify_kept hagree _ _ verified) undone (ih fun cause hstatus => ?_)
    exact hrun cause (Status.aborted_iff.mpr hstatus)

/-- Whatever the model, the properties and the mode: a run that the limit on the nodes does not
abort has the same status and the same reports under every larger limit. -/
theorem run_unchanged_by_larger_limit (properties : List Property) (model : Model) (mode : Mode)
    {limit limit' : Nat} (hle : limit ≤ limit') (clock clock' : Diagram.Clock)
    (hrun : ∀ cause, ((Verifier.mk properties (.diagram ⟨none, limit⟩ clock)).run model
      mode).value.status ≠ .aborted cause) :
    ((Verifier.mk properties (.diagram ⟨none, limit'⟩ clock')).run model mode).value =
      ((Verifier.mk properties (.diagram ⟨none, limit⟩ clock)).run model mode).value := by
  have hless := goes_run (Verifier.mk properties (.diagram ⟨none, limit⟩ clock)) model mode
  have hmore := goes_run (Verifier.mk properties (.diagram ⟨none, limit'⟩ clock')) model mode
  exact hmore.unique (hless.extend (agreeOn_diagram hle clock clock') hrun)

/-- Room for five nodes is enough to find that two transitions clash and that none of their
guards is always true. The default limit gives the same run. -/
theorem run_unchanged_by_larger_limit_on_clash :
    let a : Variable := ⟨⟨1, Nat.one_pos⟩, "A", .boolean⟩
    let b : Variable := ⟨⟨2, Nat.two_pos⟩, "B", .boolean⟩
    let t : Transition := ⟨"0", "x", ⟨[.external "go"]⟩, some (.atom a), .empty⟩
    let u : Transition := ⟨"0", "y", ⟨[.external "go"]⟩, some (.atom b), .empty⟩
    let model : Model := ⟨"model", [⟨"m", [⟨"0", [t, u]⟩]⟩]⟩
    let violation : Violation := .nonDeterminism "m" "0" t u ⟨[⟨a, true⟩, ⟨b, true⟩]⟩ 1 2
    ((Verifier.mk [.determinism, .tautology] (.diagram ⟨none, 4⟩ .stopped)).run model
        .allViolations).value.status = .aborted (.nodeLimit 4) ∧
      ((Verifier.mk [.determinism, .tautology] (.diagram ⟨none, 1048576⟩ .stopped)).run model
        .allViolations).value = ⟨.failed, [⟨.determinism, [violation]⟩, ⟨.tautology, []⟩]⟩ := by
  intro a b t u model violation
  have hfive : ((Verifier.mk [.determinism, .tautology] (.diagram ⟨none, 5⟩ .stopped)).run model
      .allViolations).value = ⟨.failed, [⟨.determinism, [violation]⟩, ⟨.tautology, []⟩]⟩ := by
    decide +kernel
  have hrun : ∀ cause, ((Verifier.mk [.determinism, .tautology]
      (.diagram ⟨none, 5⟩ .stopped)).run model .allViolations).value.status ≠ .aborted cause := by
    intro cause haborted
    rw [hfive] at haborted
    cases haborted
  refine ⟨by decide +kernel, ?_⟩
  rw [← hfive]
  exact run_unchanged_by_larger_limit _ model .allViolations (by decide) .stopped .stopped hrun

end Verification

end GuardedMachines
