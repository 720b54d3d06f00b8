import GuardedMachines.Formula.Text
import GuardedMachines.Proofs.Condition.Chain
import GuardedMachines.Proofs.Guard

/-!
Formulas up to the grouping of their chains. Two formulas are regrouped if they
differ only in how nested conjunctions and nested disjunctions are grouped.
Such formulas have the same text, the same variables in the same order and the
same value. A balanced tree is a regrouped chain.
-/

namespace GuardedMachines.Formula

inductive Regrouped : Formula → Formula → Prop
  | refl (f : Formula) : Regrouped f f
  | symm {f g : Formula} (h : Regrouped f g) : Regrouped g f
  | trans {f g h : Formula} (hfg : Regrouped f g) (hgh : Regrouped g h) : Regrouped f h
  | neg {f g : Formula} (h : Regrouped f g) : Regrouped f.neg g.neg
  | conj {p p' q q' : Formula} (hp : Regrouped p p') (hq : Regrouped q q') :
      Regrouped (p.conj q) (p'.conj q')
  | disj {p p' q q' : Formula} (hp : Regrouped p p') (hq : Regrouped q q') :
      Regrouped (p.disj q) (p'.disj q')
  | conj_assoc (p q r : Formula) : Regrouped ((p.conj q).conj r) (p.conj (q.conj r))
  | disj_assoc (p q r : Formula) : Regrouped ((p.disj q).disj r) (p.disj (q.disj r))

/-- The three ways in which a formula may be written. -/
structure SameText (f g : Formula) : Prop where
  whole : f.render = g.render
  belowNeg : f.belowNeg f.render = g.belowNeg g.render
  belowConj : f.belowConj f.render = g.belowConj g.render

namespace Regrouped

variable {f g : Formula}

theorem sameText (h : Regrouped f g) : SameText f g := by
  -- What stands around an operand depends on its outermost connective, which regrouping keeps.
  induction h with
  | refl f => exact ⟨rfl, rfl, rfl⟩
  | symm _ ih => exact ⟨ih.whole.symm, ih.belowNeg.symm, ih.belowConj.symm⟩
  | trans _ _ ih ih' =>
    exact ⟨ih.whole.trans ih'.whole, ih.belowNeg.trans ih'.belowNeg,
      ih.belowConj.trans ih'.belowConj⟩
  | @neg f g _ ih =>
    have hwhole : f.neg.render = g.neg.render := by
      rw [render, render, ih.belowNeg]
    exact ⟨hwhole, congrArg Spelling.parenthesized hwhole, hwhole⟩
  | @conj p p' q q' _ _ ihp ihq =>
    have hwhole : (p.conj q).render = (p'.conj q').render := by
      rw [render, render, ihp.belowConj, ihq.belowConj]
    exact ⟨hwhole, congrArg Spelling.parenthesized hwhole, hwhole⟩
  | @disj p p' q q' _ _ ihp ihq =>
    have hwhole : (p.disj q).render = (p'.disj q').render := by
      rw [render, render, ihp.whole, ihq.whole]
    exact ⟨hwhole, congrArg Spelling.parenthesized hwhole,
      congrArg Spelling.parenthesized hwhole⟩
  | conj_assoc p q r =>
    have hwhole : ((p.conj q).conj r).render = (p.conj (q.conj r)).render := by
      simp only [render, belowConj, List.append_assoc]
    exact ⟨hwhole, congrArg Spelling.parenthesized hwhole, hwhole⟩
  | disj_assoc p q r =>
    have hwhole : ((p.disj q).disj r).render = (p.disj (q.disj r)).render := by
      simp only [render, List.append_assoc]
    exact ⟨hwhole, congrArg Spelling.parenthesized hwhole,
      congrArg Spelling.parenthesized hwhole⟩

theorem text_eq (h : Regrouped f g) : f.text = g.text := congrArg String.ofList h.sameText.whole

theorem holds_eq (h : Regrouped f g) (a : VarId → Bool) : f.holds a = g.holds a := by
  induction h with
  | refl f => rfl
  | symm _ ih => exact ih.symm
  | trans _ _ ih ih' => exact ih.trans ih'
  | neg _ ih => rw [holds, holds, ih]
  | conj _ _ ihp ihq => rw [holds, holds, ihp, ihq]
  | disj _ _ ihp ihq => rw [holds, holds, ihp, ihq]
  | conj_assoc p q r => simp only [holds, Bool.and_assoc]
  | disj_assoc p q r => simp only [holds, Bool.or_assoc]

theorem eval_eq (h : Regrouped f g) (valuation : Valuation) : f.eval valuation = g.eval valuation :=
  h.holds_eq valuation.assignment

theorem addVars_eq (h : Regrouped f g) (acc : List Variable) : f.addVars acc = g.addVars acc := by
  induction h generalizing acc with
  | refl f => rfl
  | symm _ ih => exact (ih acc).symm
  | trans _ _ ih ih' => exact (ih acc).trans (ih' acc)
  | neg _ ih => exact ih acc
  | conj _ _ ihp ihq => rw [addVars, addVars, ihp, ihq]
  | disj _ _ ihp ihq => rw [addVars, addVars, ihp, ihq]
  | conj_assoc p q r => rfl
  | disj_assoc p q r => rfl

theorem atoms_eq (h : Regrouped f g) : f.atoms = g.atoms := by
  induction h with
  | refl f => rfl
  | symm _ ih => exact ih.symm
  | trans _ _ ih ih' => exact ih.trans ih'
  | neg _ ih => exact ih
  | conj _ _ ihp ihq => rw [atoms, atoms, ihp, ihq]
  | disj _ _ ihp ihq => rw [atoms, atoms, ihp, ihq]
  | conj_assoc p q r => simp only [atoms, List.append_assoc]
  | disj_assoc p q r => simp only [atoms, List.append_assoc]

theorem vars_eq (h : Regrouped f g) : f.vars = g.vars := h.addVars_eq []

end Regrouped

theorem associates_conj : Condition.Associates Regrouped conj :=
  ⟨.refl, .trans, .conj, .conj_assoc⟩

theorem associates_disj : Condition.Associates Regrouped disj :=
  ⟨.refl, .trans, .disj, .disj_assoc⟩

/-- A balanced conjunction with one more conjunct at its end. -/
theorem regrouped_balanced_conj (before : List Formula) (p q : Formula) :
    Regrouped (Condition.balanced conj (before ++ [p]) q)
      ((Condition.balanced conj before p).conj q) :=
  associates_conj.balanced_append .symm before p q

/-- A balanced disjunction with one more disjunct at its end. -/
theorem regrouped_balanced_disj (before : List Formula) (p q : Formula) :
    Regrouped (Condition.balanced disj (before ++ [p]) q)
      ((Condition.balanced disj before p).disj q) :=
  associates_disj.balanced_append .symm before p q

end GuardedMachines.Formula
