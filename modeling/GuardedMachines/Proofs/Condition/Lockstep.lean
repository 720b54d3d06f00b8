import GuardedMachines.Proofs.Condition.Acceptance
import Mathlib.Data.List.Forall2

/-!
Reading depends on the symbols only. Two readers that are given tokens with the same
symbols go in lockstep: they agree in everything but the spans of the parentheses left
open, and these belong to tokens at the same positions. So they intern the same names
and build the same formula, or stop for the same reason at tokens at the same position.
-/

namespace GuardedMachines.Condition

def SamePosition (found found' : List Token) (t t' : Token) : Prop :=
  ∃ i : Nat, found[i]? = some t ∧ found'[i]? = some t'

/-- The errors have the same cause and point at tokens at the same position, or both at the end of
their text. -/
inductive ErrorsAlike (found found' : List Token) (stop stop' : Nat) :
    ConditionError → ConditionError → Prop
  | unexpectedToken {t t' : Token} (position : SamePosition found found' t t')
      (expected : Expectation) :
      ErrorsAlike found found' stop stop' (.unexpectedToken t.text expected t.span)
        (.unexpectedToken t'.text expected t'.span)
  | unexpectedEnd (expected : Expectation) :
      ErrorsAlike found found' stop stop' (.unexpectedEnd expected ⟨stop, stop⟩)
        (.unexpectedEnd expected ⟨stop', stop'⟩)
  | unbalancedParenthesis {t t' : Token} (position : SamePosition found found' t t') :
      ErrorsAlike found found' stop stop' (.unbalancedParenthesis t.span)
        (.unbalancedParenthesis t'.span)
  | notBoolean {t t' : Token} (position : SamePosition found found' t t') (name : String) :
      ErrorsAlike found found' stop stop' (.notBoolean name t.span) (.notBoolean name t'.span)
  | tooDeep {t t' : Token} (position : SamePosition found found' t t') (limit : Nat) :
      ErrorsAlike found found' stop stop' (.tooDeep limit t.span) (.tooDeep limit t'.span)

inductive Together {α : Type} (results : α → α → Prop)
    (errors : ConditionError → ConditionError → Prop) :
    Except ConditionError α → Except ConditionError α → Prop
  | ok {a a' : α} (related : results a a') : Together results errors (.ok a) (.ok a')
  | error {e e' : ConditionError} (related : errors e e') :
      Together results errors (.error e) (.error e')

structure FramesAlike (found found' : List Token) (frame frame' : Frame) : Prop where
  operands : frame.operands = frame'.operands
  negations : frame.negations = frame'.negations
  opening : ∃ t t', SamePosition found found' t t' ∧ frame.opening = t.span ∧
    frame'.opening = t'.span

namespace Reader

structure Alike (found found' : List Token) (r r' : Reader) : Prop where
  table : r.table = r'.table
  operands : r.operands = r'.operands
  phase : r.phase = r'.phase
  frames : List.Forall₂ (FramesAlike found found') r.frames r'.frames

variable {found found' : List Token} {r r' : Reader} {t t' : Token}

theorem Alike.depth_eq (h : Alike found found' r r') : r.depth = r'.depth := by
  have hnegations : r.frames.map Frame.negations = r'.frames.map Frame.negations := by
    have hframes := h.frames
    generalize r.frames = frames, r'.frames = frames' at hframes
    induction hframes with
    | nil => rfl
    | cons hframe _ ih => rw [List.map_cons, List.map_cons, hframe.negations, ih]
  have hpending : r.pendingNegations = r'.pendingNegations := by
    unfold pendingNegations
    rw [h.phase]
  rw [depth_eq_level, depth_eq_level]
  unfold level
  rw [hnegations, hpending]

theorem Alike.isEmpty_eq (h : Alike found found' r r') : r.frames.isEmpty = r'.frames.isEmpty := by
  have hframes := h.frames
  generalize r.frames = frames, r'.frames = frames' at hframes
  cases hframes <;> rfl

/-- One step: what the readers do with a token depends on its symbol only. -/
theorem Alike.step (h : Alike found found' r r') (hposition : SamePosition found found' t t')
    (hsymbol : t.symbol = t'.symbol) (stop stop' : Nat) :
    Together (Alike found found') (ErrorsAlike found found' stop stop') (r.step t)
      (r'.step t') := by
  have hdepth := h.depth_eq
  have hempty := h.isEmpty_eq
  obtain ⟨table, frames, operands, phase⟩ := r
  obtain ⟨table', frames', operands', phase'⟩ := r'
  obtain ⟨htable, hoperands, hphase, hframes⟩ := h
  dsimp only at htable hoperands hphase hframes hempty
  subst htable hoperands hphase
  cases phase with
  | beforeOperand negations =>
    cases ht : t.symbol with
    | ident name =>
      simp only [Reader.step, ← hsymbol, ht]
      cases table.boolean name with
      | ok answer => exact .ok ⟨rfl, rfl, rfl, hframes⟩
      | error cause => exact .error (.notBoolean hposition name)
    | neg =>
      simp only [Reader.step, ← hsymbol, ht, ← hdepth]
      split
      · exact .ok ⟨rfl, rfl, rfl, hframes⟩
      · exact .error (.tooDeep hposition maxNesting)
    | opening =>
      simp only [Reader.step, ← hsymbol, ht, ← hdepth]
      split
      · exact .ok ⟨rfl, rfl, rfl, .cons ⟨rfl, rfl, t, t', hposition, rfl, rfl⟩ hframes⟩
      · exact .error (.tooDeep hposition maxNesting)
    | conj =>
      simp only [Reader.step, ← hsymbol, ht]
      exact .error (.unexpectedToken hposition .operand)
    | disj =>
      simp only [Reader.step, ← hsymbol, ht]
      exact .error (.unexpectedToken hposition .operand)
    | closing =>
      simp only [Reader.step, ← hsymbol, ht]
      exact .error (.unbalancedParenthesis hposition)
  | afterOperand f =>
    cases ht : t.symbol with
    | ident name =>
      simp only [Reader.step, ← hsymbol, ht, ← hempty]
      exact .error (.unexpectedToken hposition _)
    | neg =>
      simp only [Reader.step, ← hsymbol, ht, ← hempty]
      exact .error (.unexpectedToken hposition _)
    | opening =>
      simp only [Reader.step, ← hsymbol, ht, ← hempty]
      exact .error (.unexpectedToken hposition _)
    | conj =>
      simp only [Reader.step, ← hsymbol, ht]
      exact .ok ⟨rfl, rfl, rfl, hframes⟩
    | disj =>
      simp only [Reader.step, ← hsymbol, ht]
      exact .ok ⟨rfl, rfl, rfl, hframes⟩
    | closing =>
      simp only [Reader.step, ← hsymbol, ht]
      cases hframes with
      | nil => exact .error (.unbalancedParenthesis hposition)
      | cons hframe hrest =>
        refine .ok ⟨rfl, hframe.operands, ?_, hrest⟩
        show Phase.afterOperand _ = .afterOperand _
        rw [hframe.negations]

/-- Where the readers end, a condition ends for both or for neither. -/
theorem Alike.finish (h : Alike found found' r r') (stop stop' : Nat) :
    Together (· = ·) (ErrorsAlike found found' stop stop') (r.finish stop) (r'.finish stop') := by
  obtain ⟨table, frames, operands, phase⟩ := r
  obtain ⟨table', frames', operands', phase'⟩ := r'
  obtain ⟨htable, hoperands, hphase, hframes⟩ := h
  dsimp only at htable hoperands hphase hframes
  subst htable hoperands hphase
  cases phase with
  | beforeOperand negations => exact .error (.unexpectedEnd .operand)
  | afterOperand f =>
    cases hframes with
    | nil => exact .ok rfl
    | cons hframe hrest =>
      obtain ⟨t, t', hposition, hopening, hopening'⟩ := hframe.opening
      simp only [Reader.finish, hopening, hopening']
      exact .error (.unbalancedParenthesis hposition)

/-- Runs over tokens with the same symbols end alike, with the same table. -/
theorem Alike.run (h : Alike found found' r r') {before before' rest rest' : List Token}
    (hfound : found = before ++ rest) (hfound' : found' = before' ++ rest')
    (hlength : before.length = before'.length)
    (hsymbols : rest.map Token.symbol = rest'.map Token.symbol) (stop stop' : Nat) :
    (r.run rest).1.table = (r'.run rest').1.table ∧
      (((r.run rest).2 = none ∧ (r'.run rest').2 = none ∧
        Alike found found' (r.run rest).1 (r'.run rest').1) ∨
      ∃ e e', (r.run rest).2 = some e ∧ (r'.run rest').2 = some e' ∧
        ErrorsAlike found found' stop stop' e e') := by
  induction rest generalizing r r' before before' rest' with
  | nil =>
    obtain rfl : rest' = [] := List.map_eq_nil_iff.mp hsymbols.symm
    exact ⟨h.table, .inl ⟨rfl, rfl, h⟩⟩
  | cons t rest ih =>
    obtain ⟨t', rest', rfl, ht, hrest⟩ := List.map_eq_cons_iff.mp hsymbols.symm
    have hposition : SamePosition found found' t t' := by
      refine ⟨before.length, ?_, ?_⟩
      · simp [hfound]
      · simp [hfound', hlength]
    have hstep := h.step hposition ht.symm stop stop'
    rw [Reader.run, Reader.run]
    generalize r.step t = attempt, r'.step t' = attempt' at hstep ⊢
    cases hstep with
    | ok related =>
      have hnext : found = (before ++ [t]) ++ rest := by simp [hfound]
      have hnext' : found' = (before' ++ [t']) ++ rest' := by simp [hfound']
      exact ih related hnext hnext' (by simp [hlength]) hrest.symm
    | error related => exact ⟨h.table, .inr ⟨_, _, rfl, rfl, related⟩⟩

end Reader

variable {table : VariableTable} {found found' : List Token}

theorem parseTokens_together (hsymbols : found.map Token.symbol = found'.map Token.symbol)
    (stop stop' : Nat) :
    (parseTokens table found stop).table = (parseTokens table found' stop').table ∧
      Together (· = ·) (ErrorsAlike found found' stop stop')
        (parseTokens table found stop).result (parseTokens table found' stop').result := by
  have hstart : Reader.Alike found found' (.start table) (.start table) := ⟨rfl, rfl, rfl, .nil⟩
  have hrun := hstart.run (List.nil_append found).symm (List.nil_append found').symm rfl hsymbols
    stop stop'
  unfold parseTokens
  generalize (Reader.start table).run found = outcome,
    (Reader.start table).run found' = outcome' at hrun ⊢
  obtain ⟨r, error?⟩ := outcome
  obtain ⟨r', error?'⟩ := outcome'
  obtain ⟨htable, ⟨rfl, rfl, halike⟩ | ⟨e, e', rfl, rfl, herrors⟩⟩ := hrun
  · refine ⟨htable, ?_⟩
    have hfinish := halike.finish stop stop'
    dsimp only at hfinish ⊢
    generalize r.finish stop = answer, r'.finish stop' = answer' at hfinish ⊢
    cases hfinish with
    | ok heq => exact .ok (congrArg some heq)
    | error herrors => exact .error herrors
  · exact ⟨htable, .error herrors⟩

/-- Texts whose tokens have the same symbols are parsed alike. -/
theorem parse_together {text text' : String} (hfound : tokens text = .ok found)
    (hfound' : tokens text' = .ok found')
    (hsymbols : found.map Token.symbol = found'.map Token.symbol) :
    (parse table text).table = (parse table text').table ∧
      Together (· = ·) (ErrorsAlike found found' text.utf8ByteSize text'.utf8ByteSize)
        (parse table text).result (parse table text').result := by
  cases found with
  | nil =>
    obtain rfl : found' = [] := List.map_eq_nil_iff.mp hsymbols.symm
    unfold parse
    rw [hfound, hfound']
    exact ⟨rfl, .ok rfl⟩
  | cons t rest =>
    have hne : found' ≠ [] := by
      rintro rfl
      cases hsymbols
    rw [parse_of_tokens hfound (List.cons_ne_nil t rest), parse_of_tokens hfound' hne]
    exact parseTokens_together hsymbols _ _

end GuardedMachines.Condition
