import GuardedMachines.Proofs.Condition.Acceptance
import Mathlib.Data.List.Nodup

/-!
Where the reading of a condition stops. The tokens of a text follow one another,
so a span belongs to one token only. A text that is not accepted is either refused
at a token, with the span of that token, after the tokens before it were taken; or
all of its tokens were taken and it ends where an operand is due or a parenthesis
is open. The frames of the reader remember the open parentheses: what follows the
innermost one is matched.
-/

namespace GuardedMachines.Condition

section Spans

variable {start : Nat} {chars : List Char} {found : List Token}

theorem byteSize_pos {lexeme : List Char} (h : lexeme ≠ []) : 0 < byteSize lexeme := by
  cases lexeme with
  | nil => exact absurd rfl h
  | cons c rest =>
    have hc := c.utf8Size_pos
    rw [byteSize]
    omega

/-- Tokens are not empty and follow one another. -/
theorem tokens_in_order (h : tokensFrom start chars = .ok found) :
    (∀ t ∈ found, start ≤ t.span.start ∧ t.span.start < t.span.stop) ∧
      found.Pairwise fun t u => t.span.stop ≤ u.span.start := by
  fun_induction tokensFrom start chars generalizing found with
  | case1 =>
    cases h
    exact ⟨fun _ ht => absurd ht List.not_mem_nil, .nil⟩
  | case2 start c rest hc ih =>
    obtain ⟨hbounds, hpairs⟩ := ih h
    refine ⟨fun t ht => ?_, hpairs⟩
    have hlater := hbounds t ht
    omega
  | case3 start c rest hc symbol lexeme rest' hfirst hlt ih =>
    cases hafter : tokensFrom (start + byteSize lexeme) rest' with
    | error e =>
      rw [hafter] at h
      cases h
    | ok after =>
      rw [hafter] at h
      cases h
      obtain ⟨hbounds, hpairs⟩ := ih hafter
      have hsize := byteSize_pos (lexeme_ne_nil_of_firstToken? hfirst)
      constructor
      · intro t ht
        rcases List.mem_cons.mp ht with rfl | ht
        · show start ≤ start ∧ start < start + byteSize lexeme
          omega
        · have hlater := hbounds t ht
          omega
      · exact List.pairwise_cons.mpr ⟨fun t ht => (hbounds t ht).1, hpairs⟩
  | case4 => cases h

/-- No two tokens have one span. -/
theorem nodup_spans {text : String} (h : tokens text = .ok found) :
    (found.map Token.span).Nodup := by
  obtain ⟨hbounds, hpairs⟩ := tokens_in_order h
  refine List.pairwise_map.mpr (hpairs.imp_of_mem ?_)
  intro t u ht _ hapart hsame
  have hsize := (hbounds t ht).2
  rw [← hsame] at hapart
  omega

/-- The tokens before a span are the same however they are found. -/
theorem before_span_unique {before after before' after' : List Token} {t t' : Token}
    (hspans : (found.map Token.span).Nodup) (h : found = before ++ t :: after)
    (h' : found = before' ++ t' :: after') (hspan : t.span = t'.span) : before = before' := by
  have hmem : t ∈ found := by simp [h]
  have hmem' : t' ∈ found := by simp [h']
  obtain rfl : t = t' := List.inj_on_of_nodup_map hspans hmem hmem' hspan
  have honce : (before ++ t :: after).Nodup := h ▸ hspans.of_map _
  obtain ⟨-, hafter, hapart⟩ := List.nodup_append.mp honce
  have hbefore : t ∉ before := fun hold => hapart t hold t List.mem_cons_self rfl
  exact ((List.append_cons_inj_of_notMem hbefore (List.nodup_cons.mp hafter).1).mp
    (h.symm.trans h')).1

end Spans

namespace Reader

inductive Refuses : Reader → Token → ConditionError → Prop
  | notBoolean {r : Reader} {t : Token} {negations : Nat} {name : String}
      (phase : r.phase = .beforeOperand negations) (symbol : t.symbol = .ident name)
      (other : ¬ r.table.AdmitsBoolean name) : Refuses r t (.notBoolean name t.span)
  | tooDeep {r : Reader} {t : Token} {negations : Nat} (phase : r.phase = .beforeOperand negations)
      (symbol : t.symbol = .neg ∨ t.symbol = .opening) (full : maxNesting ≤ r.depth) :
      Refuses r t (.tooDeep maxNesting t.span)
  | noOperand {r : Reader} {t : Token} {negations : Nat}
      (phase : r.phase = .beforeOperand negations) (symbol : t.symbol = .conj ∨ t.symbol = .disj) :
      Refuses r t (.unexpectedToken t.text .operand t.span)
  | closedEarly {r : Reader} {t : Token} {negations : Nat}
      (phase : r.phase = .beforeOperand negations) (symbol : t.symbol = .closing) :
      Refuses r t (.unbalancedParenthesis t.span)
  | noConnective {r : Reader} {t : Token} {f : Formula} {expected : Expectation}
      (phase : r.phase = .afterOperand f)
      (symbol : (∃ name, t.symbol = .ident name) ∨ t.symbol = .neg ∨ t.symbol = .opening) :
      Refuses r t (.unexpectedToken t.text expected t.span)
  | notOpened {r : Reader} {t : Token} {f : Formula} (phase : r.phase = .afterOperand f)
      (symbol : t.symbol = .closing) (outermost : r.frames = []) :
      Refuses r t (.unbalancedParenthesis t.span)

variable {r r' : Reader} {t : Token} {e : ConditionError} {read tokens : List Token}

theorem refuses_of_step (h : r.step t = .error e) : Refuses r t e := by
  unfold step at h
  cases hphase : r.phase with
  | beforeOperand negations =>
    rw [hphase] at h
    cases hsymbol : t.symbol with
    | ident name =>
      rw [hsymbol] at h
      dsimp only at h
      cases hboolean : r.table.boolean name with
      | ok answer =>
        rw [hboolean] at h
        cases h
      | error cause =>
        rw [hboolean] at h
        cases h
        refine .notBoolean hphase hsymbol fun hadmits => ?_
        rw [VariableTable.boolean_eq_ok_iff.mpr ⟨hadmits, rfl⟩] at hboolean
        cases hboolean
    | neg =>
      rw [hsymbol] at h
      dsimp only at h
      split at h
      · cases h
      · next hfull =>
        cases h
        exact .tooDeep hphase (.inl hsymbol) (Nat.le_of_not_lt hfull)
    | opening =>
      rw [hsymbol] at h
      dsimp only at h
      split at h
      · cases h
      · next hfull =>
        cases h
        exact .tooDeep hphase (.inr hsymbol) (Nat.le_of_not_lt hfull)
    | conj =>
      rw [hsymbol] at h
      cases h
      exact .noOperand hphase (.inl hsymbol)
    | disj =>
      rw [hsymbol] at h
      cases h
      exact .noOperand hphase (.inr hsymbol)
    | closing =>
      rw [hsymbol] at h
      cases h
      exact .closedEarly hphase hsymbol
  | afterOperand f =>
    rw [hphase] at h
    cases hsymbol : t.symbol with
    | ident name =>
      rw [hsymbol] at h
      cases h
      exact .noConnective hphase (.inl ⟨name, hsymbol⟩)
    | neg =>
      rw [hsymbol] at h
      cases h
      exact .noConnective hphase (.inr (.inl hsymbol))
    | opening =>
      rw [hsymbol] at h
      cases h
      exact .noConnective hphase (.inr (.inr hsymbol))
    | conj =>
      rw [hsymbol] at h
      cases h
    | disj =>
      rw [hsymbol] at h
      cases h
    | closing =>
      rw [hsymbol] at h
      dsimp only at h
      cases hframes : r.frames with
      | nil =>
        rw [hframes] at h
        cases h
        exact .notOpened hphase hsymbol hframes
      | cons frame frames =>
        rw [hframes] at h
        cases h

/-- A refusal is about the token that is refused. -/
theorem Refuses.span_eq (h : Refuses r t e) : e.span = t.span := by
  cases h <;> rfl

/-- A run that was refused took the tokens before the one that it refused. -/
theorem exists_refused (h : r.run tokens = (r', some e)) :
    ∃ before t after, tokens = before ++ t :: after ∧ r.run before = (r', none) ∧
      Refuses r' t e := by
  induction tokens generalizing r with
  | nil => cases h
  | cons t rest ih =>
    rw [run] at h
    cases hstep : r.step t with
    | ok next =>
      rw [hstep] at h
      obtain ⟨before, u, after, rfl, hrun, hrefuses⟩ := ih h
      refine ⟨t :: before, u, after, rfl, ?_, hrefuses⟩
      rw [run, hstep]
      exact hrun
    | error cause =>
      rw [hstep] at h
      cases h
      exact ⟨[], t, rest, rfl, rfl, refuses_of_step hstep⟩

/-- The ways in which a text ends too early. -/
theorem finish_eq_error {stop : Nat} (h : r.finish stop = .error e) :
    (∃ negations, r.phase = .beforeOperand negations ∧
      e = .unexpectedEnd .operand ⟨stop, stop⟩) ∨
    ∃ f frame frames, r.phase = .afterOperand f ∧ r.frames = frame :: frames ∧
      e = .unbalancedParenthesis frame.opening := by
  unfold finish at h
  cases hphase : r.phase with
  | beforeOperand negations =>
    rw [hphase] at h
    cases h
    exact .inl ⟨negations, rfl, rfl⟩
  | afterOperand f =>
    rw [hphase] at h
    cases hframes : r.frames with
    | nil =>
      rw [hframes] at h
      cases h
    | cons frame frames =>
      rw [hframes] at h
      cases h
      exact .inr ⟨f, frame, frames, rfl, rfl, rfl⟩

end Reader

/-- Where the reading of tokens over a table ends without a condition, and why. -/
inductive Stops (table : VariableTable) (found : List Token) (stop : Nat) :
    Reader → ConditionError → Prop
  | refused {before after : List Token} {t : Token} {r : Reader} {e : ConditionError}
      (split : found = before ++ t :: after) (run : (Reader.start table).run before = (r, none))
      (refuses : r.Refuses t e) : Stops table found stop r e
  | ended {r : Reader} {e : ConditionError} (run : (Reader.start table).run found = (r, none))
      (finish : r.finish stop = .error e) : Stops table found stop r e

/-- A text whose tokens are not accepted leaves the table of the reader that stopped. -/
theorem stops_of_parse {table : VariableTable} {text : String} {found : List Token}
    {e : ConditionError} (hfound : tokens text = .ok found)
    (h : (parse table text).result = .error e) :
    ∃ r, Stops table found text.utf8ByteSize r e ∧ (parse table text).table = r.table := by
  have hne : found ≠ [] := by
    rintro rfl
    simp only [parse, hfound] at h
    cases h
  rw [parse_of_tokens hfound hne] at h ⊢
  unfold parseTokens at h ⊢
  cases hrun : (Reader.start table).run found with
  | mk r refusal =>
    rw [hrun] at h
    cases refusal with
    | some cause =>
      cases h
      obtain ⟨before, t, after, hsplit, hbefore, hrefuses⟩ := Reader.exists_refused hrun
      exact ⟨r, .refused hsplit hbefore hrefuses, rfl⟩
    | none =>
      dsimp only at h
      cases hfinish : r.finish text.utf8ByteSize with
      | ok f =>
        rw [hfinish] at h
        cases h
      | error cause =>
        rw [hfinish] at h
        cases h
        exact ⟨r, .ended hrun hfinish, rfl⟩

def Matched (symbols : List Symbol) : Prop :=
  symbols.count .opening = symbols.count .closing ∧
    ∀ n, (symbols.take n).count .closing ≤ (symbols.take n).count .opening

namespace Matched

variable {symbols symbols' : List Symbol}

theorem nil : Matched [] := ⟨rfl, fun n => by simp⟩

theorem append (h : Matched symbols) (h' : Matched symbols') : Matched (symbols ++ symbols') := by
  constructor
  · rw [List.count_append, List.count_append, h.1, h'.1]
  · intro n
    have hleft := h.2 n
    have hright := h'.2 (n - symbols.length)
    rw [List.take_append, List.count_append, List.count_append]
    omega

theorem singleton {symbol : Symbol} (hopening : symbol ≠ .opening) (hclosing : symbol ≠ .closing) :
    Matched [symbol] := by
  constructor
  · simp [hopening, hclosing]
  · intro n
    cases n <;> simp [hopening, hclosing]

theorem parenthesized (h : Matched symbols) : Matched (.opening :: symbols ++ [.closing]) := by
  constructor
  · simp [h.1]
  · intro n
    cases n with
    | zero => simp
    | succ n =>
      have hinner := h.2 n
      have hlast : ([Symbol.closing].take (n - symbols.length)).count .closing ≤ 1 :=
        (List.take_sublist _ _).count_le _
      have hfirst : Symbol.opening ≠ .closing := by decide
      rw [List.cons_append, List.take_succ_cons, List.take_append, List.count_cons_self,
        List.count_cons_of_ne hfirst, List.count_append, List.count_append]
      omega

end Matched

/-- The tokens leave the parentheses at the spans open, the innermost first: after each of them
the ones opened later are in turn open or matched. -/
inductive LeavesOpen : List Token → List Span → Prop
  | none {read : List Token} : LeavesOpen read []
  | opened {before after : List Token} {t : Token} {spans : List Span}
      (outer : LeavesOpen before spans) (symbol : t.symbol = .opening)
      (matched : Matched (after.map Token.symbol)) :
      LeavesOpen (before ++ t :: after) (t.span :: spans)

namespace LeavesOpen

variable {read more : List Token} {spans : List Span} {t : Token}

theorem append (h : LeavesOpen read spans) (hmore : Matched (more.map Token.symbol)) :
    LeavesOpen (read ++ more) spans := by
  cases h with
  | none => exact .none
  | opened outer symbol matched =>
    rw [List.append_assoc, List.cons_append]
    refine .opened outer symbol ?_
    rw [List.map_append]
    exact matched.append hmore

theorem append_other (h : LeavesOpen read spans) (hopening : t.symbol ≠ .opening)
    (hclosing : t.symbol ≠ .closing) : LeavesOpen (read ++ [t]) spans :=
  h.append (.singleton hopening hclosing)

theorem append_closing {span : Span} (h : LeavesOpen read (span :: spans))
    (ht : t.symbol = .closing) : LeavesOpen (read ++ [t]) spans := by
  cases h with
  | @opened before after u spans outer symbol matched =>
    rw [List.append_assoc]
    apply outer.append
    rw [List.cons_append, List.map_cons, List.map_append, List.map_singleton, symbol, ht]
    exact matched.parenthesized

end LeavesOpen

namespace Reader

variable {r r' : Reader} {t : Token} {read : List Token}

theorem Takes.leavesOpen (h : Takes r t r')
    (hopen : LeavesOpen read (r.frames.map Frame.opening)) :
    LeavesOpen (read ++ [t]) (r'.frames.map Frame.opening) := by
  cases h with
  | name symbol admits => exact hopen.append_other (by simp [symbol]) (by simp [symbol])
  | neg symbol room => exact hopen.append_other (by simp [symbol]) (by simp [symbol])
  | opening symbol room => exact .opened hopen symbol .nil
  | conj symbol => exact hopen.append_other (by simp [symbol]) (by simp [symbol])
  | disj symbol => exact hopen.append_other (by simp [symbol]) (by simp [symbol])
  | closing symbol => exact hopen.append_closing symbol

/-- The frames of a reader are the parentheses that the tokens read leave open. -/
theorem leavesOpen_of_run {table : VariableTable} (h : (start table).run read = (r, none)) :
    LeavesOpen read (r.frames.map Frame.opening) :=
  run_induction (P := fun read r => LeavesOpen read (r.frames.map Frame.opening))
    (fun _ _ _ _ hopen htakes => htakes.leavesOpen hopen) .none h

end Reader

def EndsEarly (found : List Token) (e : ConditionError) : Prop :=
  (∃ expected span, e = .unexpectedEnd expected span) ∨
    ∃ t ∈ found, t.symbol = .opening ∧ e = .unbalancedParenthesis t.span

theorem endsEarly_of_finish {table : VariableTable} {found : List Token} {stop : Nat} {r : Reader}
    {e : ConditionError} (hrun : (Reader.start table).run found = (r, none))
    (hfinish : r.finish stop = .error e) : EndsEarly found e := by
  rcases Reader.finish_eq_error hfinish with ⟨-, -, rfl⟩ | ⟨-, frame, frames, -, hframes, rfl⟩
  · exact .inl ⟨_, _, rfl⟩
  · have hopen := Reader.leavesOpen_of_run hrun
    rw [hframes, List.map_cons] at hopen
    generalize frame.opening = span at hopen ⊢
    cases hopen with
    | opened outer symbol matched =>
      exact .inr ⟨_, List.mem_append_right _ List.mem_cons_self, symbol, rfl⟩

/-- A refused token is not a parenthesis left open, nor the end of the text. -/
theorem not_endsEarly_of_refuses {found before after : List Token} {t : Token} {r : Reader}
    {e : ConditionError} (hspans : (found.map Token.span).Nodup)
    (hsplit : found = before ++ t :: after) (hrefuses : r.Refuses t e) : ¬ EndsEarly found e := by
  have hmem : t ∈ found := by
    rw [hsplit]
    exact List.mem_append_right _ List.mem_cons_self
  rintro (⟨expected, span, rfl⟩ | ⟨u, hu, hopening, rfl⟩)
  · cases hrefuses
  · have hsame : u = t := List.inj_on_of_nodup_map hspans hu hmem hrefuses.span_eq
    subst hsame
    generalize hspan : u.span = span at hrefuses
    cases hrefuses with
    | closedEarly phase symbol => simp [hopening] at symbol
    | notOpened phase symbol outermost => simp [hopening] at symbol

end GuardedMachines.Condition
