import GuardedMachines.Condition.Reader
import GuardedMachines.Proofs.Condition.Grammar
import GuardedMachines.Proofs.Interning

/-!
The reader, token by token. A step that is not refused is one of six, and what
every one of them keeps every run keeps. The table is the first one with the
names read so far interned, open parentheses and pending negations are those of
the symbols read, and the stack spells these symbols: each frame stands for the
phrases completed before its parenthesis and for the negations in front of it.
Hence what is read to the end is a sentence.
-/

namespace GuardedMachines.Condition

namespace Reader

inductive Takes : Reader → Token → Reader → Prop
  | name {table : VariableTable} {frames : List Frame} {operands : Operands} {negations : Nat}
      {t : Token} {name : String} (symbol : t.symbol = .ident name)
      (admits : table.AdmitsBoolean name) :
      Takes ⟨table, frames, operands, .beforeOperand negations⟩ t
        ⟨(table.getOrBoolean name).2, frames, operands,
          .afterOperand (negated negations (.atom (table.getOrBoolean name).1))⟩
  | neg {table : VariableTable} {frames : List Frame} {operands : Operands} {negations : Nat}
      {t : Token} (symbol : t.symbol = .neg)
      (room : depth ⟨table, frames, operands, .beforeOperand negations⟩ < maxNesting) :
      Takes ⟨table, frames, operands, .beforeOperand negations⟩ t
        ⟨table, frames, operands, .beforeOperand (negations + 1)⟩
  | opening {table : VariableTable} {frames : List Frame} {operands : Operands} {negations : Nat}
      {t : Token} (symbol : t.symbol = .opening)
      (room : depth ⟨table, frames, operands, .beforeOperand negations⟩ < maxNesting) :
      Takes ⟨table, frames, operands, .beforeOperand negations⟩ t
        ⟨table, ⟨t.span, operands, negations⟩ :: frames, .none, .beforeOperand 0⟩
  | conj {table : VariableTable} {frames : List Frame} {operands : Operands} {f : Formula}
      {t : Token} (symbol : t.symbol = .conj) :
      Takes ⟨table, frames, operands, .afterOperand f⟩ t
        ⟨table, frames, operands.andThen f, .beforeOperand 0⟩
  | disj {table : VariableTable} {frames : List Frame} {operands : Operands} {f : Formula}
      {t : Token} (symbol : t.symbol = .disj) :
      Takes ⟨table, frames, operands, .afterOperand f⟩ t
        ⟨table, frames, operands.orThen f, .beforeOperand 0⟩
  | closing {table : VariableTable} {frame : Frame} {frames : List Frame} {operands : Operands}
      {f : Formula} {t : Token} (symbol : t.symbol = .closing) :
      Takes ⟨table, frame :: frames, operands, .afterOperand f⟩ t
        ⟨table, frames, frame.operands,
          .afterOperand (negated frame.negations (operands.disjunction f))⟩

theorem takes_of_step {r r' : Reader} {t : Token} (h : r.step t = .ok r') : Takes r t r' := by
  obtain ⟨table, frames, operands, phase⟩ := r
  cases phase with
  | beforeOperand negations =>
    unfold step at h
    dsimp only at h
    cases hsymbol : t.symbol with
    | ident name =>
      rw [hsymbol] at h
      dsimp only at h
      cases hboolean : table.boolean name with
      | error e =>
        rw [hboolean] at h
        cases h
      | ok answer =>
        rw [hboolean] at h
        cases h
        obtain ⟨hadmits, rfl⟩ := VariableTable.boolean_eq_ok_iff.mp hboolean
        exact .name hsymbol hadmits
    | neg =>
      rw [hsymbol] at h
      dsimp only at h
      split at h
      · next hroom =>
        cases h
        exact .neg hsymbol hroom
      · cases h
    | opening =>
      rw [hsymbol] at h
      dsimp only at h
      split at h
      · next hroom =>
        cases h
        exact .opening hsymbol hroom
      · cases h
    | conj =>
      rw [hsymbol] at h
      cases h
    | disj =>
      rw [hsymbol] at h
      cases h
    | closing =>
      rw [hsymbol] at h
      cases h
  | afterOperand f =>
    unfold step at h
    dsimp only at h
    cases hsymbol : t.symbol with
    | conj =>
      rw [hsymbol] at h
      cases h
      exact .conj hsymbol
    | disj =>
      rw [hsymbol] at h
      cases h
      exact .disj hsymbol
    | closing =>
      rw [hsymbol] at h
      cases frames with
      | nil => cases h
      | cons frame frames =>
        cases h
        exact .closing hsymbol
    | ident name =>
      rw [hsymbol] at h
      cases h
    | neg =>
      rw [hsymbol] at h
      cases h
    | opening =>
      rw [hsymbol] at h
      cases h

theorem Takes.step {r r' : Reader} {t : Token} (h : Takes r t r') : r.step t = .ok r' := by
  cases h with
  | name symbol admits =>
    have hboolean := VariableTable.boolean_eq_ok_iff.mpr ⟨admits, rfl⟩
    simp only [Reader.step, symbol, hboolean]
  | neg symbol room => simp only [Reader.step, symbol, if_pos room]
  | opening symbol room => simp only [Reader.step, symbol, if_pos room]
  | conj symbol => simp only [Reader.step, symbol]
  | disj symbol => simp only [Reader.step, symbol]
  | closing symbol => simp only [Reader.step, symbol]

variable {r r' : Reader} {t : Token} {tokens tokens' : List Token}

theorem run_of_takes (h : Takes r t r') (tokens : List Token) :
    r.run (t :: tokens) = r'.run tokens := by
  rw [run, h.step]

theorem run_append (h : r.run tokens = (r', none)) (tokens' : List Token) :
    r.run (tokens ++ tokens') = r'.run tokens' := by
  induction tokens generalizing r with
  | nil =>
    cases h
    rfl
  | cons t rest ih =>
    rw [run] at h
    rw [List.cons_append, run]
    cases hstep : r.step t with
    | ok next =>
      rw [hstep] at h
      exact ih h
    | error e =>
      rw [hstep] at h
      cases h

/-- A run that was refused stays refused. -/
theorem run_append_refused {e : ConditionError} (h : r.run tokens = (r', some e))
    (tokens' : List Token) : r.run (tokens ++ tokens') = (r', some e) := by
  induction tokens generalizing r with
  | nil => cases h
  | cons t rest ih =>
    rw [run] at h
    rw [List.cons_append, run]
    cases hstep : r.step t with
    | ok next =>
      rw [hstep] at h
      exact ih h
    | error e' =>
      rw [hstep] at h
      exact h

/-- What every step keeps about the tokens read and the reader, every run keeps. -/
theorem run_induction {P : List Token → Reader → Prop}
    (hstep : ∀ read r t r', P read r → Takes r t r' → P (read ++ [t]) r')
    (h : P [] r) (hrun : r.run tokens = (r', none)) : P tokens r' := by
  suffices hfrom : ∀ read r, P read r → r.run tokens = (r', none) → P (read ++ tokens) r' from
    hfrom [] r h hrun
  clear h hrun
  induction tokens with
  | nil =>
    intro read r h hrun
    cases hrun
    simpa using h
  | cons t rest ih =>
    intro read r h hrun
    rw [run] at hrun
    cases hnext : r.step t with
    | error e =>
      rw [hnext] at hrun
      cases hrun
    | ok next =>
      rw [hnext] at hrun
      have hrest := ih _ _ (hstep read r t next h (takes_of_step hnext)) hrun
      simpa using hrest

/-- What every step keeps about the symbols read and the reader, every run keeps. -/
theorem run_invariant {P : List Symbol → Reader → Prop}
    (hstep : ∀ read r t r', P read r → Takes r t r' → P (read ++ [t.symbol]) r')
    (read : List Symbol) (h : P read r) (hrun : r.run tokens = (r', none)) :
    P (read ++ tokens.map Token.symbol) r' := by
  refine run_induction (P := fun tokens r => P (read ++ tokens.map Token.symbol) r) ?_ ?_ hrun
  · intro tokens s t s' hbefore htakes
    have hafter := hstep _ s t s' hbefore htakes
    simpa using hafter
  · simpa using h

def level (r : Reader) : Level := ⟨r.frames.map Frame.negations, r.pendingNegations⟩

theorem depth_eq_level (r : Reader) : r.depth = r.level.depth := by
  unfold depth level Level.depth
  rw [List.foldr_map]

section Depth

variable (table : VariableTable) (frames : List Frame) (operands : Operands)

theorem depth_before (negations : Nat) :
    depth ⟨table, frames, operands, .beforeOperand negations⟩ =
      negations + depth ⟨table, frames, operands, .beforeOperand 0⟩ := by
  rw [depth_eq_level, depth_eq_level]
  exact Level.depth_eq (frames.map Frame.negations) negations

theorem depth_parenthesis (negations : Nat) (span : Span) :
    depth ⟨table, ⟨span, operands, negations⟩ :: frames, .none, .beforeOperand 0⟩ =
      depth ⟨table, frames, operands, .beforeOperand negations⟩ + 1 := by
  rw [depth_eq_level, depth_eq_level]
  exact Level.depth_cons negations (frames.map Frame.negations)

end Depth

namespace Takes

theorem level_eq (h : Takes r t r') : r'.level = r.level.next t.symbol := by
  cases h <;> simp_all [level, Level.next, pendingNegations]

theorem table_eq (h : Takes r t r') : r'.table = r.table.declare (names [t.symbol]) := by
  cases h <;> simp_all [names_cons, Symbol.name?]

theorem admits (h : Takes r t r') {name : String} (hname : name ∈ names [t.symbol]) :
    r.table.AdmitsBoolean name := by
  cases h <;> simp_all [names, Symbol.name?]

/-- A step never goes deeper than the limit. -/
theorem depth_le (h : Takes r t r') (hdepth : r.depth ≤ maxNesting) : r'.depth ≤ maxNesting := by
  cases h with
  | @name table frames operands negations t name symbol admits =>
    have hhere := depth_before table frames operands negations
    show depth ⟨table, frames, operands, .beforeOperand 0⟩ ≤ maxNesting
    omega
  | @neg table frames operands negations t symbol room =>
    have hhere := depth_before table frames operands negations
    have hnext := depth_before table frames operands (negations + 1)
    omega
  | @opening table frames operands negations t symbol room =>
    have hnext := depth_parenthesis table frames operands negations t.span
    omega
  | conj symbol => exact hdepth
  | disj symbol => exact hdepth
  | @closing table frame frames operands f t symbol =>
    have hinner := depth_parenthesis table frames frame.operands frame.negations frame.opening
    have houter := depth_before table frames frame.operands frame.negations
    have hhere : depth ⟨table, ⟨frame.opening, frame.operands, frame.negations⟩ :: frames, .none,
      .beforeOperand 0⟩ ≤ maxNesting := hdepth
    show depth ⟨table, frames, frame.operands, .beforeOperand 0⟩ ≤ maxNesting
    omega

end Takes

/-- The names read have been interned, and the table admitted every one of them. -/
theorem table_after_run (hrun : r.run tokens = (r', none)) :
    r'.table = r.table.declare (names (tokens.map Token.symbol)) ∧
      ∀ name ∈ names (tokens.map Token.symbol), r.table.AdmitsBoolean name := by
  refine run_invariant (P := fun read r' => r'.table = r.table.declare (names read) ∧
    ∀ name ∈ names read, r.table.AdmitsBoolean name) ?_ [] ⟨rfl, by simp⟩ hrun
  intro read s t s' htable htakes
  obtain ⟨htable, hadmits⟩ := htable
  constructor
  · rw [htakes.table_eq, htable, names_append, VariableTable.declare_append]
  · intro name hname
    rw [names_append, List.mem_append] at hname
    rcases hname with hname | hname
    · exact hadmits name hname
    · have hlast := htakes.admits hname
      rw [htable] at hlast
      exact (VariableTable.admitsBoolean_declare _).mp hlast

/-- A run that is not refused stays within the limit at every symbol. -/
theorem peak_le_of_run (hdepth : r.depth ≤ maxNesting) (hrun : r.run tokens = (r', none)) :
    r.level.peak (tokens.map Token.symbol) ≤ maxNesting := by
  induction tokens generalizing r with
  | nil =>
    show r.level.depth ≤ maxNesting
    rw [← depth_eq_level]
    exact hdepth
  | cons t rest ih =>
    rw [run] at hrun
    cases hnext : r.step t with
    | error e =>
      rw [hnext] at hrun
      cases hrun
    | ok next =>
      rw [hnext] at hrun
      have htakes := takes_of_step hnext
      have hrest := ih (htakes.depth_le hdepth) hrun
      rw [htakes.level_eq] at hrest
      rw [depth_eq_level] at hdepth
      rw [List.map_cons, Level.peak]
      exact Nat.max_le.mpr ⟨hdepth, hrest⟩

end Reader

structure Pending where
  disjunction? : Option (Phrase .disjunction)
  conjunction? : Option (Phrase .conjunction)

namespace Pending

def none : Pending := ⟨.none, .none⟩

def symbols (pending : Pending) : List Symbol :=
  pending.disjunction?.elim [] (fun d => d.symbols ++ [.disj]) ++
    pending.conjunction?.elim [] (fun c => c.symbols ++ [.conj])

def conjunction (pending : Pending) (last : Phrase .unary) : Phrase .conjunction :=
  pending.conjunction?.elim (.conjunct last) fun c => .conj c last

def disjunction (pending : Pending) (last : Phrase .unary) : Phrase .disjunction :=
  pending.disjunction?.elim (.disjunct (pending.conjunction last)) fun d =>
    .disj d (pending.conjunction last)

def andThen (pending : Pending) (last : Phrase .unary) : Pending :=
  ⟨pending.disjunction?, some (pending.conjunction last)⟩

def orThen (pending : Pending) (last : Phrase .unary) : Pending :=
  ⟨some (pending.disjunction last), .none⟩

variable (pending : Pending) (last : Phrase .unary)

@[simp] theorem symbols_none : none.symbols = [] := rfl

@[simp] theorem symbols_disjunction :
    (pending.disjunction last).symbols = pending.symbols ++ last.symbols := by
  obtain ⟨d, c⟩ := pending
  cases d <;> cases c <;> simp [disjunction, conjunction, symbols, Phrase.symbols]

@[simp] theorem symbols_andThen :
    (pending.andThen last).symbols = pending.symbols ++ last.symbols ++ [.conj] := by
  obtain ⟨d, c⟩ := pending
  cases d <;> cases c <;> simp [andThen, conjunction, symbols, Phrase.symbols]

@[simp] theorem symbols_orThen :
    (pending.orThen last).symbols = pending.symbols ++ last.symbols ++ [.disj] := by
  have hd := symbols_disjunction pending last
  simp [orThen, symbols, hd]

end Pending

def Phrase.negated (negations : Nat) (p : Phrase .unary) : Phrase .unary :=
  Nat.repeat .neg negations p

@[simp] theorem Phrase.symbols_negated (negations : Nat) (p : Phrase .unary) :
    (p.negated negations).symbols = List.replicate negations .neg ++ p.symbols := by
  induction negations with
  | zero => rfl
  | succ n ih =>
    show Symbol.neg :: (p.negated n).symbols = _
    rw [ih, List.replicate_succ, List.cons_append]

/-- What stands before the innermost open parenthesis and at it, given for each open
parenthesis by the phrases before it and the negations in front of it. -/
def openSymbols : List (Pending × Nat) → List Symbol
  | [] => []
  | (pending, negations) :: outer =>
    openSymbols outer ++ pending.symbols ++ List.replicate negations .neg ++ [.opening]

def Phase.Spells (phase : Phase) (symbols : List Symbol) : Prop :=
  match phase with
  | .beforeOperand negations => symbols = List.replicate negations .neg
  | .afterOperand _ => ∃ p : Phrase .unary, symbols = p.symbols

namespace Reader

/-- The stack of the reader stands for the symbols read. -/
def Spells (r : Reader) (read : List Symbol) : Prop :=
  ∃ (outer : List (Pending × Nat)) (pending : Pending) (last : List Symbol),
    outer.map Prod.snd = r.frames.map Frame.negations ∧ r.phase.Spells last ∧
      read = openSymbols outer ++ pending.symbols ++ last

variable {r r' : Reader} {t : Token} {read : List Symbol}

theorem Spells.takes (h : r.Spells read) (htakes : Takes r t r') :
    r'.Spells (read ++ [t.symbol]) := by
  obtain ⟨outer, pending, last, hframes, hphase, rfl⟩ := h
  cases htakes with
  | @name table frames operands negations t name symbol admits =>
    obtain rfl : last = List.replicate negations .neg := hphase
    refine ⟨outer, pending, _, hframes, ⟨(Phrase.plain (.name name)).negated negations, rfl⟩, ?_⟩
    simp [symbol, Phrase.symbols]
  | @neg table frames operands negations t symbol room =>
    obtain rfl : last = List.replicate negations .neg := hphase
    refine ⟨outer, pending, List.replicate (negations + 1) .neg, hframes, rfl, ?_⟩
    rw [symbol, List.replicate_succ', ← List.append_assoc]
  | @opening table frames operands negations t symbol room =>
    obtain rfl : last = List.replicate negations .neg := hphase
    refine ⟨(pending, negations) :: outer, .none, [], ?_, rfl, ?_⟩
    · exact congrArg (negations :: ·) hframes
    · simp [symbol, openSymbols]
  | @conj table frames operands f t symbol =>
    obtain ⟨p, rfl⟩ := hphase
    refine ⟨outer, pending.andThen p, [], hframes, rfl, ?_⟩
    simp [symbol]
  | @disj table frames operands f t symbol =>
    obtain ⟨p, rfl⟩ := hphase
    refine ⟨outer, pending.orThen p, [], hframes, rfl, ?_⟩
    simp [symbol]
  | @closing table frame frames operands f t symbol =>
    obtain ⟨p, rfl⟩ := hphase
    cases outer with
    | nil => cases hframes
    | cons innermost outer =>
      obtain ⟨before, negations⟩ := innermost
      have hrest : outer.map Prod.snd = frames.map Frame.negations := (List.cons.inj hframes).2
      refine ⟨outer, before, _, hrest,
        ⟨(Phrase.plain (.group (pending.disjunction p))).negated negations, rfl⟩, ?_⟩
      simp [symbol, openSymbols, Phrase.symbols]

theorem start_spells (table : VariableTable) : (start table).Spells [] :=
  ⟨[], .none, [], rfl, rfl, rfl⟩

theorem spells_of_run {table : VariableTable} {tokens : List Token}
    (hrun : (start table).run tokens = (r, none)) : r.Spells (tokens.map Token.symbol) :=
  run_invariant (P := fun read r => r.Spells read) (fun _ _ _ _ h htakes => h.takes htakes) []
    (start_spells table) hrun

/-- What has been read may end only where it is a sentence. -/
theorem Spells.sentence (h : r.Spells read) {stop : Nat} {f : Formula}
    (hfinish : r.finish stop = .ok f) : Sentence read := by
  obtain ⟨outer, pending, last, hframes, hphase, rfl⟩ := h
  obtain ⟨table, frames, operands, phase⟩ := r
  cases phase with
  | beforeOperand negations => cases hfinish
  | afterOperand g =>
    cases frames with
    | cons frame frames => cases hfinish
    | nil =>
      obtain rfl : outer = [] := List.map_eq_nil_iff.mp hframes
      obtain ⟨p, rfl⟩ := hphase
      refine ⟨pending.disjunction p, ?_⟩
      simp [openSymbols]

end Reader

end GuardedMachines.Condition
