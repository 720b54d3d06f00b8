import GuardedMachines.Proofs.Condition.Stopping

/-!
Errors point at the first token that no sentence goes on with. What the reader has
taken can always be completed: it spells phrases between open parentheses, so an
operand, if one is due, and the missing parentheses make it a sentence. Conversely
the grammar fixes, at every place of a sentence, whether an operand is due and how
many parentheses are open. A symbol that does not fit there begins no continuation,
and it is on such symbols that the reader stops, apart from the limit on the nesting
and from names of another domain.
-/

namespace GuardedMachines.Condition

structure Place where
  opened : Nat
  due : Bool

namespace Place

def start : Place := ⟨0, true⟩

def next : Place → Symbol → Option Place
  | ⟨opened, true⟩, .ident _ => some ⟨opened, false⟩
  | ⟨opened, true⟩, .neg => some ⟨opened, true⟩
  | ⟨opened, true⟩, .opening => some ⟨opened + 1, true⟩
  | ⟨opened, false⟩, .conj => some ⟨opened, true⟩
  | ⟨opened, false⟩, .disj => some ⟨opened, true⟩
  | ⟨opened + 1, false⟩, .closing => some ⟨opened, false⟩
  | _, _ => none

def after (place : Place) : List Symbol → Option Place
  | [] => some place
  | s :: rest => (place.next s).bind fun place' => place'.after rest

theorem after_append (place : Place) (symbols symbols' : List Symbol) :
    place.after (symbols ++ symbols') =
      (place.after symbols).bind fun place' => place'.after symbols' := by
  induction symbols generalizing place with
  | nil => rfl
  | cons s rest ih =>
    rw [List.cons_append, after, after]
    cases place.next s with
    | none => rfl
    | some place' => exact ih place'

end Place

/-- A phrase stands where an operand is due and leaves the parentheses as they are. -/
theorem Phrase.after_place {k : Rank} (p : Phrase k) (opened : Nat) :
    Place.after ⟨opened, true⟩ p.symbols = some ⟨opened, false⟩ := by
  induction p generalizing opened with
  | name n => rfl
  | group p ih =>
    show Place.after ⟨opened + 1, true⟩ (p.symbols ++ [.closing]) = _
    rw [Place.after_append, ih]
    rfl
  | plain p ih => exact ih opened
  | neg p ih => exact ih opened
  | conjunct p ih => exact ih opened
  | conj p q ihp ihq =>
    rw [symbols, Place.after_append, ihp]
    exact ihq opened
  | disjunct p ih => exact ih opened
  | disj p q ihp ihq =>
    rw [symbols, Place.after_append, ihp]
    exact ihq opened

theorem Sentence.after_place {symbols : List Symbol} (h : Sentence symbols) :
    Place.start.after symbols = some ⟨0, false⟩ := by
  obtain ⟨p, rfl⟩ := h
  exact p.after_place 0

def Phase.due : Phase → Bool
  | beforeOperand _ => true
  | afterOperand _ => false

namespace Reader

variable {r r' : Reader} {t : Token} {e : ConditionError} {table : VariableTable}
  {read : List Token}

def place (r : Reader) : Place := ⟨r.frames.length, r.phase.due⟩

theorem Takes.place_next (h : Takes r t r') : r.place.next t.symbol = some r'.place := by
  cases h with
  | name symbol admits =>
    rw [symbol]
    rfl
  | neg symbol room =>
    rw [symbol]
    rfl
  | opening symbol room =>
    rw [symbol]
    rfl
  | conj symbol =>
    rw [symbol]
    rfl
  | disj symbol =>
    rw [symbol]
    rfl
  | closing symbol =>
    rw [symbol]
    rfl

/-- The reader stands where the symbols that it has taken lead. -/
theorem place_of_run (h : (start table).run read = (r, none)) :
    Place.start.after (read.map Token.symbol) = some r.place := by
  refine run_invariant (P := fun read r => Place.start.after read = some r.place) ?_ [] rfl h
  intro read s t s' hplace htakes
  rw [Place.after_append, hplace, Option.bind_some, Place.after, htakes.place_next]
  rfl

/-- A token that is refused fits the place of the reader only beyond the limit on the nesting or
as a name of another domain. -/
theorem Refuses.place_next (h : Refuses r t e)
    (he : (∃ word expected span, e = .unexpectedToken word expected span) ∨
      ∃ span, e = .unbalancedParenthesis span) : r.place.next t.symbol = none := by
  cases h with
  | notBoolean phase symbol other => simp at he
  | tooDeep phase symbol full => simp at he
  | noOperand phase symbol =>
    rcases symbol with symbol | symbol <;> simp [place, phase, symbol, Phase.due, Place.next]
  | closedEarly phase symbol => simp [place, phase, symbol, Phase.due, Place.next]
  | noConnective phase symbol =>
    rcases symbol with ⟨name, symbol⟩ | symbol | symbol <;>
      simp [place, phase, symbol, Phase.due, Place.next]
  | notOpened phase symbol outermost =>
    simp [place, phase, symbol, outermost, Phase.due, Place.next]

end Reader

/-- Further tokens, any of which a text can have, make the symbols a sentence. -/
def Viable (symbols : List Symbol) : Prop :=
  ∃ rest, (∀ name ∈ names rest, IsIdentifier name) ∧ Sentence (symbols ++ rest)

def Incomplete (symbols : List Symbol) : Prop :=
  ∃ rest, rest ≠ [] ∧ (∀ name ∈ names rest, IsIdentifier name) ∧ Sentence (symbols ++ rest)

theorem Incomplete.viable {symbols : List Symbol} (h : Incomplete symbols) : Viable symbols := by
  obtain ⟨rest, -, hnames, hsentence⟩ := h
  exact ⟨rest, hnames, hsentence⟩

/-- After an operand the open parentheses need only be closed. -/
theorem sentence_of_closings (outer : List (Pending × Nat)) (pending : Pending)
    (p : Phrase .unary) :
    Sentence (openSymbols outer ++ pending.symbols ++ p.symbols ++
      List.replicate outer.length .closing) := by
  induction outer generalizing pending p with
  | nil =>
    refine ⟨pending.disjunction p, ?_⟩
    simp [openSymbols]
  | cons innermost outer ih =>
    obtain ⟨before, negations⟩ := innermost
    have houter := ih before ((Phrase.plain (.group (pending.disjunction p))).negated negations)
    simpa [openSymbols, Phrase.symbols, List.replicate_succ] using houter

namespace Reader

variable {r : Reader} {read : List Symbol}

theorem Spells.incomplete_of_due (h : r.Spells read) {negations : Nat}
    (hphase : r.phase = .beforeOperand negations) : Incomplete read := by
  obtain ⟨outer, pending, last, -, hlast, rfl⟩ := h
  rw [hphase] at hlast
  obtain rfl : last = List.replicate negations .neg := hlast
  refine ⟨.ident "A" :: List.replicate outer.length .closing, List.cons_ne_nil _ _, ?_, ?_⟩
  · intro name hname
    obtain rfl : name = "A" := by simpa [names, Symbol.name?] using hname
    exact isIdentifier_letter
  · have hsentence := sentence_of_closings outer pending
      ((Phrase.plain (.name "A")).negated negations)
    simpa [Phrase.symbols] using hsentence

theorem Spells.sentence_of_operand (h : r.Spells read) {f : Formula}
    (hphase : r.phase = .afterOperand f) :
    Sentence (read ++ List.replicate r.frames.length .closing) := by
  obtain ⟨outer, pending, last, hframes, hlast, rfl⟩ := h
  rw [hphase] at hlast
  obtain ⟨p, rfl⟩ := hlast
  have hlength : outer.length = r.frames.length := by
    rw [← List.length_map (f := Prod.snd), hframes, List.length_map]
  rw [← hlength]
  exact sentence_of_closings outer pending p

theorem Spells.viable (h : r.Spells read) : Viable read := by
  cases hphase : r.phase with
  | beforeOperand negations => exact (h.incomplete_of_due hphase).viable
  | afterOperand f =>
    refine ⟨_, ?_, h.sentence_of_operand hphase⟩
    simp [names, Symbol.name?]

theorem Spells.incomplete_of_open (h : r.Spells read) {f : Formula}
    (hphase : r.phase = .afterOperand f) {frame : Frame} {frames : List Frame}
    (hframes : r.frames = frame :: frames) : Incomplete read := by
  refine ⟨_, ?_, ?_, h.sentence_of_operand hphase⟩
  · simp [hframes, List.replicate_succ]
  · simp [names, Symbol.name?]

end Reader

/-- What stands before the token at the span begins a sentence, and no sentence goes on with
the token. -/
def FirstOffending (found : List Token) (span : Span) : Prop :=
  ∃ before t after, found = before ++ t :: after ∧ t.span = span ∧
    Viable (before.map Token.symbol) ∧
    ∀ rest, ¬ Sentence (before.map Token.symbol ++ t.symbol :: rest)

def Closed (symbols : List Symbol) : Prop :=
  ∃ part, part <+: symbols ∧ part.count .opening < part.count .closing

/-- The parenthesis at the span is not closed, and every one that is opened after it is. -/
def InnermostOpen (found : List Token) (span : Span) : Prop :=
  ∃ before t after, found = before ++ t :: after ∧ t.span = span ∧ t.symbol = .opening ∧
    ¬ Closed (after.map Token.symbol) ∧
    ∀ inner u rest, after = inner ++ u :: rest → u.symbol = .opening →
      Closed (rest.map Token.symbol)

theorem InnermostOpen.exists_mem {found : List Token} {span : Span}
    (h : InnermostOpen found span) : ∃ t ∈ found, t.span = span ∧ t.symbol = .opening := by
  obtain ⟨before, t, after, rfl, hspan, hopening, -⟩ := h
  exact ⟨t, List.mem_append_right _ List.mem_cons_self, hspan, hopening⟩

/-- Open parentheses and pending negations exceed the limit first at the token at the span. -/
def FirstBeyond (limit : Nat) (found : List Token) (span : Span) : Prop :=
  ∃ before t after, found = before ++ t :: after ∧ t.span = span ∧
    (Level.start.after ((before ++ [t]).map Token.symbol)).depth = limit + 1 ∧
    ∀ part, part <+: before → (Level.start.after (part.map Token.symbol)).depth ≤ limit

theorem Matched.not_closed {symbols : List Symbol} (h : Matched symbols) : ¬ Closed symbols := by
  rintro ⟨part, hpart, hcount⟩
  have htake := h.2 part.length
  rw [← List.prefix_iff_eq_take.mp hpart] at htake
  omega

/-- Of matched symbols those after an opened parenthesis close it. -/
theorem Matched.closed_after {inner rest : List Symbol}
    (h : Matched (inner ++ .opening :: rest)) : Closed rest := by
  refine ⟨rest, List.prefix_refl _, ?_⟩
  have hfirst : Symbol.opening ≠ .closing := by decide
  have htotal := h.1
  have hinner := h.2 inner.length
  rw [List.take_left] at hinner
  rw [List.count_append, List.count_append, List.count_cons_self,
    List.count_cons_of_ne hfirst] at htotal
  omega

theorem LeavesOpen.innermostOpen {read : List Token} {span : Span} {spans : List Span}
    (h : LeavesOpen read (span :: spans)) : InnermostOpen read span := by
  cases h with
  | @opened before after t spans outer symbol matched =>
    refine ⟨before, t, after, rfl, rfl, symbol, matched.not_closed, ?_⟩
    rintro inner u rest rfl hu
    rw [List.map_append, List.map_cons, hu] at matched
    exact matched.closed_after

namespace Reader

variable {r : Reader} {t : Token} {e : ConditionError} {table : VariableTable}
  {found before after : List Token}

theorem level_of_run (h : (start table).run before = (r, none)) :
    r.level = Level.start.after (before.map Token.symbol) := by
  refine run_invariant (P := fun read r => r.level = Level.start.after read) ?_ [] rfl h
  intro read s t s' hlevel htakes
  rw [htakes.level_eq, hlevel, Level.after_append]
  rfl

/-- A negation or a parenthesis where an operand is due goes one level deeper. -/
theorem depth_next {negations : Nat} (hphase : r.phase = .beforeOperand negations)
    (ht : t.symbol = .neg ∨ t.symbol = .opening) :
    (r.level.next t.symbol).depth = r.depth + 1 := by
  have hpending : r.pendingNegations = negations := by
    unfold pendingNegations
    rw [hphase]
  rw [depth_eq_level]
  unfold level
  rw [hpending]
  rcases ht with ht | ht
  · have hhere := Level.depth_eq (r.frames.map Frame.negations) negations
    have hnext := Level.depth_eq (r.frames.map Frame.negations) (negations + 1)
    rw [ht]
    show Level.depth ⟨r.frames.map Frame.negations, negations + 1⟩ = _
    omega
  · rw [ht]
    exact Level.depth_cons negations (r.frames.map Frame.negations)

theorem firstBeyond_of_full (hrun : (start table).run before = (r, none)) {negations : Nat}
    (hphase : r.phase = .beforeOperand negations) (ht : t.symbol = .neg ∨ t.symbol = .opening)
    (hfull : maxNesting ≤ r.depth) : FirstBeyond maxNesting (before ++ t :: after) t.span := by
  have hpeak := peak_le_of_run (Nat.zero_le _) hrun
  have hwithin : ∀ part, part <+: before →
      (Level.start.after (part.map Token.symbol)).depth ≤ maxNesting := by
    intro part hpart
    exact (Level.peak_le_iff _ _ _).mp hpeak _ (hpart.map Token.symbol)
  refine ⟨before, t, after, rfl, rfl, ?_, hwithin⟩
  have hhere := hwithin before (List.prefix_refl _)
  rw [← level_of_run hrun, ← depth_eq_level] at hhere
  rw [List.map_append, Level.after_append, ← level_of_run hrun]
  show (r.level.next t.symbol).depth = maxNesting + 1
  rw [depth_next hphase ht]
  omega

theorem firstOffending_of_refuses (hrun : (start table).run before = (r, none))
    (hrefuses : Refuses r t e)
    (he : (∃ word expected span, e = .unexpectedToken word expected span) ∨
      ∃ span, e = .unbalancedParenthesis span) :
    FirstOffending (before ++ t :: after) t.span := by
  refine ⟨before, t, after, rfl, rfl, (spells_of_run hrun).viable, ?_⟩
  intro rest hsentence
  have hplace := hsentence.after_place
  rw [Place.after_append, place_of_run hrun, Option.bind_some, Place.after,
    hrefuses.place_next he] at hplace
  cases hplace

end Reader

namespace Stops

variable {table : VariableTable} {found : List Token} {stop : Nat} {r : Reader} {span : Span}

theorem unexpectedToken {word : String} {expected : Expectation}
    (h : Stops table found stop r (.unexpectedToken word expected span)) :
    FirstOffending found span := by
  cases h with
  | refused split run refuses =>
    obtain rfl : span = _ := refuses.span_eq
    rw [split]
    exact Reader.firstOffending_of_refuses run refuses (.inl ⟨_, _, _, rfl⟩)
  | ended run finish =>
    rcases endsEarly_of_finish run finish with ⟨x, s, heq⟩ | ⟨t, ht, hopening, heq⟩ <;> cases heq

theorem unexpectedEnd {expected : Expectation}
    (h : Stops table found stop r (.unexpectedEnd expected span)) :
    span = ⟨stop, stop⟩ ∧ Incomplete (found.map Token.symbol) ∧
      ¬ Sentence (found.map Token.symbol) := by
  cases h with
  | refused split run refuses => cases refuses
  | ended run finish =>
    rcases Reader.finish_eq_error finish with
      ⟨negations, hphase, heq⟩ | ⟨f, frame, frames, hphase, hframes, heq⟩
    · cases heq
      refine ⟨rfl, (Reader.spells_of_run run).incomplete_of_due hphase, fun hsentence => ?_⟩
      have hplace := (Reader.place_of_run run).symm.trans hsentence.after_place
      simp [Reader.place, hphase, Phase.due] at hplace
    · cases heq

theorem unbalancedParenthesis (h : Stops table found stop r (.unbalancedParenthesis span)) :
    ((∃ t ∈ found, t.span = span ∧ t.symbol = .closing) ∧ FirstOffending found span) ∨
      Incomplete (found.map Token.symbol) ∧ InnermostOpen found span := by
  cases h with
  | @refused before after t r e split run refuses =>
    obtain rfl : span = t.span := refuses.span_eq
    have hsymbol : t.symbol = .closing := by
      generalize t.span = span at refuses
      cases refuses with
      | closedEarly phase symbol => exact symbol
      | notOpened phase symbol outermost => exact symbol
    refine .inl ⟨⟨t, ?_, rfl, hsymbol⟩, ?_⟩
    · rw [split]
      exact List.mem_append_right _ List.mem_cons_self
    · rw [split]
      exact Reader.firstOffending_of_refuses run refuses (.inr ⟨_, rfl⟩)
  | ended run finish =>
    rcases Reader.finish_eq_error finish with
      ⟨negations, hphase, heq⟩ | ⟨f, frame, frames, hphase, hframes, heq⟩
    · cases heq
    · cases heq
      have hopen := Reader.leavesOpen_of_run run
      rw [hframes, List.map_cons] at hopen
      exact .inr ⟨(Reader.spells_of_run run).incomplete_of_open hphase hframes,
        hopen.innermostOpen⟩

theorem tooDeep {limit : Nat} (h : Stops table found stop r (.tooDeep limit span)) :
    limit = maxNesting ∧ FirstBeyond maxNesting found span := by
  cases h with
  | refused split run refuses =>
    obtain rfl : span = _ := refuses.span_eq
    rw [split]
    generalize hspan : Token.span _ = span at refuses
    cases refuses with
    | tooDeep phase symbol full =>
      exact ⟨rfl, Reader.firstBeyond_of_full run phase symbol full⟩
  | ended run finish =>
    rcases endsEarly_of_finish run finish with ⟨x, s, heq⟩ | ⟨t, ht, hopening, heq⟩ <;> cases heq

end Stops

/-- Where a condition text is refused, its error tells the place. An unexpected token and a
parenthesis closed in a wrong place are the first ones with which no sentence goes on. Where a text
ends too early it begins a sentence without being one, and a parenthesis that is reported as not
closed is the innermost one. A text that is nested too deep is reported at the first token where
open parentheses and pending negations are more than 64. -/
theorem error_at_first_offending_token (table : VariableTable) (text : String)
    (found : List Token) (e : ConditionError) (hfound : tokens text = .ok found)
    (he : (parse table text).result = .error e) :
    (found.map Token.span).Nodup ∧
    (∀ word expected span, e = .unexpectedToken word expected span → FirstOffending found span) ∧
    (∀ span, e = .unbalancedParenthesis span →
      ∃ t ∈ found, t.span = span ∧ (t.symbol = .closing ∨ t.symbol = .opening)) ∧
    (∀ span, e = .unbalancedParenthesis span →
      (∃ t ∈ found, t.span = span ∧ t.symbol = .closing) → FirstOffending found span) ∧
    (∀ expected span, e = .unexpectedEnd expected span →
      span = ⟨text.utf8ByteSize, text.utf8ByteSize⟩ ∧ Incomplete (found.map Token.symbol) ∧
        ¬ Sentence (found.map Token.symbol)) ∧
    (∀ span, e = .unbalancedParenthesis span →
      (∃ t ∈ found, t.span = span ∧ t.symbol = .opening) →
        Incomplete (found.map Token.symbol) ∧ InnermostOpen found span) ∧
    ∀ limit span, e = .tooDeep limit span → limit = 64 ∧ FirstBeyond 64 found span := by
  obtain ⟨r, hstops, -⟩ := stops_of_parse hfound he
  have hspans := nodup_spans hfound
  refine ⟨hspans, ?_, ?_, ?_, ?_, ?_, ?_⟩
  · rintro word expected span rfl
    exact hstops.unexpectedToken
  · rintro span rfl
    rcases hstops.unbalancedParenthesis with ⟨⟨t, ht, hspan, hclosing⟩, -⟩ | ⟨-, hopen⟩
    · exact ⟨t, ht, hspan, .inl hclosing⟩
    · obtain ⟨t, ht, hspan, hopening⟩ := hopen.exists_mem
      exact ⟨t, ht, hspan, .inr hopening⟩
  · rintro span rfl ⟨t, ht, hspan, hclosing⟩
    rcases hstops.unbalancedParenthesis with ⟨-, hoffending⟩ | ⟨-, hopen⟩
    · exact hoffending
    · obtain ⟨u, hu, huspan, hopening⟩ := hopen.exists_mem
      rw [List.inj_on_of_nodup_map hspans ht hu (hspan.trans huspan.symm), hopening] at hclosing
      cases hclosing
  · rintro expected span rfl
    exact hstops.unexpectedEnd
  · rintro span rfl ⟨t, ht, hspan, hopening⟩
    rcases hstops.unbalancedParenthesis with ⟨⟨u, hu, huspan, hclosing⟩, -⟩ | hopen
    · rw [List.inj_on_of_nodup_map hspans hu ht (huspan.trans hspan.symm), hopening] at hclosing
      cases hclosing
    · exact hopen
  · rintro limit span rfl
    exact hstops.tooDeep

/-- The second parenthesis of one text is left open; the other text has a connective where an
operand is due. -/
theorem error_at_first_offending_token_on_two_texts :
    (∃ found, tokens "(A) & !(B" = .ok found ∧
      (parse .empty "(A) & !(B").result = .error (.unbalancedParenthesis ⟨7, 8⟩) ∧
      Incomplete (found.map Token.symbol) ∧ InnermostOpen found ⟨7, 8⟩) ∧
    ∃ found, tokens "A ET | B" = .ok found ∧
      (parse .empty "A ET | B").result = .error (.unexpectedToken "|" .operand ⟨5, 6⟩) ∧
      FirstOffending found ⟨5, 6⟩ := by
  constructor
  · have hfound : tokens "(A) & !(B" = .ok [⟨.opening, ['('], 0⟩, ⟨.ident "A", ['A'], 1⟩,
        ⟨.closing, [')'], 2⟩, ⟨.conj, ['&'], 4⟩, ⟨.neg, ['!'], 6⟩, ⟨.opening, ['('], 7⟩,
        ⟨.ident "B", ['B'], 8⟩] := by decide +kernel
    have hresult : (parse .empty "(A) & !(B").result = .error (.unbalancedParenthesis ⟨7, 8⟩) := by
      rw [parse_of_tokens hfound (List.cons_ne_nil _ _)]
      rfl
    obtain ⟨-, -, -, -, -, hopen, -⟩ :=
      error_at_first_offending_token .empty "(A) & !(B" _ _ hfound hresult
    exact ⟨_, hfound, hresult, hopen ⟨7, 8⟩ rfl ⟨⟨.opening, ['('], 7⟩, by decide, rfl, rfl⟩⟩
  · have hfound : tokens "A ET | B" = .ok [⟨.ident "A", ['A'], 0⟩, ⟨.conj, ['E', 'T'], 2⟩,
        ⟨.disj, ['|'], 5⟩, ⟨.ident "B", ['B'], 7⟩] := by decide +kernel
    have hresult : (parse .empty "A ET | B").result =
        .error (.unexpectedToken "|" .operand ⟨5, 6⟩) := by
      rw [parse_of_tokens hfound (List.cons_ne_nil _ _)]
      rfl
    obtain ⟨-, hoffending, -⟩ :=
      error_at_first_offending_token .empty "A ET | B" _ _ hfound hresult
    exact ⟨_, hfound, hresult, hoffending _ _ _ rfl⟩

end GuardedMachines.Condition
