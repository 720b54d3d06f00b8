import GuardedMachines.Proofs.Condition.Lexing
import GuardedMachines.Proofs.Condition.Reading

/-!
Which conditions are accepted. A text is accepted if it writes a phrase of the
grammar that keeps within the limit on the nesting and names no variable of
another domain, and then the formula has the value of that phrase over the
table as the reading leaves it. A blank text is the absent condition, and every
other text is refused.
-/

namespace GuardedMachines.Condition

/-- The text is a condition over the table with the phrase as its derivation. -/
structure Conforms (table : VariableTable) (limit : Nat) (text : String)
    (p : Phrase .disjunction) : Prop where
  written : Written text.toList p.symbols
  within : ∀ before, before <+: p.symbols → (Level.start.after before).depth ≤ limit
  boolean : ∀ name, .ident name ∈ p.symbols → table.AdmitsBoolean name

variable {table : VariableTable} {text : String} {p : Phrase .disjunction}

theorem conforms_iff {limit : Nat} :
    Conforms table limit text p ↔ Written text.toList p.symbols ∧ p.nesting ≤ limit ∧
      ∀ name ∈ names p.symbols, table.AdmitsBoolean name := by
  have hdepth : p.nesting ≤ limit ↔
      ∀ before, before <+: p.symbols → (Level.start.after before).depth ≤ limit := by
    rw [← p.deepest_symbols]
    exact Level.peak_le_iff Level.start p.symbols limit
  rw [hdepth]
  constructor
  · intro h
    exact ⟨h.written, h.within, fun name hname => h.boolean name (mem_names.mp hname)⟩
  · intro ⟨hwritten, hwithin, hboolean⟩
    exact ⟨hwritten, hwithin, fun name hname => hboolean name (mem_names.mpr hname)⟩

theorem parse_of_tokens {found : List Token} (hfound : tokens text = .ok found)
    (hne : found ≠ []) : parse table text = parseTokens table found text.utf8ByteSize := by
  unfold parse
  rw [hfound]
  cases found with
  | nil => exact absurd rfl hne
  | cons t rest => rfl

/-- The tokens of a text that writes a phrase are all that its parsing depends on. -/
theorem parse_of_written (h : Written text.toList p.symbols) (table : VariableTable) :
    ∃ found, found.map Token.symbol = p.symbols ∧
      parse table text = parseTokens table found text.utf8ByteSize := by
  obtain ⟨found, hfound, hsymbols⟩ := written_iff_tokens.mp h
  refine ⟨found, hsymbols, parse_of_tokens hfound ?_⟩
  intro hnil
  apply p.symbols_ne_nil
  rw [← hsymbols, hnil, List.map_nil]

/-- A text that writes a phrase within the limits is read as the formula of the phrase. -/
theorem parse_of_conforms (h : Conforms table maxNesting text p) :
    parse table text =
      ⟨.ok (some (p.formula (table.declare (names p.symbols)).naming)),
        table.declare (names p.symbols)⟩ := by
  obtain ⟨hwritten, hnesting, hadmits⟩ := conforms_iff.mp h
  obtain ⟨found, hsymbols, hparse⟩ := parse_of_written hwritten table
  have hroom : Reader.depth ⟨table, [], .none, .beforeOperand 0⟩ + p.nesting ≤ maxNesting := by
    show 0 + p.nesting ≤ maxNesting
    omega
  have hrun := Reader.run_phrase _ p ⟨rfl, fun _ => rfl⟩ (Named.of_admits hadmits) hroom hsymbols
  rw [hparse, parseTokens, Reader.start, hrun, Operands.none_followedBy]
  rfl

/-- A text that writes a phrase beyond the limit is refused for that. -/
theorem parse_of_deep (hwritten : Written text.toList p.symbols) (hdeep : maxNesting < p.nesting)
    (hadmits : ∀ name ∈ names p.symbols, table.AdmitsBoolean name) :
    ∃ span, (parse table text).result = .error (.tooDeep maxNesting span) := by
  obtain ⟨found, hsymbols, hparse⟩ := parse_of_written hwritten table
  have hdeep' : maxNesting <
      Reader.depth ⟨table, [], .none, .beforeOperand 0⟩ + p.nesting := by
    show maxNesting < 0 + p.nesting
    omega
  obtain ⟨r, span, hrun⟩ := Reader.run_tooDeep p ⟨rfl, fun _ => rfl⟩ hadmits (Nat.zero_le _)
    hdeep' hsymbols
  refine ⟨span, ?_⟩
  rw [hparse, parseTokens, Reader.start, hrun]

/-- Tokens that are read to the end come from a phrase within the limits. -/
theorem phrase_of_parseTokens {found : List Token} {stop : Nat} {answer : Option Formula}
    (h : (parseTokens table found stop).result = .ok answer) :
    ∃ p : Phrase .disjunction, p.symbols = found.map Token.symbol ∧ p.nesting ≤ maxNesting ∧
      ∀ name ∈ names p.symbols, table.AdmitsBoolean name := by
  unfold parseTokens at h
  cases hrun : (Reader.start table).run found with
  | mk r refusal =>
    rw [hrun] at h
    cases refusal with
    | some e => cases h
    | none =>
      dsimp only at h
      cases hfinish : r.finish stop with
      | error e =>
        rw [hfinish] at h
        cases h
      | ok f =>
        obtain ⟨p, hp⟩ := (Reader.spells_of_run hrun).sentence hfinish
        have hnesting : deepest p.symbols ≤ maxNesting := by
          rw [hp]
          exact Reader.peak_le_of_run (Nat.zero_le _) hrun
        rw [p.deepest_symbols] at hnesting
        refine ⟨p, hp, hnesting, ?_⟩
        rw [hp]
        exact (Reader.table_after_run hrun).2

theorem parse_of_blank (h : ∀ c ∈ text.toList, isBlank c = true) :
    parse table text = ⟨.ok none, table⟩ := by
  obtain ⟨found, hfound, hnil⟩ := written_iff_tokens.mp (written_nil_iff.mpr h)
  obtain rfl := List.map_eq_nil_iff.mp hnil
  unfold parse
  rw [hfound]

/-- What is neither blank nor refused conforms. -/
theorem conforms_of_parse {answer : Option Formula} (h : (parse table text).result = .ok answer)
    (hblank : ¬ ∀ c ∈ text.toList, isBlank c = true) : ∃ p, Conforms table maxNesting text p := by
  cases hfound : tokens text with
  | error e =>
    unfold parse at h
    rw [hfound] at h
    cases h
  | ok found =>
    have hne : found ≠ [] := by
      intro hnil
      apply hblank
      apply written_nil_iff.mp
      apply written_iff_tokens.mpr
      exact ⟨found, hfound, by rw [hnil, List.map_nil]⟩
    rw [parse_of_tokens hfound hne] at h
    obtain ⟨p, hsymbols, hnesting, hadmits⟩ := phrase_of_parseTokens h
    have hwritten : Written text.toList p.symbols :=
      written_iff_tokens.mpr ⟨found, hfound, hsymbols.symm⟩
    exact ⟨p, conforms_iff.mpr ⟨hwritten, hnesting, hadmits⟩⟩

theorem parse_eq_none_iff :
    (parse table text).result = .ok none ↔ ∀ c ∈ text.toList, isBlank c = true := by
  constructor
  · intro h
    apply Classical.byContradiction
    intro hblank
    obtain ⟨p, hp⟩ := conforms_of_parse h hblank
    rw [parse_of_conforms hp] at h
    cases h
  · intro h
    rw [parse_of_blank h]

theorem parse_eq_some_iff :
    (∃ f, (parse table text).result = .ok (some f)) ↔ ∃ p, Conforms table maxNesting text p := by
  constructor
  · intro ⟨f, hf⟩
    apply conforms_of_parse hf
    intro hblank
    rw [parse_of_blank hblank] at hf
    cases hf
  · intro ⟨p, hp⟩
    rw [parse_of_conforms hp]
    exact ⟨_, rfl⟩

/-- Every derivation of an accepted text is within the limits, since the text fixes its symbols. -/
theorem conforms_of_written {f : Formula} (h : (parse table text).result = .ok (some f))
    (hwritten : Written text.toList p.symbols) : Conforms table maxNesting text p := by
  obtain ⟨q, hq⟩ := parse_eq_some_iff.mp ⟨f, h⟩
  have hsymbols := hq.written.unique hwritten
  constructor
  · exact hwritten
  · rw [← hsymbols]
    exact hq.within
  · rw [← hsymbols]
    exact hq.boolean

/-- The formula of a phrase, over the table that knows the names of the phrase. -/
theorem eval_formula_naming (table : VariableTable) (p : Phrase .disjunction)
    (valuation : Valuation) :
    (p.formula (table.declare (names p.symbols)).naming).eval valuation =
      p.holds fun name => ((table.declare (names p.symbols)).get? name).any valuation.get := by
  unfold Formula.eval
  rw [p.holds_formula]
  apply p.holds_congr
  intro name hname
  rw [VariableTable.get?_declare_naming hname]
  rfl

/-- The parser accepts its grammar and nothing else. -/
theorem accepted_iff_conforms (table : VariableTable) (text : String) :
    ((parse table text).result = .ok none ↔ ∀ c ∈ text.toList, isBlank c = true) ∧
    ((∃ f, (parse table text).result = .ok (some f)) ↔ ∃ p, Conforms table 64 text p) ∧
    (∀ (f : Formula) (p : Phrase .disjunction), (parse table text).result = .ok (some f) →
      Written text.toList p.symbols →
      (∀ name, .ident name ∈ p.symbols →
        ∃ v, (parse table text).table.get? name = some v ∧ v.isBoolean = true) ∧
      (∀ name v, table.get? name = some v → (parse table text).table.get? name = some v) ∧
      ∀ valuation, f.eval valuation =
        p.holds fun name => ((parse table text).table.get? name).any valuation.get) ∧
    ((∃ e, (parse table text).result = .error e) ↔
      ¬ (∀ c ∈ text.toList, isBlank c = true) ∧ ¬ ∃ p, Conforms table 64 text p) := by
  have hnone : (parse table text).result = .ok none ↔ ∀ c ∈ text.toList, isBlank c = true :=
    parse_eq_none_iff
  have hsome : (∃ f, (parse table text).result = .ok (some f)) ↔
      ∃ p, Conforms table 64 text p := parse_eq_some_iff
  refine ⟨hnone, hsome, ?_, ?_⟩
  · intro f p hf hwritten
    have hp := conforms_of_written hf hwritten
    rw [parse_of_conforms hp] at hf ⊢
    cases hf
    refine ⟨?_, ?_, eval_formula_naming table p⟩
    · intro name hname
      obtain ⟨v, hv, hboolean⟩ := VariableTable.exists_get?_declare (mem_names.mpr hname)
      exact ⟨v, hv, hboolean (hp.boolean name hname)⟩
    · intro name v hv
      exact VariableTable.get?_declare_of_some _ hv
  · rw [← hnone, ← hsome]
    cases (parse table text).result with
    | error e => simp
    | ok answer => cases answer <;> simp

theorem accepted_negated_disjunct :
    Conforms .empty 64 "!A ou B" (.disj (.disjunct (.conjunct (.neg (.plain (.name "A")))))
      (.conjunct (.plain (.name "B")))) ∧
    ∃ f, (parse .empty "!A ou B").result = .ok (some f) ∧ ∀ valuation, f.eval valuation =
      (!((parse .empty "!A ou B").table.get? "A").any valuation.get ||
        ((parse .empty "!A ou B").table.get? "B").any valuation.get) := by
  have hwritten : Written "!A ou B".toList [.neg, .ident "A", .disj, .ident "B"] :=
    written_iff_tokens.mpr ⟨[⟨.neg, ['!'], 0⟩, ⟨.ident "A", ['A'], 1⟩, ⟨.disj, ['o', 'u'], 3⟩,
      ⟨.ident "B", ['B'], 6⟩], by decide +kernel, rfl⟩
  have hconforms : Conforms .empty 64 "!A ou B" (.disj (.disjunct (.conjunct (.neg (.plain
      (.name "A"))))) (.conjunct (.plain (.name "B")))) := by
    refine conforms_iff.mpr ⟨hwritten, by decide, ?_⟩
    intro name _ v hv
    cases hv
  obtain ⟨f, hf⟩ := (accepted_iff_conforms .empty "!A ou B").2.1.mpr ⟨_, hconforms⟩
  refine ⟨hconforms, f, hf, ?_⟩
  exact ((accepted_iff_conforms .empty "!A ou B").2.2.1 f _ hf hconforms.written).2.2

end GuardedMachines.Condition
