import GuardedMachines.Proofs.Condition.Acceptance

/-!
Canonical texts are read back, as far as the limit on the nesting allows. Every
formula over identifiers has a phrase of the grammar that its text writes, with
the nesting of the formula and with the formula as its meaning up to grouping.
So the text is read as a formula that differs in grouping only, unless the
formula is nested too deep. A negation is written with one or two pairs of
parentheses, which count toward the nesting: a condition may be accepted whose
canonical text is not.
-/

namespace GuardedMachines

namespace Formula

def marks : Formula → Nat
  | disj _ _ => 1
  | _ => 0

/-- Open parentheses and pending negations where the canonical text is deepest. -/
def nest : Formula → Nat
  | atom _ => 0
  | neg (atom _) => 2
  | neg f => 3 + f.nest
  | conj p q => max (p.nest + p.marks) (q.nest + q.marks)
  | disj p q => max p.nest q.nest

end Formula

namespace Condition

theorem endsWord_blank (rest : List Char) : EndsWord (' ' :: rest) := by
  intro c hc
  cases hc
  decide

theorem endsWord_closing (rest : List Char) : EndsWord (')' :: rest) := by
  intro c hc
  cases hc
  decide

namespace Phrase

variable (ν : String → Variable)

/-- Two chains of conjuncts, one after the other, are one chain. -/
theorem exists_conj (p : Phrase .conjunction) {k : Rank} (q : Phrase k) (hk : k = .conjunction) :
    ∃ r : Phrase .conjunction, r.symbols = p.symbols ++ .conj :: q.symbols ∧
      r.nesting = max p.nesting q.nesting ∧
      (r.formula ν).Regrouped ((p.formula ν).conj (q.formula ν)) := by
  -- Chains grow at their end, so the induction is on the second one.
  induction q with
  | conjunct q => exact ⟨p.conj q, rfl, rfl, p.formula_conj ν q⟩
  | conj q u ih =>
    obtain ⟨r, hsymbols, hnesting, hregrouped⟩ := ih rfl
    refine ⟨r.conj u, ?_, ?_, ?_⟩
    · simp [symbols, hsymbols]
    · rw [nesting, nesting, hnesting]
      omega
    · apply (r.formula_conj ν u).trans
      apply (Formula.Regrouped.conj hregrouped (.refl _)).trans
      apply (Formula.Regrouped.conj_assoc _ _ _).trans
      exact .conj (.refl _) (q.formula_conj ν u).symm
  | name n => cases hk
  | group q => cases hk
  | plain q => cases hk
  | neg q => cases hk
  | disjunct q => cases hk
  | disj q u => cases hk

/-- Two chains of disjuncts, one after the other, are one chain. -/
theorem exists_disj (p : Phrase .disjunction) {k : Rank} (q : Phrase k) (hk : k = .disjunction) :
    ∃ r : Phrase .disjunction, r.symbols = p.symbols ++ .disj :: q.symbols ∧
      r.nesting = max p.nesting q.nesting ∧
      (r.formula ν).Regrouped ((p.formula ν).disj (q.formula ν)) := by
  induction q with
  | disjunct q => exact ⟨p.disj q, rfl, rfl, p.formula_disj ν q⟩
  | disj q u ih =>
    obtain ⟨r, hsymbols, hnesting, hregrouped⟩ := ih rfl
    refine ⟨r.disj u, ?_, ?_, ?_⟩
    · simp [symbols, hsymbols]
    · rw [nesting, nesting, hnesting]
      omega
    · apply (r.formula_disj ν u).trans
      apply (Formula.Regrouped.disj hregrouped (.refl _)).trans
      apply (Formula.Regrouped.disj_assoc _ _ _).trans
      exact .disj (.refl _) (q.formula_disj ν u).symm
  | name n => cases hk
  | group q => cases hk
  | plain q => cases hk
  | neg q => cases hk
  | conjunct q => cases hk
  | conj q u => cases hk

end Phrase

/-- A word before a blank. -/
theorem Written.keyword {word rest : List Char} {symbol : Symbol} {symbols : List Symbol}
    (hword : Symbol.ofWord word = symbol) (hne : word ≠ [])
    (hchars : ∀ c ∈ word, isWordChar c = true) (hrest : Written rest symbols) :
    Written (word ++ ' ' :: rest) (symbol :: symbols) := by
  rw [← hword]
  exact .word hne hchars (endsWord_blank rest) (.blank rfl hrest)

/-- The phrase is how the formula is written: the characters write its symbols, it has the
nesting, and it is read as the formula up to grouping. -/
structure Renders (ν : String → Variable) (chars : List Char) (nesting : Nat) (f : Formula)
    {k : Rank} (p : Phrase k) : Prop where
  writes : ∀ {rest symbols}, EndsWord rest → Written rest symbols →
    Written (chars ++ rest) (p.symbols ++ symbols)
  nesting_eq : p.nesting = nesting
  regrouped : (p.formula ν).Regrouped f

namespace Renders

variable {ν : String → Variable} {chars chars' : List Char} {n m : Nat} {f g : Formula}

theorem atom {v : Variable} (hname : IsIdentifier v.name) (hν : ν v.name = v) :
    Renders ν v.name.toList 0 (.atom v) (.name v.name) where
  writes hends hrest := by
    show Written _ (.ident v.name :: _)
    rw [← hname.ofWord]
    exact .word hname.nonempty hname.chars hends hrest
  nesting_eq := rfl
  regrouped := by
    show Formula.Regrouped (.atom (ν v.name)) (.atom v)
    rw [hν]
    exact .refl _

theorem group {p : Phrase .disjunction} (h : Renders ν chars n f p) :
    Renders ν (Spelling.parenthesized chars) (n + 1) f p.group where
  writes {rest symbols} hends hrest := by
    have hinner := h.writes (endsWord_closing rest) (.mark rfl hrest)
    have hwhole : Written ('(' :: (chars ++ ')' :: rest))
        (.opening :: (p.symbols ++ .closing :: symbols)) := .mark rfl hinner
    simpa [Spelling.parenthesized, Phrase.symbols] using hwhole
  nesting_eq := by rw [Phrase.nesting, h.nesting_eq]
  regrouped := h.regrouped

theorem plain {p : Phrase .atom} (h : Renders ν chars n f p) : Renders ν chars n f p.plain :=
  ⟨h.writes, h.nesting_eq, h.regrouped⟩

theorem conjunct {p : Phrase .unary} (h : Renders ν chars n f p) :
    Renders ν chars n f p.conjunct :=
  ⟨h.writes, h.nesting_eq, h.regrouped⟩

theorem disjunct {p : Phrase .conjunction} (h : Renders ν chars n f p) :
    Renders ν chars n f p.disjunct :=
  ⟨h.writes, h.nesting_eq, h.regrouped⟩

theorem neg {p : Phrase .unary} (h : Renders ν chars n f p) :
    Renders ν (Spelling.neg ++ ' ' :: chars) (n + 1) f.neg p.neg where
  writes hends hrest := by
    have hword := @Written.keyword Spelling.neg _ .neg _ rfl (by decide)
      (List.all_eq_true.mp rfl) (h.writes hends hrest)
    simpa [Phrase.symbols] using hword
  nesting_eq := by rw [Phrase.nesting, h.nesting_eq]
  regrouped := by
    rw [p.formula_neg]
    exact h.regrouped.neg

/-- Two written operands with a connective between them. -/
theorem connected {word : List Char} {symbol : Symbol} {k l j : Rank} {p : Phrase k}
    {q : Phrase l} {r : Phrase j} {h : Formula} (hp : Renders ν chars n f p)
    (hq : Renders ν chars' m g q) (hword : Symbol.ofWord word = symbol) (hne : word ≠ [])
    (hchars : ∀ c ∈ word, isWordChar c = true)
    (hsymbols : r.symbols = p.symbols ++ symbol :: q.symbols)
    (hnesting : r.nesting = max p.nesting q.nesting) (hregrouped : (r.formula ν).Regrouped h) :
    Renders ν (chars ++ Spelling.spaced word ++ chars') (max n m) h r where
  writes hends hrest := by
    have hafter := Written.keyword hword hne hchars (hq.writes hends hrest)
    have hwhole := hp.writes (endsWord_blank _) (.blank rfl hafter)
    simpa [hsymbols, Spelling.spaced] using hwhole
  nesting_eq := by rw [hnesting, hp.nesting_eq, hq.nesting_eq]
  regrouped := hregrouped

theorem conj {p q : Phrase .conjunction} (hp : Renders ν chars n f p)
    (hq : Renders ν chars' m g q) : ∃ r : Phrase .conjunction,
      Renders ν (chars ++ Spelling.spaced Spelling.conj ++ chars') (max n m) (f.conj g) r := by
  obtain ⟨r, hsymbols, hnesting, hregrouped⟩ := p.exists_conj ν q rfl
  have hformula := hregrouped.trans (.conj hp.regrouped hq.regrouped)
  exact ⟨r, hp.connected hq rfl (by decide) (List.all_eq_true.mp rfl) hsymbols hnesting hformula⟩

theorem disj {p q : Phrase .disjunction} (hp : Renders ν chars n f p)
    (hq : Renders ν chars' m g q) : ∃ r : Phrase .disjunction,
      Renders ν (chars ++ Spelling.spaced Spelling.disj ++ chars') (max n m) (f.disj g) r := by
  obtain ⟨r, hsymbols, hnesting, hregrouped⟩ := p.exists_disj ν q rfl
  have hformula := hregrouped.trans (.disj hp.regrouped hq.regrouped)
  exact ⟨r, hp.connected hq rfl (by decide) (List.all_eq_true.mp rfl) hsymbols hnesting hformula⟩

end Renders

def NamedBy (ν : String → Variable) (f : Formula) : Prop :=
  ∀ v ∈ f.atoms, IsIdentifier v.name ∧ ν v.name = v

/-- The operand of a negation is an atom or a group. -/
theorem exists_belowNeg {ν : String → Variable} {f : Formula} {p : Phrase .disjunction}
    (hnamed : NamedBy ν f) (h : Renders ν f.render f.nest f p) :
    ∃ (u : Phrase .unary) (n : Nat), Renders ν (f.belowNeg f.render) n f u ∧
      f.neg.nest = n + 2 := by
  cases f with
  | atom v =>
    obtain ⟨hname, hν⟩ := hnamed v List.mem_cons_self
    exact ⟨_, 0, (Renders.atom hname hν).plain, rfl⟩
  | neg f => exact ⟨_, _, h.group.plain, Nat.add_comm _ _⟩
  | conj f g => exact ⟨_, _, h.group.plain, Nat.add_comm _ _⟩
  | disj f g => exact ⟨_, _, h.group.plain, Nat.add_comm _ _⟩

/-- A formula over identifiers is written as a phrase, below a conjunction and on its own. -/
theorem exists_renders (ν : String → Variable) (f : Formula) (hnamed : NamedBy ν f) :
    (∃ p : Phrase .conjunction, Renders ν (f.belowConj f.render) (f.nest + f.marks) f p) ∧
      ∃ p : Phrase .disjunction, Renders ν f.render f.nest f p := by
  induction f with
  | atom v =>
    obtain ⟨hname, hν⟩ := hnamed v List.mem_cons_self
    have hatom := (Renders.atom hname hν).plain.conjunct
    exact ⟨⟨_, hatom⟩, ⟨_, hatom.disjunct⟩⟩
  | neg f ih =>
    have hinner : NamedBy ν f := hnamed
    obtain ⟨-, p, hp⟩ := ih hinner
    obtain ⟨u, n, hu, hnest⟩ := exists_belowNeg hinner hp
    have hneg := hu.neg.conjunct.disjunct.group.plain.conjunct
    rw [← hnest] at hneg
    exact ⟨⟨_, hneg⟩, ⟨_, hneg.disjunct⟩⟩
  | conj f g ihf ihg =>
    obtain ⟨hf, hg⟩ := List.forall_mem_append.mp hnamed
    obtain ⟨⟨p, hp⟩, -⟩ := ihf hf
    obtain ⟨⟨q, hq⟩, -⟩ := ihg hg
    obtain ⟨r, hr⟩ := hp.conj hq
    exact ⟨⟨r, hr⟩, ⟨_, hr.disjunct⟩⟩
  | disj f g ihf ihg =>
    obtain ⟨hf, hg⟩ := List.forall_mem_append.mp hnamed
    obtain ⟨-, p, hp⟩ := ihf hf
    obtain ⟨-, q, hq⟩ := ihg hg
    obtain ⟨r, hr⟩ := hp.disj hq
    exact ⟨⟨_, hr.group.plain.conjunct⟩, ⟨r, hr⟩⟩

structure Readable (table : VariableTable) (v : Variable) : Prop where
  known : table.get? v.name = some v
  boolean : v.isBoolean = true
  identifier : IsIdentifier v.name

section Parse

variable {table : VariableTable} {f : Formula}

theorem Renders.written {ν : String → Variable} {chars : List Char} {n : Nat} {k : Rank}
    {p : Phrase k} (h : Renders ν chars n f p) : Written chars p.symbols := by
  have hends : EndsWord [] := nofun
  have hrender := h.writes hends .nil
  rwa [List.append_nil, List.append_nil] at hrender

theorem Renders.names_eq {chars : List Char} {n : Nat} {k : Rank} {p : Phrase k}
    (h : Renders table.naming chars n f p) : names p.symbols = f.atoms.map Variable.name := by
  have hatoms := h.regrouped.atoms_eq
  rw [p.atoms_formula] at hatoms
  rw [← hatoms, VariableTable.map_name_naming]

theorem namedBy_of_readable (h : ∀ v ∈ f.atoms, Readable table v) : NamedBy table.naming f := by
  intro v hv
  exact ⟨(h v hv).identifier, VariableTable.naming_of_get? (h v hv).known⟩

theorem admitsBoolean_of_readable
    (h : ∀ v ∈ f.atoms, Readable (table.declare (f.atoms.map Variable.name)) v) :
    ∀ name ∈ f.atoms.map Variable.name, table.AdmitsBoolean name := by
  intro name hname
  obtain ⟨v, hv, rfl⟩ := List.mem_map.mp hname
  rw [← VariableTable.admitsBoolean_declare (f.atoms.map Variable.name)]
  intro w hw
  rw [(h v hv).known] at hw
  cases hw
  exact (h v hv).boolean

/-- The phrase that the text of a formula writes, with the variables of the formula for its
names. -/
theorem exists_phrase_of_text
    (hreadable : ∀ v ∈ f.atoms, Readable (table.declare (f.atoms.map Variable.name)) v) :
    ∃ p : Phrase .disjunction, Written f.text.toList p.symbols ∧ p.nesting = f.nest ∧
      names p.symbols = f.atoms.map Variable.name ∧
      (p.formula (table.declare (names p.symbols)).naming).Regrouped f ∧
      ∀ name ∈ names p.symbols, table.AdmitsBoolean name := by
  obtain ⟨-, p, hp⟩ := exists_renders _ f (namedBy_of_readable hreadable)
  have hwritten : Written f.text.toList p.symbols := by
    rw [Formula.text, String.toList_ofList]
    exact hp.written
  refine ⟨p, hwritten, hp.nesting_eq, hp.names_eq, ?_⟩
  rw [hp.names_eq]
  exact ⟨hp.regrouped, admitsBoolean_of_readable hreadable⟩

/-- A text that writes a formula, nested within the limit, is read as the formula up to
grouping. -/
theorem parse_of_renders {text : String} {n : Nat} {p : Phrase .disjunction}
    (hreadable : ∀ v ∈ f.atoms, Readable (table.declare (f.atoms.map Variable.name)) v)
    (hp : Renders (table.declare (f.atoms.map Variable.name)).naming text.toList n f p)
    (hn : n ≤ maxNesting) :
    ∃ g, parse table text = ⟨.ok (some g), table.declare (f.atoms.map Variable.name)⟩ ∧
      g.Regrouped f := by
  have hconforms : Conforms table maxNesting text p := by
    apply conforms_iff.mpr
    rw [hp.nesting_eq, hp.names_eq]
    exact ⟨hp.written, hn, admitsBoolean_of_readable hreadable⟩
  refine ⟨_, ?_, hp.regrouped⟩
  rw [parse_of_conforms hconforms, hp.names_eq]

/-- A text within the limit is read back up to grouping. -/
theorem parse_text
    (hreadable : ∀ v ∈ f.atoms, Readable (table.declare (f.atoms.map Variable.name)) v)
    (hnest : f.nest ≤ maxNesting) :
    ∃ g, parse table f.text = ⟨.ok (some g), table.declare (f.atoms.map Variable.name)⟩ ∧
      g.Regrouped f := by
  obtain ⟨-, p, hp⟩ := exists_renders _ f (namedBy_of_readable hreadable)
  have htext : f.text.toList = f.render := String.toList_ofList
  rw [← htext] at hp
  exact parse_of_renders hreadable hp hnest

/-- A text beyond the limit is refused for that. -/
theorem parse_text_of_deep
    (hreadable : ∀ v ∈ f.atoms, Readable (table.declare (f.atoms.map Variable.name)) v)
    (hnest : maxNesting < f.nest) :
    ∃ span, (parse table f.text).result = .error (.tooDeep maxNesting span) := by
  obtain ⟨p, hwritten, hnesting, hnames, hregrouped, hadmits⟩ := exists_phrase_of_text hreadable
  exact parse_of_deep hwritten (by omega) hadmits

theorem declare_of_readable (h : ∀ v ∈ f.atoms, Readable table v) :
    table.declare (f.atoms.map Variable.name) = table := by
  apply VariableTable.declare_of_known
  intro name hname
  obtain ⟨v, hv, rfl⟩ := List.mem_map.mp hname
  exact ⟨v, (h v hv).known⟩

/-- An accepted condition has readable variables, and its table is the first one with their
names interned. -/
theorem readable_of_parse {text : String} (h : (parse table text).result = .ok (some f)) :
    (parse table text).table = table.declare (f.atoms.map Variable.name) ∧
      ∀ v ∈ f.atoms, Readable (parse table text).table v := by
  obtain ⟨p, hp⟩ := parse_eq_some_iff.mp ⟨f, h⟩
  rw [parse_of_conforms hp] at h ⊢
  cases h
  rw [p.atoms_formula]
  constructor
  · rw [VariableTable.map_name_naming]
  · intro v hv
    obtain ⟨name, hname, rfl⟩ := List.mem_map.mp hv
    have hknown : (table.declare (names p.symbols)).get? name =
        some ((table.declare (names p.symbols)).naming name) :=
      VariableTable.get?_declare_naming hname
    have hadmits := hp.boolean name (mem_names.mp hname)
    rw [← VariableTable.admitsBoolean_declare (names p.symbols)] at hadmits
    constructor
    · rw [VariableTable.name_naming]
      exact hknown
    · exact hadmits _ hknown
    · rw [VariableTable.name_naming]
      exact hp.written.isIdentifier (mem_names.mp hname)

/-- Over the table of an accepted condition, and over the one that it left, the text of the
condition interns the same names. -/
theorem declare_of_parse {text : String} {start : VariableTable}
    (h : (parse table text).result = .ok (some f))
    (hstart : start = table ∨ start = (parse table text).table) :
    start.declare (f.atoms.map Variable.name) = (parse table text).table := by
  obtain ⟨htable, hreadable⟩ := readable_of_parse h
  rcases hstart with hstart | hstart
  · rw [hstart, htable]
  · rw [hstart]
    exact declare_of_readable hreadable

end Parse

section Negations

variable {table : VariableTable} {name : String} {negations : Nat}

def negatedName (negations : Nat) (name : String) : String :=
  String.ofList (List.replicate negations '!' ++ name.toList)

theorem written_negatedName (hname : IsIdentifier name) :
    Written (negatedName negations name).toList
      (List.replicate negations .neg ++ [.ident name]) := by
  rw [negatedName, String.toList_ofList]
  induction negations with
  | zero =>
    have hends : EndsWord [] := nofun
    have hword := Written.word hname.nonempty hname.chars hends .nil
    rwa [hname.ofWord, List.append_nil] at hword
  | succ n ih =>
    rw [List.replicate_succ, List.replicate_succ]
    exact .mark rfl ih

theorem nesting_negated (negations : Nat) (p : Phrase .unary) :
    (p.negated negations).nesting = p.nesting + negations := by
  induction negations with
  | zero => rfl
  | succ n ih => exact congrArg (· + 1) ih

theorem formula_negated (ν : String → Variable) (negations : Nat) (p : Phrase .unary) :
    (p.negated negations).formula ν = negated negations (p.formula ν) := by
  induction negations with
  | zero => rfl
  | succ n ih =>
    show (p.negated n).neg.formula ν = (negated n (p.formula ν)).neg
    rw [Phrase.formula_neg, ih]

/-- The negations alone may fill the limit. -/
theorem parse_negatedName (hname : IsIdentifier name) (hadmits : table.AdmitsBoolean name)
    (hlimit : negations ≤ maxNesting) :
    (parse table (negatedName negations name)).result =
      .ok (some (negated negations (.atom (table.naming name)))) := by
  have hsymbols : (Phrase.negated negations (.plain (.name name))).conjunct.disjunct.symbols =
      List.replicate negations .neg ++ [.ident name] := Phrase.symbols_negated _ _
  have hnames : names (List.replicate negations .neg ++ [.ident name]) = [name] := by
    simp [names, Symbol.name?]
  have hconforms : Conforms table maxNesting (negatedName negations name)
      (Phrase.negated negations (.plain (.name name))).conjunct.disjunct := by
    apply conforms_iff.mpr
    rw [hsymbols, hnames]
    refine ⟨written_negatedName hname, ?_, ?_⟩
    · show (Phrase.negated negations (.plain (.name name))).nesting ≤ maxNesting
      rw [nesting_negated]
      show 0 + negations ≤ maxNesting
      omega
    · intro other hother
      rw [List.mem_singleton.mp hother]
      exact hadmits
  have hknown : (table.declare [name]).get? name = some (table.naming name) := by
    rw [VariableTable.declare_cons, VariableTable.declare_nil, VariableTable.get?_getOrBoolean,
      if_pos rfl]
    rfl
  have hformula := formula_negated (table.declare [name]).naming negations
    (.plain (.name name))
  rw [parse_of_conforms hconforms, hsymbols, hnames]
  show Except.ok (some ((Phrase.negated negations (.plain (.name name))).formula _)) = _
  rw [hformula]
  show Except.ok (some (negated negations (.atom ((table.declare [name]).naming name)))) = _
  rw [VariableTable.naming_of_get? hknown]

theorem exists_parse_negatedName (negations : Nat) (hlimit : negations ≤ maxNesting) :
    ∃ v, (parse .empty (negatedName negations "A")).result =
      .ok (some (negated negations (.atom v))) := by
  exact ⟨_, parse_negatedName isIdentifier_letter nofun hlimit⟩

/-- Each negation but the innermost adds two pairs of parentheses. -/
theorem nest_negated (negations : Nat) (v : Variable) :
    (negated (negations + 1) (.atom v)).nest = 3 * negations + 2 := by
  induction negations with
  | zero => rfl
  | succ n ih =>
    show 3 + (negated (n + 1) (.atom v)).nest = _
    rw [ih]
    omega

end Negations

/-- A text is read back exactly within the limit on its nesting. -/
theorem text_read_back (table : VariableTable) (f : Formula)
    (hreadable : ∀ v ∈ f.atoms, Readable table v) :
    (∃ symbols, Written f.text.toList symbols ∧ deepest symbols = f.nest) ∧
    (f.nest ≤ 64 → ∃ g, parse table f.text = ⟨.ok (some g), table⟩ ∧ g.text = f.text ∧
      g.vars = f.vars ∧ ∀ valuation, g.eval valuation = f.eval valuation) ∧
    (64 < f.nest → ∃ span, (parse table f.text).result = .error (.tooDeep 64 span)) := by
  have htable := declare_of_readable hreadable
  rw [← htable] at hreadable
  refine ⟨?_, ?_, parse_text_of_deep hreadable⟩
  · obtain ⟨p, hwritten, hnesting, -⟩ := exists_phrase_of_text hreadable
    refine ⟨p.symbols, hwritten, ?_⟩
    rw [p.deepest_symbols, hnesting]
  · intro hnest
    obtain ⟨g, hg, hregrouped⟩ := parse_text hreadable hnest
    rw [htable] at hg
    exact ⟨g, hg, hregrouped.text_eq, hregrouped.vars_eq, hregrouped.eval_eq⟩

theorem text_read_back_at_limit : ∃ (table : VariableTable) (f f' : Formula),
    (∀ v ∈ f.atoms ++ f'.atoms, Readable table v) ∧ f.nest = 64 ∧ f'.nest = 65 ∧
    (∃ g, parse table f.text = ⟨.ok (some g), table⟩ ∧ g.text = f.text ∧ g.vars = f.vars ∧
      ∀ valuation, g.eval valuation = f.eval valuation) ∧
    ∃ span, (parse table f'.text).result = .error (.tooDeep 64 span) := by
  obtain ⟨v, hv⟩ : ∃ v, Readable ⟨[v]⟩ v := by
    refine ⟨⟨⟨1, Nat.one_pos⟩, "A", .boolean⟩, ?_, rfl, isIdentifier_letter⟩
    simp [VariableTable.get?]
  have hinner : (negated 21 (.atom v)).nest = 62 := nest_negated 20 v
  have hdeep : (negated 22 (.atom v)).nest = 65 := nest_negated 21 v
  -- Two disjunctions below conjunctions add the last two levels to 21 negations.
  obtain ⟨f, hatoms, hnest⟩ : ∃ f : Formula, f.atoms = [v, v, v, v, v] ∧ f.nest = 64 := by
    refine ⟨.conj (.atom v) (.disj (.atom v) (.conj (.atom v) (.disj (.atom v)
      (negated 21 (.atom v))))), rfl, ?_⟩
    simp only [Formula.nest, Formula.marks, hinner]
    omega
  have hreadable : ∀ w ∈ f.atoms ++ (negated 22 (.atom v)).atoms, Readable ⟨[v]⟩ w := by
    intro w hw
    have hmem : w ∈ [v, v, v, v, v] ++ [v] := by
      rw [← hatoms]
      exact hw
    obtain rfl : w = v := by simpa using hmem
    exact hv
  obtain ⟨hfirst, hsecond⟩ := List.forall_mem_append.mp hreadable
  refine ⟨⟨[v]⟩, f, negated 22 (.atom v), hreadable, hnest, hdeep, ?_, ?_⟩
  · exact (text_read_back ⟨[v]⟩ f hfirst).2.1 (Nat.le_of_eq hnest)
  · exact (text_read_back ⟨[v]⟩ (negated 22 (.atom v)) hsecond).2.2 (by omega)

/-- The canonical text of an accepted condition is read back exactly within the limit, over the
table that the condition was read with and over the one that it left. -/
theorem accepted_text_read_back (table start : VariableTable) (text : String) (f : Formula)
    (h : (parse table text).result = .ok (some f))
    (hstart : start = table ∨ start = (parse table text).table) :
    (f.nest ≤ 64 → ∃ g, parse start f.text = ⟨.ok (some g), (parse table text).table⟩ ∧
      g.text = f.text ∧ ∀ valuation, g.eval valuation = f.eval valuation) ∧
    (64 < f.nest → ∃ span, (parse start f.text).result = .error (.tooDeep 64 span)) := by
  obtain ⟨-, hreadable⟩ := readable_of_parse h
  rw [← declare_of_parse h hstart] at hreadable ⊢
  refine ⟨?_, parse_text_of_deep hreadable⟩
  intro hnest
  obtain ⟨g, hg, hregrouped⟩ := parse_text hreadable hnest
  exact ⟨g, hg, hregrouped.text_eq, hregrouped.eval_eq⟩

theorem accepted_text_read_back_on_negations : ∃ f,
    (parse .empty (negatedName 21 "A")).result = .ok (some f) ∧ f.nest = 62 ∧
    ∃ g, parse .empty f.text = ⟨.ok (some g), (parse .empty (negatedName 21 "A")).table⟩ ∧
      g.text = f.text ∧ ∀ valuation, g.eval valuation = f.eval valuation := by
  obtain ⟨v, hparse⟩ := exists_parse_negatedName 21 (by decide)
  have hnest : (negated 21 (.atom v)).nest = 62 := nest_negated 20 v
  refine ⟨_, hparse, hnest, ?_⟩
  exact (accepted_text_read_back _ _ _ _ hparse (Or.inl rfl)).1 (by omega)

/-- Twenty-two negations in front of a name are accepted, but their canonical text is not. -/
theorem accepted_text_not_read_back : ∃ f,
    (parse .empty (negatedName 22 "A")).result = .ok (some f) ∧
    ∀ g, (parse (parse .empty (negatedName 22 "A")).table f.text).result ≠ .ok (some g) := by
  obtain ⟨v, hparse⟩ := exists_parse_negatedName 22 (by decide)
  have hnest : (negated 22 (.atom v)).nest = 65 := nest_negated 21 v
  have hlimit : maxNesting < (negated 22 (.atom v)).nest := by
    rw [hnest]
    decide
  obtain ⟨-, hreadable⟩ := readable_of_parse hparse
  rw [← declare_of_parse hparse (Or.inr rfl)] at hreadable
  obtain ⟨span, hdeep⟩ := parse_text_of_deep hreadable hlimit
  refine ⟨_, hparse, ?_⟩
  intro g hg
  rw [hdeep] at hg
  cases hg

end Condition

end GuardedMachines
