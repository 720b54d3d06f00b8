import GuardedMachines.Proofs.Condition.Lockstep

/-!
The ways of writing a sequence of symbols. A connective has several spellings, and blanks may stand
around every lexeme; they must where two lexemes would run together, which two words do and two
lexemes made of the same sign. Every layout writes its symbols, so the tables, formulas and errors
that its parsing gives do not depend on the spellings and blanks chosen.
-/

namespace GuardedMachines.Condition

namespace Symbol

def words : Symbol → List (List Char)
  | conj => [['A', 'N', 'D'], ['E', 'T']]
  | disj => [['O', 'R'], ['O', 'U']]
  | neg => [['N', 'O', 'T'], ['N', 'O', 'N']]
  | _ => []

def signs : Symbol → List (List Char)
  | ident _ => []
  | conj => [['&'], ['&', '&']]
  | disj => [['|'], ['|', '|']]
  | neg => [['!']]
  | opening => [['(']]
  | closing => [[')']]

end Symbol

inductive SpelledBy : Symbol → List Char → Prop
  | ident {name : String} (identifier : IsIdentifier name) : SpelledBy (.ident name) name.toList
  | word {symbol : Symbol} {lexeme : List Char}
      (keyword : lexeme.map Char.toUpper ∈ symbol.words) : SpelledBy symbol lexeme
  | sign {symbol : Symbol} {lexeme : List Char} (sign : lexeme ∈ symbol.signs) :
      SpelledBy symbol lexeme

/-- Without a blank between them, the lexemes may be read as one. -/
def RunTogether (lexeme lexeme' : List Char) : Prop :=
  (lexeme ++ lexeme').all isWordChar = true ∨ (lexeme ++ lexeme').all (· == '&') = true ∨
    (lexeme ++ lexeme').all (· == '|') = true

instance (lexeme lexeme' : List Char) : Decidable (RunTogether lexeme lexeme') :=
  inferInstanceAs (Decidable (_ ∨ _ ∨ _))

structure Piece where
  symbol : Symbol
  lexeme : List Char
  spelled : SpelledBy symbol lexeme
  gap : List Char
  blank : gap.all isBlank = true

def Piece.chars (p : Piece) : List Char := p.lexeme ++ p.gap

structure Layout where
  lead : List Char
  blank : lead.all isBlank = true
  pieces : List Piece
  apart : pieces.IsChain fun p q => RunTogether p.lexeme q.lexeme → p.gap ≠ []

namespace Layout

def symbols (layout : Layout) : List Symbol := layout.pieces.map Piece.symbol

def text (layout : Layout) : String :=
  String.ofList (layout.lead ++ layout.pieces.flatMap Piece.chars)

end Layout

section Spelling

variable {symbol : Symbol} {lexeme : List Char} {c : Char}

theorem isWordChar_of_toUpper (h : isWordChar c.toUpper = true) : isWordChar c = true := by
  unfold Char.toUpper at h
  split at h
  · next hlower =>
    have hc : c.isLower = true := by
      delta Char.isLower
      rw [Bool.and_eq_true, decide_eq_true_eq, decide_eq_true_eq]
      exact hlower
    delta isWordChar Char.isAlphanum Char.isAlpha
    rw [hc, Bool.or_true, Bool.true_or, Bool.true_or]
  · exact h

/-- A lexeme is a word, a mark, or a sign that stands once or twice. -/
theorem SpelledBy.shape (h : SpelledBy symbol lexeme) :
    (lexeme ≠ [] ∧ (∀ c ∈ lexeme, isWordChar c = true) ∧ Symbol.ofWord lexeme = symbol) ∨
      (∃ c, lexeme = [c] ∧ Symbol.ofMark? c = some symbol) ∨
      ∃ c, (lexeme = [c] ∨ lexeme = [c, c]) ∧ Symbol.ofSign? c = some symbol := by
  cases h with
  | ident hname => exact .inl ⟨hname.nonempty, hname.chars, hname.ofWord⟩
  | word hword =>
    have hupper : lexeme.map Char.toUpper ≠ [] ∧
        (lexeme.map Char.toUpper).all isWordChar = true ∧ Symbol.ofWord lexeme = symbol := by
      unfold Symbol.ofWord
      generalize lexeme.map Char.toUpper = upper at hword ⊢
      cases symbol <;> simp only [Symbol.words, List.mem_cons, List.not_mem_nil, or_false] at hword
      all_goals rcases hword with rfl | rfl <;> exact ⟨by decide, by decide, rfl⟩
    obtain ⟨hne, hchars, hsymbol⟩ := hupper
    refine .inl ⟨fun hnil => hne (by rw [hnil]; rfl), ?_, hsymbol⟩
    intro c hc
    exact isWordChar_of_toUpper (List.all_eq_true.mp hchars _ (List.mem_map_of_mem hc))
  | sign hsign =>
    refine .inr ?_
    cases symbol with
    | ident name => cases hsign
    | conj => exact .inr ⟨'&', by simpa [Symbol.signs] using hsign, rfl⟩
    | disj => exact .inr ⟨'|', by simpa [Symbol.signs] using hsign, rfl⟩
    | neg => exact .inl ⟨'!', by simpa [Symbol.signs] using hsign, rfl⟩
    | opening => exact .inl ⟨'(', by simpa [Symbol.signs] using hsign, rfl⟩
    | closing => exact .inl ⟨')', by simpa [Symbol.signs] using hsign, rfl⟩

theorem SpelledBy.ne_nil (h : SpelledBy symbol lexeme) : lexeme ≠ [] := by
  rcases h.shape with ⟨hne, -⟩ | ⟨mark, rfl, -⟩ | ⟨sign, rfl | rfl, -⟩
  · exact hne
  · exact List.cons_ne_nil _ _
  · exact List.cons_ne_nil _ _
  · exact List.cons_ne_nil _ _

/-- A lexeme that begins with a word character is a word. -/
theorem SpelledBy.chars_of_isWordChar (h : SpelledBy symbol lexeme) (hhead : lexeme.head? = some c)
    (hc : isWordChar c = true) : ∀ d ∈ lexeme, isWordChar d = true := by
  rcases h.shape with ⟨-, hchars, -⟩ | ⟨mark, rfl, hmark⟩ | ⟨sign, hlexeme, hsign⟩
  · exact hchars
  · cases hhead
    exact absurd hc (mark_apart hmark).2
  · have hhead' : lexeme.head? = some sign := by rcases hlexeme with rfl | rfl <;> rfl
    rw [hhead] at hhead'
    cases hhead'
    exact absurd hc (sign_apart hsign).2.1

/-- A lexeme that begins with a sign is made of it. -/
theorem SpelledBy.chars_of_ofSign? {sign : Symbol} (h : SpelledBy symbol lexeme)
    (hhead : lexeme.head? = some c) (hc : Symbol.ofSign? c = some sign) : ∀ d ∈ lexeme, d = c := by
  obtain ⟨-, hword, hmark⟩ := sign_apart hc
  rcases h.shape with ⟨-, hchars, -⟩ | ⟨mark, rfl, hmark'⟩ | ⟨sign', hlexeme, -⟩
  · exact absurd (hchars c (List.mem_of_head? hhead)) hword
  · cases hhead
    rw [hmark] at hmark'
    cases hmark'
  · rcases hlexeme with rfl | rfl <;> cases hhead <;> simp

structure Apart (lexeme rest : List Char) : Prop where
  word : (∀ c ∈ lexeme, isWordChar c = true) → EndsWord rest
  sign : ∀ c sign, lexeme = [c] → Symbol.ofSign? c = some sign → rest.head? ≠ some c

theorem written_lexeme {rest : List Char} {symbols : List Symbol} (h : SpelledBy symbol lexeme)
    (hapart : Apart lexeme rest) (hrest : Written rest symbols) :
    Written (lexeme ++ rest) (symbol :: symbols) := by
  rcases h.shape with ⟨hne, hchars, rfl⟩ | ⟨mark, rfl, hmark⟩ | ⟨sign, rfl | rfl, hsign⟩
  · exact .word hne hchars (hapart.word hchars) hrest
  · exact .mark hmark hrest
  · exact .sign hsign (hapart.sign sign symbol rfl hsign) hrest
  · exact .doubled hsign hrest

end Spelling

theorem Written.blanks {blanks rest : List Char} {symbols : List Symbol}
    (h : blanks.all isBlank = true) (hrest : Written rest symbols) :
    Written (blanks ++ rest) symbols := by
  induction blanks with
  | nil => exact hrest
  | cons c blanks ih =>
    rw [List.all_cons, Bool.and_eq_true] at h
    exact .blank h.1 (ih h.2)

namespace Apart

variable {lexeme lexeme' rest : List Char}

theorem nil : Apart lexeme [] where
  word _ _ hc := nomatch hc
  sign _ _ _ _ hc := nomatch hc

theorem blank {c : Char} (hc : isBlank c = true) : Apart lexeme (c :: rest) where
  word _ d hd := by
    cases hd
    exact Bool.eq_false_iff.mpr fun hword => not_isBlank_of_isWordChar hword hc
  sign d sign _ hsign hd := by
    cases hd
    exact (sign_apart hsign).1 hc

/-- Lexemes that do not run together stand apart without a blank. -/
theorem of_not_runTogether {symbol' : Symbol} (hspelled : SpelledBy symbol' lexeme')
    (h : ¬ RunTogether lexeme lexeme') : Apart lexeme (lexeme' ++ rest) := by
  have hhead : (lexeme' ++ rest).head? = lexeme'.head? :=
    List.head?_append_of_ne_nil _ hspelled.ne_nil
  constructor
  · intro hword c hc
    rw [hhead] at hc
    refine Bool.eq_false_iff.mpr fun hwordChar => h (.inl ?_)
    refine List.all_eq_true.mpr (List.forall_mem_append.mpr ⟨hword, ?_⟩)
    exact hspelled.chars_of_isWordChar hc hwordChar
  · intro c sign hlexeme hsign hc
    rw [hhead] at hc
    have hall : (lexeme ++ lexeme').all (· == c) = true := by
      have hsame := hspelled.chars_of_ofSign? hc hsign
      rw [List.all_append, Bool.and_eq_true]
      exact ⟨by simp [hlexeme], List.all_eq_true.mpr fun d hd => beq_iff_eq.mpr (hsame d hd)⟩
    unfold Symbol.ofSign? at hsign
    split at hsign
    · exact h (.inr (.inl hall))
    · exact h (.inr (.inr hall))
    · cases hsign

end Apart

/-- The pieces write their symbols, one after the other. -/
theorem written_pieces {pieces : List Piece}
    (h : pieces.IsChain fun p q => RunTogether p.lexeme q.lexeme → p.gap ≠ []) :
    Written (pieces.flatMap Piece.chars) (pieces.map Piece.symbol) := by
  induction pieces with
  | nil => exact .nil
  | cons p pieces ih =>
    rw [List.flatMap_cons, List.map_cons, Piece.chars, List.append_assoc]
    refine written_lexeme p.spelled ?_ (.blanks p.blank (ih h.of_cons))
    -- What follows the lexeme is a blank of its gap, the next lexeme or the end.
    cases hgap : p.gap with
    | cons c gap => exact .blank (List.all_eq_true.mp p.blank c (by simp [hgap]))
    | nil =>
      cases pieces with
      | nil => exact .nil
      | cons q pieces =>
        have hclash := (List.isChain_cons_cons.mp h).1
        rw [List.nil_append, List.flatMap_cons, Piece.chars, List.append_assoc]
        exact .of_not_runTogether q.spelled fun htogether => hclash htogether hgap

namespace Layout

theorem exists_tokens (layout : Layout) :
    ∃ found, tokens layout.text = .ok found ∧ found.map Token.symbol = layout.symbols := by
  refine written_iff_tokens.mp ?_
  unfold text
  rw [String.toList_ofList]
  exact .blanks layout.blank (written_pieces layout.apart)

/-- Spellings and blanks do not matter: two layouts of the same symbols have these as their tokens,
and they are parsed to the same answer or refused for the same cause at the same position, with the
same table left. -/
theorem parse_alike_of_symbols_eq {layout layout' : Layout} (h : layout.symbols = layout'.symbols)
    (table : VariableTable) :
    ∃ found found', tokens layout.text = .ok found ∧ tokens layout'.text = .ok found' ∧
      found.map Token.symbol = layout.symbols ∧ found'.map Token.symbol = layout.symbols ∧
      (parse table layout.text).table = (parse table layout'.text).table ∧
      Together (· = ·)
        (ErrorsAlike found found' layout.text.utf8ByteSize layout'.text.utf8ByteSize)
        (parse table layout.text).result (parse table layout'.text).result := by
  obtain ⟨found, hfound, hsymbols⟩ := layout.exists_tokens
  obtain ⟨found', hfound', hsymbols'⟩ := layout'.exists_tokens
  refine ⟨found, found', hfound, hfound', hsymbols, hsymbols'.trans h.symm, ?_⟩
  exact parse_together hfound hfound' (hsymbols.trans (h.trans hsymbols'.symm))

def inSigns : Layout where
  lead := []
  blank := by decide
  pieces :=
    [⟨.neg, ['!'], .sign (by decide), [], by decide⟩,
      ⟨.ident "A", "A".toList, .ident isIdentifier_letter, [], by decide⟩,
      ⟨.disj, ['|'], .sign (by decide), [' '], by decide⟩,
      ⟨.disj, ['|', '|'], .sign (by decide), [], by decide⟩]
  apart := by decide

def inWords : Layout where
  lead := [' ']
  blank := by decide
  pieces :=
    [⟨.neg, ['n', 'O', 'n'], .word (by decide), [' '], by decide⟩,
      ⟨.ident "A", "A".toList, .ident isIdentifier_letter, ['\t'], by decide⟩,
      ⟨.disj, ['O', 'U'], .word (by decide), [' '], by decide⟩,
      ⟨.disj, ['o', 'r'], .word (by decide), ['\n'], by decide⟩]
  apart := by decide

theorem parse_alike_in_signs_and_words :
    inSigns.text = "!A| ||" ∧ inWords.text = " nOn A\tOU or\n" ∧
      inSigns.symbols = inWords.symbols ∧
      (parse .empty inSigns.text).table = (parse .empty inWords.text).table ∧
      ∃ found found', tokens inSigns.text = .ok found ∧ tokens inWords.text = .ok found' ∧
        ErrorsAlike found found' inSigns.text.utf8ByteSize inWords.text.utf8ByteSize
          (.unexpectedToken "||" .operand ⟨4, 6⟩) (.unexpectedToken "or" .operand ⟨10, 12⟩) := by
  have hsigns : tokens inSigns.text = .ok
      [⟨.neg, ['!'], 0⟩, ⟨.ident "A", ['A'], 1⟩, ⟨.disj, ['|'], 2⟩, ⟨.disj, ['|', '|'], 4⟩] := by
    decide +kernel
  have hwords : tokens inWords.text = .ok
      [⟨.neg, ['n', 'O', 'n'], 1⟩, ⟨.ident "A", ['A'], 5⟩, ⟨.disj, ['O', 'U'], 7⟩,
        ⟨.disj, ['o', 'r'], 10⟩] := by
    decide +kernel
  have hresult : (parse .empty inSigns.text).result =
      .error (.unexpectedToken "||" .operand ⟨4, 6⟩) := by
    rw [parse_of_tokens hsigns (List.cons_ne_nil _ _)]
    rfl
  have hresult' : (parse .empty inWords.text).result =
      .error (.unexpectedToken "or" .operand ⟨10, 12⟩) := by
    rw [parse_of_tokens hwords (List.cons_ne_nil _ _)]
    rfl
  have hsymbols : inSigns.symbols = inWords.symbols := rfl
  obtain ⟨found, found', hfound, hfound', -, -, htable, htogether⟩ :=
    parse_alike_of_symbols_eq hsymbols .empty
  rw [hresult, hresult'] at htogether
  cases htogether with
  | error halike =>
    exact ⟨by decide +kernel, by decide +kernel, hsymbols, htable, found, found', hfound, hfound',
      halike⟩

end Layout

end GuardedMachines.Condition
