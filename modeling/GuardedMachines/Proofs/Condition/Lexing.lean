import GuardedMachines.Condition.Token

/-!
How symbols are written. Blanks separate and are otherwise skipped, a word ends
where no character continues it, and a sign is doubled wherever it can be. The
tokens of a text are exactly the symbols it writes, so no text writes two
different sequences. A word is an identifier unless it spells a connective in
some letter case.
-/

namespace GuardedMachines.Condition

/-- A word that stands before the text ends there. -/
def EndsWord (rest : List Char) : Prop := ∀ c, rest.head? = some c → isWordChar c = false

inductive Written : List Char → List Symbol → Prop
  | nil : Written [] []
  | blank {c : Char} {rest : List Char} {symbols : List Symbol} (blank : isBlank c = true)
      (after : Written rest symbols) : Written (c :: rest) symbols
  | word {word rest : List Char} {symbols : List Symbol} (nonempty : word ≠ [])
      (chars : ∀ c ∈ word, isWordChar c = true) (ends : EndsWord rest)
      (after : Written rest symbols) : Written (word ++ rest) (.ofWord word :: symbols)
  | mark {c : Char} {symbol : Symbol} {rest : List Char} {symbols : List Symbol}
      (mark : Symbol.ofMark? c = some symbol) (after : Written rest symbols) :
      Written (c :: rest) (symbol :: symbols)
  | sign {c : Char} {symbol : Symbol} {rest : List Char} {symbols : List Symbol}
      (sign : Symbol.ofSign? c = some symbol) (single : rest.head? ≠ some c)
      (after : Written rest symbols) : Written (c :: rest) (symbol :: symbols)
  | doubled {c : Char} {symbol : Symbol} {rest : List Char} {symbols : List Symbol}
      (sign : Symbol.ofSign? c = some symbol) (after : Written rest symbols) :
      Written (c :: c :: rest) (symbol :: symbols)

section Characters

variable {c : Char} {symbol : Symbol}

/-- Word characters are those of four ranges of code points. -/
theorem toNat_of_isWordChar (h : isWordChar c = true) :
    (48 ≤ c.toNat ∧ c.toNat ≤ 57) ∨ (65 ≤ c.toNat ∧ c.toNat ≤ 90) ∨ c.toNat = 95 ∨
      (97 ≤ c.toNat ∧ c.toNat ≤ 122) := by
  delta isWordChar Char.isAlphanum Char.isAlpha Char.isUpper Char.isLower Char.isDigit at h
  simp only [Bool.or_eq_true, Bool.and_eq_true, decide_eq_true_eq, beq_iff_eq, ge_iff_le,
    UInt32.le_iff_toNat_le] at h
  unfold Char.toNat
  rcases h with ((h | h) | h) | rfl
  · exact Or.inr (Or.inl h)
  · exact Or.inr (Or.inr (Or.inr h))
  · exact Or.inl h
  · exact Or.inr (Or.inr (Or.inl rfl))

theorem not_isBlank_of_isWordChar (h : isWordChar c = true) : ¬ isBlank c = true := by
  have hrange := toNat_of_isWordChar h
  simp only [isBlank, blankRanges, List.any_cons, List.any_nil, Bool.or_eq_true,
    Bool.and_eq_true, decide_eq_true_eq, Bool.false_eq_true, or_false]
  omega

theorem mark_apart (h : Symbol.ofMark? c = some symbol) :
    ¬ isBlank c = true ∧ ¬ isWordChar c = true := by
  unfold Symbol.ofMark? at h
  split at h
  · decide
  · decide
  · decide
  · cases h

theorem sign_apart (h : Symbol.ofSign? c = some symbol) :
    ¬ isBlank c = true ∧ ¬ isWordChar c = true ∧ Symbol.ofMark? c = none := by
  unfold Symbol.ofSign? at h
  split at h
  · decide
  · decide
  · cases h

theorem mark_ne_ident (h : Symbol.ofMark? c = some symbol) (name : String) :
    .ident name ≠ symbol := by
  rintro rfl
  unfold Symbol.ofMark? at h
  split at h <;> cases h

theorem sign_ne_ident (h : Symbol.ofSign? c = some symbol) (name : String) :
    .ident name ≠ symbol := by
  rintro rfl
  unfold Symbol.ofSign? at h
  split at h <;> cases h

end Characters

section FirstToken

variable {c : Char} {symbol : Symbol} {rest : List Char}

theorem firstToken?_word {word : List Char} (hc : isWordChar c = true)
    (hword : ∀ d ∈ word, isWordChar d = true) (hends : EndsWord rest) :
    firstToken? c (word ++ rest) = some (.ofWord (c :: word), c :: word, rest) := by
  have hstop : rest.takeWhile isWordChar = [] ∧ rest.dropWhile isWordChar = rest := by
    cases rest with
    | nil => exact ⟨rfl, rfl⟩
    | cons d rest =>
      have hd := hends d rfl
      simp [hd]
  rw [firstToken?, if_pos hc, List.takeWhile_append_of_pos hword,
    List.dropWhile_append_of_pos hword, hstop.1, hstop.2, List.append_nil]

theorem firstToken?_mark (h : Symbol.ofMark? c = some symbol) :
    firstToken? c rest = some (symbol, [c], rest) := by
  rw [firstToken?, if_neg (mark_apart h).2, h]

theorem firstToken?_sign (h : Symbol.ofSign? c = some symbol) (hsingle : rest.head? ≠ some c) :
    firstToken? c rest = some (symbol, [c], rest) := by
  obtain ⟨-, hword, hmark⟩ := sign_apart h
  rw [firstToken?, if_neg hword, hmark]
  dsimp only
  rw [h, Option.map_some, if_neg hsingle]

theorem firstToken?_doubled (h : Symbol.ofSign? c = some symbol) :
    firstToken? c (c :: rest) = some (symbol, [c, c], rest) := by
  obtain ⟨-, hword, hmark⟩ := sign_apart h
  rw [firstToken?, if_neg hword, hmark]
  dsimp only
  rw [h, Option.map_some, List.head?_cons, if_pos rfl]
  rfl

/-- The first token is written as the relation says. -/
theorem written_of_firstToken? {lexeme rest' : List Char} {symbols : List Symbol}
    (h : firstToken? c rest = some (symbol, lexeme, rest')) (hrest : Written rest' symbols) :
    Written (c :: rest) (symbol :: symbols) := by
  unfold firstToken? at h
  by_cases hc : isWordChar c = true
  · rw [if_pos hc] at h
    cases h
    have hsplit : c :: rest =
        (c :: rest.takeWhile isWordChar) ++ rest.dropWhile isWordChar := by
      rw [List.cons_append, List.takeWhile_append_dropWhile]
    rw [hsplit]
    refine .word (List.cons_ne_nil _ _) ?_ ?_ hrest
    · intro d hd
      rcases List.mem_cons.mp hd with rfl | hd
      · exact hc
      · exact List.all_eq_true.mp List.all_takeWhile d hd
    · intro d hd
      have hhead := List.head?_dropWhile_not isWordChar rest
      rw [hd] at hhead
      simpa using hhead
  · rw [if_neg hc] at h
    cases hmark : Symbol.ofMark? c with
    | some mark =>
      rw [hmark] at h
      cases h
      exact .mark hmark hrest
    | none =>
      rw [hmark] at h
      obtain ⟨sign, hsign, h⟩ := Option.map_eq_some_iff.mp h
      by_cases hhead : rest.head? = some c
      · rw [if_pos hhead] at h
        cases h
        obtain ⟨tail, rfl⟩ := List.head?_eq_some_iff.mp hhead
        exact .doubled hsign hrest
      · rw [if_neg hhead] at h
        cases h
        exact .sign hsign hhead hrest

end FirstToken

section Tokens

variable {start : Nat} {c : Char} {rest : List Char}

theorem tokensFrom_blank (h : isBlank c = true) :
    tokensFrom start (c :: rest) = tokensFrom (start + c.utf8Size) rest := by
  rw [tokensFrom, if_pos h]

theorem tokensFrom_token {symbol : Symbol} {lexeme rest' : List Char} (hc : ¬ isBlank c = true)
    (h : firstToken? c rest = some (symbol, lexeme, rest')) :
    tokensFrom start (c :: rest) =
      (tokensFrom (start + byteSize lexeme) rest').map (⟨symbol, lexeme, start⟩ :: ·) := by
  rw [tokensFrom, if_neg hc]
  split
  · next h' =>
    rw [h] at h'
    cases h'
    rfl
  · next h' =>
    rw [h] at h'
    cases h'

/-- The tokens of a text are symbols that it writes. -/
theorem written_of_tokensFrom {chars : List Char} {tokens : List Token}
    (h : tokensFrom start chars = .ok tokens) : Written chars (tokens.map Token.symbol) := by
  fun_induction tokensFrom start chars generalizing tokens with
  | case1 =>
    cases h
    exact .nil
  | case2 start c rest hc ih => exact .blank hc (ih h)
  | case3 start c rest hc symbol lexeme rest' hfirst hlt ih =>
    cases hafter : tokensFrom (start + byteSize lexeme) rest' with
    | error e =>
      rw [hafter] at h
      cases h
    | ok after =>
      rw [hafter] at h
      cases h
      exact written_of_firstToken? hfirst (ih hafter)
  | case4 => cases h

theorem exists_tokensFrom_cons {symbol : Symbol} {symbols : List Symbol}
    {lexeme rest' : List Char} (hc : ¬ isBlank c = true)
    (hfirst : firstToken? c rest = some (symbol, lexeme, rest'))
    (h : ∀ start, ∃ tokens, tokensFrom start rest' = .ok tokens ∧
      tokens.map Token.symbol = symbols) (start : Nat) :
    ∃ tokens, tokensFrom start (c :: rest) = .ok tokens ∧
      tokens.map Token.symbol = symbol :: symbols := by
  obtain ⟨tokens, htokens, hsymbols⟩ := h (start + byteSize lexeme)
  refine ⟨⟨symbol, lexeme, start⟩ :: tokens, ?_, ?_⟩
  · rw [tokensFrom_token hc hfirst, htokens]
    rfl
  · rw [List.map_cons, hsymbols]

/-- The symbols that a text writes are its tokens. -/
theorem Written.tokensFrom {chars : List Char} {symbols : List Symbol} (h : Written chars symbols)
    (start : Nat) : ∃ tokens, Condition.tokensFrom start chars = .ok tokens ∧
      tokens.map Token.symbol = symbols := by
  induction h generalizing start with
  | nil => exact ⟨[], by rw [Condition.tokensFrom], rfl⟩
  | blank hc _ ih =>
    rw [tokensFrom_blank hc]
    exact ih _
  | @word word rest symbols hne hchars hends _ ih =>
    cases word with
    | nil => exact absurd rfl hne
    | cons c word =>
      have hc := hchars c List.mem_cons_self
      have hword := fun d hd => hchars d (List.mem_cons_of_mem c hd)
      exact exists_tokensFrom_cons (not_isBlank_of_isWordChar hc)
        (firstToken?_word hc hword hends) ih start
  | mark hmark _ ih =>
    exact exists_tokensFrom_cons (mark_apart hmark).1 (firstToken?_mark hmark) ih start
  | sign hsign hsingle _ ih =>
    exact exists_tokensFrom_cons (sign_apart hsign).1 (firstToken?_sign hsign hsingle) ih start
  | doubled hsign _ ih =>
    exact exists_tokensFrom_cons (sign_apart hsign).1 (firstToken?_doubled hsign) ih start

theorem Written.unique {chars : List Char} {symbols symbols' : List Symbol}
    (h : Written chars symbols) (h' : Written chars symbols') : symbols = symbols' := by
  obtain ⟨found, hfound, hsymbols⟩ := h.tokensFrom 0
  obtain ⟨found', hfound', hsymbols'⟩ := h'.tokensFrom 0
  rw [hfound] at hfound'
  cases hfound'
  exact hsymbols.symm.trans hsymbols'

theorem written_iff_tokens {text : String} {symbols : List Symbol} :
    Written text.toList symbols ↔
      ∃ found, tokens text = .ok found ∧ found.map Token.symbol = symbols := by
  constructor
  · intro h
    exact h.tokensFrom 0
  · intro ⟨found, hfound, hsymbols⟩
    rw [← hsymbols]
    exact written_of_tokensFrom hfound

theorem written_nil_iff {chars : List Char} :
    Written chars [] ↔ ∀ c ∈ chars, isBlank c = true := by
  constructor
  · intro h
    generalize hsymbols : ([] : List Symbol) = symbols at h
    induction h with
    | nil => exact fun c hc => (nomatch hc)
    | blank hblank _ ih => exact List.forall_mem_cons.mpr ⟨hblank, ih hsymbols⟩
    | word => cases hsymbols
    | mark => cases hsymbols
    | sign => cases hsymbols
    | doubled => cases hsymbols
  · intro h
    induction chars with
    | nil => exact .nil
    | cons c rest ih =>
      obtain ⟨hc, hrest⟩ := List.forall_mem_cons.mp h
      exact .blank hc (ih hrest)

end Tokens

def keywords : List (List Char) :=
  [['A', 'N', 'D'], ['E', 'T'], ['O', 'R'], ['O', 'U'], ['N', 'O', 'T'], ['N', 'O', 'N']]

structure IsIdentifier (name : String) : Prop where
  nonempty : name.toList ≠ []
  chars : ∀ c ∈ name.toList, isWordChar c = true
  free : name.toList.map Char.toUpper ∉ keywords

theorem ofWord_eq_ident_iff {word : List Char} {name : String} :
    Symbol.ofWord word = .ident name ↔
      word.map Char.toUpper ∉ keywords ∧ String.ofList word = name := by
  unfold Symbol.ofWord keywords
  split <;> simp_all

theorem IsIdentifier.ofWord {name : String} (h : IsIdentifier name) :
    Symbol.ofWord name.toList = .ident name :=
  ofWord_eq_ident_iff.mpr ⟨h.free, String.ofList_toList⟩

theorem isIdentifier_letter : IsIdentifier "A" where
  nonempty := by decide
  chars := List.all_eq_true.mp (by decide)
  free := by decide

/-- Every name that a text writes is an identifier. -/
theorem Written.isIdentifier {chars : List Char} {symbols : List Symbol}
    (h : Written chars symbols) {name : String} (hname : .ident name ∈ symbols) :
    IsIdentifier name := by
  induction h with
  | nil => cases hname
  | blank _ _ ih => exact ih hname
  | @word word rest symbols hne hchars _ _ ih =>
    rcases List.mem_cons.mp hname with hword | hname
    · obtain ⟨hfree, rfl⟩ := ofWord_eq_ident_iff.mp hword.symm
      have hlist : (String.ofList word).toList = word := String.toList_ofList
      exact ⟨by rwa [hlist], by rwa [hlist], by rwa [hlist]⟩
    · exact ih hname
  | mark hmark _ ih =>
    exact ih ((List.mem_cons.mp hname).resolve_left (mark_ne_ident hmark name))
  | sign hsign _ _ ih =>
    exact ih ((List.mem_cons.mp hname).resolve_left (sign_ne_ident hsign name))
  | doubled hsign _ ih =>
    exact ih ((List.mem_cons.mp hname).resolve_left (sign_ne_ident hsign name))

end GuardedMachines.Condition
