import GuardedMachines.Proofs.Condition.Slicing
import GuardedMachines.Proofs.Condition.Stopping

/-!
Spans are parts of the text. The characters of a text that has tokens are blanks and the characters
of its tokens, which stand one after the other; a text has none as soon as one character belongs to
neither kind, and the first such character is reported. A condition is refused at a token, at the
end of the text or at such a character, so every error has a span that cuts a part out of the text,
and an error that quotes the text quotes this part.
-/

namespace GuardedMachines

def ConditionError.quoted? : ConditionError → Option String
  | unexpectedCharacter found _ => some (String.singleton found)
  | unexpectedToken found _ _ => some found
  | notBoolean name _ => some name
  | _ => none

namespace Condition

def Lexical (c : Char) : Prop := isWordChar c = true ∨ c ∈ ['(', ')', '!', '&', '|']

def Foreign (c : Char) : Prop := ¬ isBlank c = true ∧ ¬ Lexical c

instance (c : Char) : Decidable (Lexical c) := inferInstanceAs (Decidable (_ ∨ _))

instance (c : Char) : Decidable (Foreign c) := inferInstanceAs (Decidable (_ ∧ _))

section Characters

variable {c : Char} {symbol : Symbol} {rest : List Char}

theorem Lexical.not_isBlank (h : Lexical c) : ¬ isBlank c = true := by
  rcases h with hword | hmark
  · exact not_isBlank_of_isWordChar hword
  · simp only [List.mem_cons, List.not_mem_nil, or_false] at hmark
    rcases hmark with rfl | rfl | rfl | rfl | rfl <;> decide

theorem Lexical.not_foreign (h : Lexical c) : ¬ Foreign c := fun hforeign => hforeign.2 h

theorem lexical_of_ofMark? (h : Symbol.ofMark? c = some symbol) : Lexical c := by
  unfold Symbol.ofMark? at h
  split at h
  · decide
  · decide
  · decide
  · cases h

theorem lexical_of_ofSign? (h : Symbol.ofSign? c = some symbol) : Lexical c := by
  unfold Symbol.ofSign? at h
  split at h
  · decide
  · decide
  · cases h

/-- No token begins with a character that tokens are not made of. -/
theorem not_lexical_of_firstToken? (h : firstToken? c rest = none) : ¬ Lexical c := by
  unfold firstToken? at h
  split at h
  · cases h
  · next hword =>
    rintro (hc | hc)
    · exact hword hc
    · simp only [List.mem_cons, List.not_mem_nil, or_false] at hc
      rcases hc with rfl | rfl | rfl | rfl | rfl <;> cases h

/-- The first token is a word, a mark, or a sign that stands once or twice. -/
theorem shape_of_firstToken? {lexeme rest' : List Char}
    (h : firstToken? c rest = some (symbol, lexeme, rest')) :
    ((∀ d ∈ lexeme, isWordChar d = true) ∧ Symbol.ofWord lexeme = symbol) ∨
      (lexeme = [c] ∧ Symbol.ofMark? c = some symbol) ∨
      (lexeme = [c] ∨ lexeme = [c, c]) ∧ Symbol.ofSign? c = some symbol := by
  unfold firstToken? at h
  by_cases hc : isWordChar c = true
  · rw [if_pos hc] at h
    cases h
    refine .inl ⟨List.forall_mem_cons.mpr ⟨hc, ?_⟩, rfl⟩
    exact List.all_eq_true.mp List.all_takeWhile
  · rw [if_neg hc] at h
    cases hmark : Symbol.ofMark? c with
    | some mark =>
      rw [hmark] at h
      cases h
      exact .inr (.inl ⟨rfl, rfl⟩)
    | none =>
      rw [hmark] at h
      obtain ⟨sign, hsign, h⟩ := Option.map_eq_some_iff.mp h
      split at h
      · cases h
        exact .inr (.inr ⟨.inr rfl, hsign⟩)
      · cases h
        exact .inr (.inr ⟨.inl rfl, hsign⟩)

theorem lexical_of_firstToken? {lexeme rest' : List Char}
    (h : firstToken? c rest = some (symbol, lexeme, rest')) : ∀ d ∈ lexeme, Lexical d := by
  intro d hd
  rcases shape_of_firstToken? h with ⟨hword, -⟩ | ⟨rfl, hmark⟩ | ⟨hlexeme, hsign⟩
  · exact .inl (hword d hd)
  · rw [List.mem_singleton.mp hd]
    exact lexical_of_ofMark? hmark
  · have hdc : d = c := by rcases hlexeme with rfl | rfl <;> simpa using hd
    rw [hdc]
    exact lexical_of_ofSign? hsign

/-- An identifier is named as it is written. -/
theorem name_of_firstToken? {lexeme rest' : List Char} {name : String}
    (h : firstToken? c rest = some (.ident name, lexeme, rest')) : String.ofList lexeme = name := by
  rcases shape_of_firstToken? h with ⟨-, hword⟩ | ⟨-, hmark⟩ | ⟨-, hsign⟩
  · exact (ofWord_eq_ident_iff.mp hword).2
  · exact absurd rfl (mark_ne_ident hmark name)
  · exact absurd rfl (sign_ne_ident hsign name)

end Characters

/-- The characters from an offset on are blanks and the lexemes of the tokens, in order. -/
inductive Segmented : Nat → List Char → List Token → Prop
  | nil {start : Nat} : Segmented start [] []
  | blank {start : Nat} {c : Char} {rest : List Char} {found : List Token}
      (blank : isBlank c = true) (after : Segmented (start + c.utf8Size) rest found) :
      Segmented start (c :: rest) found
  | token {start : Nat} {symbol : Symbol} {lexeme rest : List Char} {found : List Token}
      (chars : ∀ c ∈ lexeme, Lexical c)
      (named : ∀ name, symbol = .ident name → String.ofList lexeme = name)
      (after : Segmented (start + byteSize lexeme) rest found) :
      Segmented start (lexeme ++ rest) (⟨symbol, lexeme, start⟩ :: found)

theorem segmented_of_tokensFrom {start : Nat} {chars : List Char} {found : List Token}
    (h : tokensFrom start chars = .ok found) : Segmented start chars found := by
  fun_induction tokensFrom start chars generalizing found with
  | case1 =>
    cases h
    exact .nil
  | case2 start c rest hc ih => exact .blank hc (ih h)
  | case3 start c rest hc symbol lexeme rest' hfirst hlt ih =>
    cases hafter : tokensFrom (start + byteSize lexeme) rest' with
    | error e =>
      rw [hafter] at h
      cases h
    | ok after =>
      rw [hafter] at h
      cases h
      rw [← lexeme_append_of_firstToken? hfirst]
      refine .token (lexical_of_firstToken? hfirst) ?_ (ih hafter)
      rintro name rfl
      exact name_of_firstToken? hfirst
  | case4 => cases h

/-- A character of two texts is one of the first or of the second. -/
theorem append_eq_append_cons {first second before after : List Char} {c : Char}
    (h : first ++ second = before ++ c :: after) :
    (∃ inner, first = before ++ c :: inner) ∨
      ∃ between, before = first ++ between ∧ second = between ++ c :: after := by
  rcases List.append_eq_append_iff.mp h with hsecond | ⟨inner, rfl, hinner⟩
  · exact .inr hsecond
  · cases inner with
    | nil => exact .inr ⟨[], by simp, hinner.symm⟩
    | cons d inner =>
      cases hinner
      exact .inl ⟨inner, rfl⟩

namespace Segmented

variable {start : Nat} {chars : List Char} {found : List Token} {t : Token}

/-- The lexeme of a token stands among the characters, at the offset that the token has. -/
theorem exists_split (h : Segmented start chars found) (ht : t ∈ found) :
    ∃ before after, chars = before ++ t.lexeme ++ after ∧ t.start = start + byteSize before := by
  induction h with
  | nil => cases ht
  | @blank start c rest found hblank _ ih =>
    obtain ⟨before, after, rfl, hstart⟩ := ih ht
    refine ⟨c :: before, after, rfl, ?_⟩
    rw [byteSize, hstart, Nat.add_assoc]
  | @token start symbol lexeme rest found _ _ _ ih =>
    rcases List.mem_cons.mp ht with rfl | ht
    · exact ⟨[], rest, rfl, rfl⟩
    · obtain ⟨before, after, rfl, hstart⟩ := ih ht
      refine ⟨lexeme ++ before, after, by simp only [List.append_assoc], ?_⟩
      rw [byteSize_append, hstart, Nat.add_assoc]

theorem text_eq (h : Segmented start chars found) (ht : t ∈ found) {name : String}
    (hname : t.symbol = .ident name) : t.text = name := by
  induction h with
  | nil => cases ht
  | blank _ _ ih => exact ih ht
  | token _ named _ ih =>
    rcases List.mem_cons.mp ht with rfl | ht
    · exact named name hname
    · exact ih ht

theorem not_foreign (h : Segmented start chars found) : ∀ c ∈ chars, ¬ Foreign c := by
  induction h with
  | nil => exact fun c hc => absurd hc List.not_mem_nil
  | blank hblank _ ih =>
    exact List.forall_mem_cons.mpr ⟨fun hforeign => hforeign.1 hblank, ih⟩
  | token hchars _ _ ih =>
    exact List.forall_mem_append.mpr ⟨fun c hc => (hchars c hc).not_foreign, ih⟩

/-- The tokens cover the characters that are not blank. -/
theorem isBlank_iff (h : Segmented start chars found) {before after : List Char} {c : Char}
    (hchars : chars = before ++ c :: after) :
    isBlank c = true ↔ ∀ t ∈ found, ¬ t.span.Covers (start + byteSize before) := by
  induction h generalizing before with
  | nil => simp at hchars
  | @blank start d rest found hblank hafter ih =>
    cases before with
    | nil =>
      cases hchars
      refine iff_of_true hblank fun t ht hcovers => ?_
      obtain ⟨before, after, -, hstart⟩ := hafter.exists_split ht
      have hc := c.utf8Size_pos
      have hle : t.start ≤ start := hcovers.1
      omega
    | cons first before =>
      cases hchars
      rw [ih rfl, byteSize, Nat.add_assoc]
  | @token start symbol lexeme rest found hlexical named hafter ih =>
    -- The character is one of the lexeme, which has no blanks, or stands after it.
    rcases append_eq_append_cons hchars with ⟨inner, rfl⟩ | ⟨between, rfl, hrest⟩
    · refine iff_of_false (hlexical c (by simp)).not_isBlank fun hnone => ?_
      refine hnone _ List.mem_cons_self ⟨Nat.le_add_right _ _, ?_⟩
      show start + byteSize before < start + byteSize (before ++ c :: inner)
      have hc := c.utf8Size_pos
      rw [byteSize_append, byteSize]
      omega
    · rw [ih hrest, List.forall_mem_cons, byteSize_append, Nat.add_assoc]
      refine (and_iff_right fun hcovers => ?_).symm
      have hlt : start + (byteSize lexeme + byteSize between) < start + byteSize lexeme :=
        hcovers.2
      omega

end Segmented

/-- The tokens end at the first foreign character. -/
theorem exists_foreign_of_tokensFrom {start : Nat} {chars : List Char} {e : ConditionError}
    (h : tokensFrom start chars = .error e) :
    ∃ before c after, chars = before ++ c :: after ∧ (∀ d ∈ before, ¬ Foreign d) ∧ Foreign c ∧
      e = .unexpectedCharacter c
        ⟨start + byteSize before, start + byteSize before + c.utf8Size⟩ := by
  fun_induction tokensFrom start chars with
  | case1 => cases h
  | case2 start d rest hd ih =>
    obtain ⟨before, c, after, rfl, hbefore, hc, rfl⟩ := ih h
    refine ⟨d :: before, c, after, rfl, ?_, hc, ?_⟩
    · exact List.forall_mem_cons.mpr ⟨fun hforeign => hforeign.1 hd, hbefore⟩
    · rw [byteSize, ← Nat.add_assoc]
  | case3 start d rest hd symbol lexeme rest' hfirst hlt ih =>
    cases hafter : tokensFrom (start + byteSize lexeme) rest' with
    | ok after =>
      rw [hafter] at h
      cases h
    | error cause =>
      rw [hafter] at h
      cases h
      obtain ⟨before, c, after, rfl, hbefore, hc, rfl⟩ := ih hafter
      refine ⟨lexeme ++ before, c, after, ?_, ?_, hc, ?_⟩
      · rw [← lexeme_append_of_firstToken? hfirst, List.append_assoc]
      · refine List.forall_mem_append.mpr ⟨fun d hd => ?_, hbefore⟩
        exact (lexical_of_firstToken? hfirst d hd).not_foreign
      · rw [byteSize_append, ← Nat.add_assoc]
  | case4 start c rest hc hfirst =>
    cases h
    exact ⟨[], c, rest, rfl, fun d hd => absurd hd List.not_mem_nil,
      ⟨hc, not_lexical_of_firstToken? hfirst⟩, rfl⟩

/-- How the tokens of a text stand in it. They are not empty, follow one another and cut their
lexemes out of the text, and they cover the characters that are not blank. -/
structure Placed (text : String) (found : List Token) : Prop where
  within : ∀ t ∈ found, t.span.Within text
  nonempty : ∀ t ∈ found, t.span.start < t.span.stop
  ascending : found.Pairwise fun t u =>
    t.span.start < u.span.start ∧ t.span.stop ≤ u.span.start
  slice : ∀ t ∈ found, t.span.slice? text = some t.text
  blank_iff : ∀ before c after, text = before ++ String.singleton c ++ after →
    (isBlank c = true ↔ ∀ t ∈ found, ¬ t.span.Covers before.utf8ByteSize)

/-- The span of the error cuts out the part of the text that the error quotes, if it quotes one. -/
def Quotes (e : ConditionError) (text : String) : Prop :=
  ∃ part, e.span.slice? text = some part ∧ ∀ quoted ∈ e.quoted?, quoted = part

section Text

variable {text : String} {found : List Token} {t : Token} {e : ConditionError}

theorem toList_append_singleton (before after : String) (c : Char) :
    (before ++ String.singleton c ++ after).toList = before.toList ++ c :: after.toList := by
  rw [String.toList_append, String.toList_append, String.toList_singleton, List.append_assoc,
    List.singleton_append]

theorem slice?_of_mem (h : tokens text = .ok found) (ht : t ∈ found) :
    t.span.slice? text = some t.text := by
  obtain ⟨before, after, hsplit, hstart⟩ := (segmented_of_tokensFrom h).exists_split ht
  rw [Nat.zero_add] at hstart
  rw [Token.span, hstart]
  exact slice?_of_toList hsplit

theorem placed_of_tokens (h : tokens text = .ok found) : Placed text found where
  within t ht := Span.within_of_slice? (slice?_of_mem h ht)
  nonempty t ht := ((tokens_in_order h).1 t ht).2
  ascending := by
    obtain ⟨hbounds, hpairs⟩ := tokens_in_order h
    refine hpairs.imp_of_mem fun ht _ hapart => ⟨?_, hapart⟩
    exact Nat.lt_of_lt_of_le (hbounds _ ht).2 hapart
  slice t ht := slice?_of_mem h ht
  blank_iff := by
    rintro before c after rfl
    have hblank := (segmented_of_tokensFrom h).isBlank_iff (toList_append_singleton before after c)
    rwa [Nat.zero_add, byteSize_toList] at hblank

theorem exists_foreign_of_tokens (h : tokens text = .error e) :
    ∃ before c after, text = before ++ String.singleton c ++ after ∧
      (∀ d ∈ before.toList, ¬ Foreign d) ∧ Foreign c ∧
      e = .unexpectedCharacter c ⟨before.utf8ByteSize, before.utf8ByteSize + c.utf8Size⟩ := by
  obtain ⟨before, c, after, hsplit, hbefore, hc, rfl⟩ := exists_foreign_of_tokensFrom h
  refine ⟨String.ofList before, c, String.ofList after, ?_, ?_, hc, ?_⟩
  · rw [← String.toList_inj, toList_append_singleton, String.toList_ofList, String.toList_ofList,
      hsplit]
  · rwa [String.toList_ofList]
  · rw [utf8ByteSize_ofList, Nat.zero_add]

/-- A text has tokens unless one of its characters is foreign. -/
theorem exists_error_iff : (∃ e, tokens text = .error e) ↔ ∃ c ∈ text.toList, Foreign c := by
  constructor
  · rintro ⟨e, h⟩
    obtain ⟨before, c, after, hsplit, -, hc, -⟩ := exists_foreign_of_tokensFrom h
    exact ⟨c, by simp [hsplit], hc⟩
  · rintro ⟨c, hmem, hc⟩
    cases htokens : tokens text with
    | error e => exact ⟨e, rfl⟩
    | ok found => exact absurd hc ((segmented_of_tokensFrom htokens).not_foreign c hmem)

/-- A text without foreign characters has tokens, and they are parts of every longer text too. -/
theorem exists_tokens_before (h : ∀ c ∈ text.toList, ¬ Foreign c) (more : String) :
    ∃ found, tokens text = .ok found ∧ ∀ t ∈ found, t.span.slice? (text ++ more) = some t.text := by
  cases htokens : tokens text with
  | ok found => exact ⟨found, rfl, fun t ht => Span.slice?_append (slice?_of_mem htokens ht) more⟩
  | error e =>
    obtain ⟨c, hmem, hc⟩ := exists_error_iff.mp ⟨e, htokens⟩
    exact absurd hc (h c hmem)

theorem quotes_of_tokens (h : tokens text = .error e) : Quotes e text := by
  obtain ⟨before, c, after, rfl, -, -, rfl⟩ := exists_foreign_of_tokens h
  refine ⟨String.singleton c, Span.slice?_eq_some_iff.mpr ⟨before, after, rfl, ?_⟩, ?_⟩
  · rw [String.utf8ByteSize_singleton]
    rfl
  · rintro quoted hquoted
    cases hquoted
    rfl

end Text

/-- A refusal quotes the token that is refused. -/
theorem Reader.Refuses.eq_text {r : Reader} {t : Token} {e : ConditionError} (h : r.Refuses t e)
    (hnamed : ∀ name, t.symbol = .ident name → t.text = name) :
    ∀ quoted ∈ e.quoted?, quoted = t.text := by
  intro quoted hquoted
  cases h with
  | notBoolean phase symbol other =>
    cases hquoted
    exact (hnamed _ symbol).symm
  | tooDeep phase symbol full => cases hquoted
  | noOperand phase symbol =>
    cases hquoted
    rfl
  | closedEarly phase symbol => cases hquoted
  | noConnective phase symbol =>
    cases hquoted
    rfl
  | notOpened phase symbol outermost => cases hquoted

theorem quotes_of_stops {table : VariableTable} {text : String} {found : List Token} {r : Reader}
    {e : ConditionError} (hfound : tokens text = .ok found)
    (h : Stops table found text.utf8ByteSize r e) : Quotes e text := by
  cases h with
  | @refused before after t r e split run refuses =>
    have ht : t ∈ found := by simp [split]
    refine ⟨t.text, ?_, ?_⟩
    · rw [refuses.span_eq]
      exact slice?_of_mem hfound ht
    · exact refuses.eq_text fun name => (segmented_of_tokensFrom hfound).text_eq ht
  | ended run finish =>
    -- Such an error is about the end of the text or about a token that opens, and quotes nothing.
    rcases endsEarly_of_finish run finish with ⟨expected, span, rfl⟩ | ⟨t, ht, -, rfl⟩
    · rcases Reader.finish_eq_error finish with
        ⟨negations, -, heq⟩ | ⟨f, frame, frames, -, -, heq⟩
      · cases heq
        exact ⟨"", Span.slice?_end text, fun quoted hquoted => by cases hquoted⟩
      · cases heq
    · exact ⟨t.text, slice?_of_mem hfound ht, fun quoted hquoted => by cases hquoted⟩

theorem quotes_of_parse {table : VariableTable} {text : String} {e : ConditionError}
    (h : (parse table text).result = .error e) : Quotes e text := by
  cases htokens : tokens text with
  | error cause =>
    simp only [parse, htokens] at h
    cases h
    exact quotes_of_tokens htokens
  | ok found =>
    obtain ⟨r, hstops, -⟩ := stops_of_parse htokens h
    exact quotes_of_stops htokens hstops

/-- Spans are always valid. The tokens of a text stand in order and apart from each other, are cut
out of the text by their spans and leave only blanks uncovered. A text fails to have tokens exactly
if one of its characters is foreign; the first such character is reported with its bytes, and the
tokens before it are parts of the text too. Every error of parsing has a span within the text and
quotes what stands there. -/
theorem spans_within_text (text : String) :
    (∀ found, tokens text = .ok found → Placed text found) ∧
    ((∃ e, tokens text = .error e) ↔ ∃ c ∈ text.toList, Foreign c) ∧
    (∀ e, tokens text = .error e → ∃ before c after,
      text = before ++ String.singleton c ++ after ∧ (∀ d ∈ before.toList, ¬ Foreign d) ∧
      Foreign c ∧
      e = .unexpectedCharacter c ⟨before.utf8ByteSize, before.utf8ByteSize + c.utf8Size⟩ ∧
      ∃ found, tokens before = .ok found ∧ ∀ t ∈ found, t.span.slice? text = some t.text) ∧
    ∀ table e, (parse table text).result = .error e → e.span.Within text ∧ Quotes e text := by
  refine ⟨fun found => placed_of_tokens, exists_error_iff, ?_, ?_⟩
  · intro e he
    obtain ⟨before, c, after, rfl, hbefore, hc, heq⟩ := exists_foreign_of_tokens he
    refine ⟨before, c, after, rfl, hbefore, hc, heq, ?_⟩
    rw [String.append_assoc]
    exact exists_tokens_before hbefore _
  · intro table e he
    obtain ⟨part, hpart, hquoted⟩ := quotes_of_parse he
    exact ⟨Span.within_of_slice? hpart, part, hpart, hquoted⟩

/-- Blanks of three bytes stand before the tokens of one text, and a letter of two bytes is foreign
to the other. -/
theorem spans_within_text_of_wide_characters :
    (∃ found, tokens "\u3000A ET\u2003|" = .ok found ∧ Placed "\u3000A ET\u2003|" found) ∧
    (parse .empty "\u3000A ET\u2003|").result = .error (.unexpectedToken "|" .operand ⟨10, 11⟩) ∧
    Span.Within ⟨10, 11⟩ "\u3000A ET\u2003|" ∧
    Span.slice? ⟨10, 11⟩ "\u3000A ET\u2003|" = some "|" ∧
    tokens "A\u3000|| é" = .error (.unexpectedCharacter 'é' ⟨7, 9⟩) ∧
    (∃ c ∈ "A\u3000|| é".toList, Foreign c) ∧
    ∃ before after, "A\u3000|| é" = before ++ "é" ++ after ∧ before.utf8ByteSize = 7 ∧
      ∀ d ∈ before.toList, ¬ Foreign d := by
  have hfound : tokens "\u3000A ET\u2003|" =
      .ok [⟨.ident "A", ['A'], 3⟩, ⟨.conj, ['E', 'T'], 5⟩, ⟨.disj, ['|'], 10⟩] := by
    decide +kernel
  have hresult : (parse .empty "\u3000A ET\u2003|").result =
      .error (.unexpectedToken "|" .operand ⟨10, 11⟩) := by
    rw [parse_of_tokens hfound (List.cons_ne_nil _ _)]
    rfl
  have herror : tokens "A\u3000|| é" = .error (.unexpectedCharacter 'é' ⟨7, 9⟩) := by
    decide +kernel
  obtain ⟨hplaced, -, -, hquotes⟩ := spans_within_text "\u3000A ET\u2003|"
  obtain ⟨-, hfails, hfirst, -⟩ := spans_within_text "A\u3000|| é"
  obtain ⟨hwithin, part, hpart, hquoted⟩ := hquotes _ _ hresult
  obtain ⟨before, c, after, hsplit, hbefore, hc, heq, -⟩ := hfirst _ herror
  obtain rfl : "|" = part := hquoted "|" rfl
  obtain ⟨rfl, hspan⟩ := ConditionError.unexpectedCharacter.inj heq
  exact ⟨⟨_, hfound, hplaced _ hfound⟩, hresult, hwithin, hpart, herror, hfails.mp ⟨_, herror⟩,
    before, after, hsplit, (congrArg Span.start hspan).symm, hbefore⟩

end Condition

end GuardedMachines
