import GuardedMachines.Proofs.Condition.Declaring
import GuardedMachines.Proofs.Condition.Stopping

/-!
What reading a condition adds to the table. The names that the reader takes are
interned one after the other, so the table goes on with a Boolean variable for each
of them that it did not have, where the name comes first, numbered from the size
that the table had. A condition that is read adds the names of all of its tokens, one
that is refused the names before the refused token, and one that ends too early again
those of all tokens.
-/

namespace GuardedMachines

namespace VariableTable

def unknown (table : VariableTable) (names : List String) : List String :=
  (names.filter fun name => (table.get? name).isNone).eraseDups

/-- The table goes on with numbered Boolean variables for those of the names that it does not
have. -/
def Continues (table : VariableTable) (names : List String) (table' : VariableTable) : Prop :=
  ∃ added, table'.vars = table.vars ++ added ∧ (∀ v ∈ added, v.isBoolean = true) ∧
    added.map (fun v => v.id.number) = List.range' (table.size + 1) added.length ∧
    added.map Variable.name = table.unknown names

variable {table : VariableTable} {name : String} {v : Variable}

theorem unknown_cons_of_get? (names : List String) (h : table.get? name = some v) :
    table.unknown (name :: names) = table.unknown names := by
  unfold unknown
  rw [List.filter_cons_of_neg (by simp [h])]

theorem unknown_cons_of_none (names : List String) (h : table.get? name = none) :
    table.unknown (name :: names) = name :: (table.getOrBoolean name).2.unknown names := by
  have hrest : (names.filter fun other => ((table.getOrBoolean name).2.get? other).isNone) =
      (names.filter fun other => (table.get? other).isNone).filter fun other => !other == name := by
    rw [List.filter_filter]
    apply List.filter_congr
    intro other _
    rw [get?_getOrBoolean]
    by_cases heq : other = name <;> simp [heq]
  unfold unknown
  rw [List.filter_cons_of_pos (by simp [h]), List.eraseDups_cons, hrest]

theorem continues_declare (table : VariableTable) (names : List String) :
    table.Continues names (table.declare names) := by
  induction names generalizing table with
  | nil => exact ⟨[], (List.append_nil _).symm, by simp, rfl, rfl⟩
  | cons name names ih =>
    rw [declare_cons]
    cases hget : table.get? name with
    | some v =>
      rw [getOrBoolean_of_get? hget]
      unfold Continues
      rw [unknown_cons_of_get? names hget]
      exact ih table
    | none =>
      obtain ⟨added, hvars, hboolean, hnumbers, hnames⟩ := ih (table.getOrBoolean name).2
      unfold Continues
      rw [unknown_cons_of_none names hget, hvars, ← hnames]
      rw [getOrBoolean_of_none hget] at hnumbers ⊢
      refine ⟨⟨table.nextId, name, .boolean⟩ :: added, ?_, ?_, ?_, rfl⟩
      · rw [List.append_assoc, List.singleton_append]
      · exact List.forall_mem_cons.mpr ⟨rfl, hboolean⟩
      · have hsize : size ⟨table.vars ++ [⟨table.nextId, name, .boolean⟩]⟩ = table.size + 1 :=
          List.length_append
        rw [List.map_cons, hnumbers, hsize, List.length_cons, List.range'_succ]
        rfl

end VariableTable

namespace Condition

variable {table : VariableTable} {text : String}

/-- Only a character that begins no token keeps a text from being split into tokens. -/
theorem unexpectedCharacter_of_tokensFrom {start : Nat} {chars : List Char} {e : ConditionError}
    (h : tokensFrom start chars = .error e) : ∃ c span, e = .unexpectedCharacter c span := by
  fun_induction tokensFrom start chars generalizing e with
  | case1 => cases h
  | case2 start c rest hc ih => exact ih h
  | case3 start c rest hc symbol lexeme rest' hfirst hlt ih =>
    cases hafter : tokensFrom (start + byteSize lexeme) rest' with
    | error cause =>
      rw [hafter] at h
      cases h
      exact ih hafter
    | ok after =>
      rw [hafter] at h
      cases h
  | case4 start c rest hc hfirst =>
    cases h
    exact ⟨_, _, rfl⟩

theorem Stops.ne_unexpectedCharacter {found : List Token} {stop : Nat} {r : Reader} {c : Char}
    {span : Span} (h : Stops table found stop r (.unexpectedCharacter c span)) : False := by
  cases h with
  | refused split run refuses => cases refuses
  | ended run finish =>
    rcases endsEarly_of_finish run finish with ⟨x, s, heq⟩ | ⟨t, ht, hopening, heq⟩ <;> cases heq

theorem continues_of_accepted {f : Formula} (h : (parse table text).result = .ok (some f)) :
    ∃ found, tokens text = .ok found ∧
      table.Continues (names (found.map Token.symbol)) (parse table text).table := by
  obtain ⟨p, hp⟩ := parse_eq_some_iff.mp ⟨f, h⟩
  obtain ⟨found, hfound, hsymbols⟩ := written_iff_tokens.mp hp.written
  refine ⟨found, hfound, ?_⟩
  rw [parse_of_conforms hp, hsymbols]
  exact table.continues_declare _

/-- The names before the refused token, or of all tokens if the text ends too early. -/
theorem Stops.continues {found : List Token} {stop : Nat} {r : Reader} {e : ConditionError}
    (h : Stops table found stop r e) (hspans : (found.map Token.span).Nodup) :
    (EndsEarly found e → table.Continues (names (found.map Token.symbol)) r.table) ∧
      (¬ EndsEarly found e → (∃ t ∈ found, t.span = e.span) ∧
        ∀ before t after, found = before ++ t :: after → t.span = e.span →
          table.Continues (names (before.map Token.symbol)) r.table) := by
  cases h with
  | @refused before after t r e split run refuses =>
    refine ⟨fun hends => absurd hends (not_endsEarly_of_refuses hspans split refuses), fun _ => ?_⟩
    refine ⟨⟨t, by simp [split], refuses.span_eq.symm⟩, ?_⟩
    intro before' t' after' hsplit hspan
    rw [before_span_unique hspans hsplit split (hspan.trans refuses.span_eq),
      (Reader.table_after_run run).1]
    exact table.continues_declare _
  | ended run finish =>
    refine ⟨fun _ => ?_, fun hends => absurd (endsEarly_of_finish run finish) hends⟩
    rw [(Reader.table_after_run run).1]
    exact table.continues_declare _

/-- Whatever comes of reading a text, the table keeps its variables and goes on with Boolean ones.
If a condition is read they are those of the names in the text that the table did not have, in the
order of first occurrences. A blank text and one with a character that begins no token add none.
A text that is refused for another reason adds the names before the token that the error points
at, or the names of all tokens if it ends too early. -/
theorem table_growth (table : VariableTable) (text : String) :
    (∃ added, (parse table text).table.vars = table.vars ++ added ∧
      ∀ v ∈ added, v.isBoolean = true) ∧
    (∀ f, (parse table text).result = .ok (some f) → ∃ found, tokens text = .ok found ∧
      table.Continues (names (found.map Token.symbol)) (parse table text).table) ∧
    ((∀ c ∈ text.toList, isBlank c = true) → (parse table text).table = table) ∧
    (∀ c span, (parse table text).result = .error (.unexpectedCharacter c span) →
      (parse table text).table = table) ∧
    ∀ e, (parse table text).result = .error e → (∀ c span, e ≠ .unexpectedCharacter c span) →
      ∃ found, tokens text = .ok found ∧
        (EndsEarly found e →
          table.Continues (names (found.map Token.symbol)) (parse table text).table) ∧
        (¬ EndsEarly found e → (∃ t ∈ found, t.span = e.span) ∧
          ∀ before t after, found = before ++ t :: after → t.span = e.span →
            table.Continues (names (before.map Token.symbol)) (parse table text).table) := by
  refine ⟨?_, fun f hf => continues_of_accepted hf, fun hblank => ?_, ?_, ?_⟩
  · obtain ⟨added, hvars, hboolean, -⟩ := table.continues_declare (namesRead table text)
    rw [table_parse]
    exact ⟨added, hvars, hboolean⟩
  · rw [parse_of_blank hblank]
  · intro c span hresult
    cases hfound : tokens text with
    | error cause => simp only [parse, hfound]
    | ok found =>
      obtain ⟨r, hstops, -⟩ := stops_of_parse hfound hresult
      exact hstops.ne_unexpectedCharacter.elim
  · intro e hresult he
    cases hfound : tokens text with
    | error cause =>
      obtain ⟨c, span, rfl⟩ := unexpectedCharacter_of_tokensFrom hfound
      simp only [parse, hfound] at hresult
      cases hresult
      exact absurd rfl (he c span)
    | ok found =>
      obtain ⟨r, hstops, htable⟩ := stops_of_parse hfound hresult
      rw [htable]
      exact ⟨found, rfl, hstops.continues (nodup_spans hfound)⟩

/-- A text is refused at a name with other values, after one known name and two new ones, of which
one is repeated; another text ends before its parenthesis is closed. -/
theorem table_growth_on_refused_texts :
    let table : VariableTable :=
      ⟨[⟨⟨1, Nat.one_pos⟩, "A", .boolean⟩, ⟨⟨2, Nat.two_pos⟩, "MODE", .enumerated ["on", "off"]⟩]⟩
    (parse table "B & A | B & (C ou MODE) & D").result = .error (.notBoolean "MODE" ⟨18, 22⟩) ∧
      table.Continues ["B", "A", "B", "C"] (parse table "B & A | B & (C ou MODE) & D").table ∧
      (parse table "(B et A").result = .error (.unbalancedParenthesis ⟨0, 1⟩) ∧
      table.Continues ["B", "A"] (parse table "(B et A").table := by
  intro table
  have hfound : tokens "B & A | B & (C ou MODE) & D" = .ok ([⟨.ident "B", ['B'], 0⟩,
      ⟨.conj, ['&'], 2⟩, ⟨.ident "A", ['A'], 4⟩, ⟨.disj, ['|'], 6⟩, ⟨.ident "B", ['B'], 8⟩,
      ⟨.conj, ['&'], 10⟩, ⟨.opening, ['('], 12⟩, ⟨.ident "C", ['C'], 13⟩,
      ⟨.disj, ['o', 'u'], 15⟩] ++ ⟨.ident "MODE", ['M', 'O', 'D', 'E'], 18⟩ ::
      [⟨.closing, [')'], 22⟩, ⟨.conj, ['&'], 24⟩, ⟨.ident "D", ['D'], 26⟩]) := by decide +kernel
  have hresult : (parse table "B & A | B & (C ou MODE) & D").result =
      .error (.notBoolean "MODE" ⟨18, 22⟩) := by
    rw [parse_of_tokens hfound (List.cons_ne_nil _ _)]
    rfl
  have hfound' : tokens "(B et A" = .ok [⟨.opening, ['('], 0⟩, ⟨.ident "B", ['B'], 1⟩,
      ⟨.conj, ['e', 't'], 3⟩, ⟨.ident "A", ['A'], 6⟩] := by decide +kernel
  have hresult' : (parse table "(B et A").result = .error (.unbalancedParenthesis ⟨0, 1⟩) := by
    rw [parse_of_tokens hfound' (List.cons_ne_nil _ _)]
    rfl
  refine ⟨hresult, ?_, hresult', ?_⟩
  · obtain ⟨-, -, -, -, hrefused⟩ := table_growth table "B & A | B & (C ou MODE) & D"
    obtain ⟨found, hsame, -, hbefore⟩ := hrefused _ hresult (by simp)
    cases hfound.symm.trans hsame
    exact (hbefore (by simp [EndsEarly])).2 _ _ _ rfl rfl
  · obtain ⟨-, -, -, -, hrefused⟩ := table_growth table "(B et A"
    obtain ⟨found, hsame, hends, -⟩ := hrefused _ hresult' (by simp)
    cases hfound'.symm.trans hsame
    exact hends (.inr ⟨_, List.mem_cons_self, rfl, rfl⟩)

end Condition

end GuardedMachines
