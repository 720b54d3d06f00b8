import GuardedMachines.Proofs.Flattening

/-!
The text of a clause list is read back as that list. Each clause stands in
parentheses and a negative literal is written without any, so the text is nested
at most twice, however many clauses and literals there are. Characters display
clauses if they write a phrase whose formula distributes into them; literals,
clauses and the whole list do so in turn. What is read may be grouped in another
way, which distribution does not see, and there is no repetition left to drop.
-/

namespace GuardedMachines.Condition

/-- The characters write a phrase, nested no deeper than the bound, whose formula distributes
into the clauses. -/
def Displays (table : VariableTable) (k : Rank) (bound : Nat) (chars : List Char)
    (clauses : List (List Literal)) : Prop :=
  ∃ (f : Formula) (n : Nat) (p : Phrase k), Renders table.naming chars n f p ∧ n ≤ bound ∧
    Cnf.distribute f true = clauses

/-- What is displayed by two pieces of text with a separator between them is displayed by a
separated list of pieces. -/
theorem of_intercalate {ι α : Type} {P : List Char → List α → Prop} {separator : List Char}
    (hjoin : ∀ {chars chars' : List Char} {x y : List α}, P chars x → P chars' y →
      P (chars ++ separator ++ chars') (x ++ y))
    {render : ι → List Char} {item : ι → α} {l : List ι} (hne : l ≠ [])
    (h : ∀ i ∈ l, P (render i) [item i]) :
    P (separator.intercalate (l.map render)) (l.map item) := by
  induction l with
  | nil => exact absurd rfl hne
  | cons i rest ih => cases rest with
    | nil =>
      rw [List.map_singleton, List.intercalate_singleton]
      exact h i List.mem_cons_self
    | cons j rest =>
      have hrest := ih (List.cons_ne_nil _ _) fun k hk => h k (List.mem_cons_of_mem i hk)
      rw [List.map_cons, List.map_cons, List.intercalate_cons_cons]
      exact hjoin (h i List.mem_cons_self) hrest

variable {table : VariableTable} {bound : Nat} {chars chars' : List Char}

namespace Displays

theorem disj {c d : List Literal} (h : Displays table .disjunction bound chars [c])
    (h' : Displays table .disjunction bound chars' [d]) :
    Displays table .disjunction bound (chars ++ Spelling.spaced Spelling.disj ++ chars')
      [c ++ d] := by
  obtain ⟨f, n, p, hp, hn, hf⟩ := h
  obtain ⟨g, m, q, hq, hm, hg⟩ := h'
  obtain ⟨r, hr⟩ := hp.disj hq
  refine ⟨_, _, r, hr, Nat.max_le.mpr ⟨hn, hm⟩, ?_⟩
  rw [Cnf.distribute, hf, hg]
  rfl

theorem conj {clauses clauses' : List (List Literal)}
    (h : Displays table .conjunction bound chars clauses)
    (h' : Displays table .conjunction bound chars' clauses') :
    Displays table .conjunction bound (chars ++ Spelling.spaced Spelling.conj ++ chars')
      (clauses ++ clauses') := by
  obtain ⟨f, n, p, hp, hn, hf⟩ := h
  obtain ⟨g, m, q, hq, hm, hg⟩ := h'
  obtain ⟨r, hr⟩ := hp.conj hq
  refine ⟨_, _, r, hr, Nat.max_le.mpr ⟨hn, hm⟩, ?_⟩
  rw [Cnf.distribute, hf, hg]

theorem group {clauses : List (List Literal)}
    (h : Displays table .disjunction bound chars clauses) :
    Displays table .conjunction (bound + 1) (Spelling.parenthesized chars) clauses := by
  obtain ⟨f, n, p, hp, hn, hf⟩ := h
  exact ⟨f, n + 1, _, hp.group.plain.conjunct, Nat.succ_le_succ hn, hf⟩

theorem literal {l : Literal} (h : Readable table l.var) :
    Displays table .disjunction 1 l.render [[l]] := by
  obtain ⟨v, positive⟩ := l
  have hatom := (Renders.atom h.identifier (VariableTable.naming_of_get? h.known)).plain
  cases positive with
  | true => exact ⟨.atom v, 0, _, hatom.conjunct.disjunct, Nat.zero_le 1, rfl⟩
  | false => exact ⟨.neg (.atom v), 1, _, hatom.neg.conjunct.disjunct, Nat.le_refl 1, rfl⟩

theorem literals {c : List Literal} (hne : c ≠ []) (h : ∀ l ∈ c, Readable table l.var) :
    Displays table .disjunction 1
      ((Spelling.spaced Spelling.disj).intercalate (c.map Literal.render)) [c] := by
  have hchain := @of_intercalate Literal Literal
    (fun chars c => Displays table .disjunction 1 chars [c]) _ disj Literal.render id c hne
    fun l hl => literal (h l hl)
  rwa [List.map_id] at hchain

theorem clause {c : Clause} (hne : c.literals ≠ []) (h : ∀ l ∈ c.literals, Readable table l.var) :
    Displays table .conjunction 2 c.render [c.literals] :=
  (literals hne h).group

theorem cnf {cnf : Cnf} (hne : cnf.clauses ≠ []) (hclauses : ∀ c ∈ cnf.clauses, c.literals ≠ [])
    (h : ∀ c ∈ cnf.clauses, ∀ l ∈ c.literals, Readable table l.var) :
    Displays table .conjunction 2 cnf.render (cnf.clauses.map Clause.literals) :=
  of_intercalate conj hne fun c hc => clause (hclauses c hc) (h c hc)

end Displays

/-- The text of a clause list is read as a formula with these clauses, repetitions dropped. -/
theorem parse_clause_text {cnf : Cnf} (hne : cnf.clauses ≠ [])
    (hclauses : ∀ c ∈ cnf.clauses, c.literals ≠ [])
    (h : ∀ c ∈ cnf.clauses, ∀ l ∈ c.literals, Readable table l.var) :
    ∃ g, parse table cnf.text = ⟨.ok (some g), table⟩ ∧
      Cnf.ofFormula g = ⟨cnf.clauses.eraseDups⟩ := by
  obtain ⟨f, n, p, hp, hn, hf⟩ := Displays.cnf hne hclauses h
  have hreadable : ∀ v ∈ f.atoms, Readable table v := by
    intro v hv
    rw [← Cnf.mem_occurring_distribute f true, hf] at hv
    obtain ⟨literals, hliterals, l, hl, rfl⟩ := Cnf.mem_occurring.mp hv
    obtain ⟨c, hc, rfl⟩ := List.mem_map.mp hliterals
    exact h c hc l hl
  have htable := declare_of_readable hreadable
  have htext : cnf.text.toList = cnf.render := String.toList_ofList
  have hrenders := hp.disjunct
  rw [← htable] at hreadable hrenders
  rw [← htext] at hrenders
  have hlimit : n ≤ maxNesting := Nat.le_trans hn (by decide)
  obtain ⟨g, hparse, hregrouped⟩ := parse_of_renders hreadable hrenders hlimit
  rw [htable] at hparse
  refine ⟨g, hparse, ?_⟩
  rw [hregrouped.ofFormula_eq, Cnf.ofFormula, hf, List.map_map]
  exact congrArg (fun clauses => Cnf.mk clauses.eraseDups) (List.map_id _)

/-- The text of the clauses of a guard over readable variables is read, and what is read has the
same clauses, literal by literal. It is blank exactly if there are no clauses. -/
theorem clause_text_read_back (table : VariableTable) (guard : Option Formula)
    (hreadable : ∀ v ∈ Guard.atoms guard, Readable table v) :
    ∃ answer, parse table (Cnf.ofGuard guard).text = ⟨.ok answer, table⟩ ∧
      (answer = none ↔ (Cnf.ofGuard guard).clauses = []) ∧
      Cnf.ofGuard answer = Cnf.ofGuard guard := by
  cases guard with
  | none =>
    have hblank : ∀ c ∈ (Cnf.ofGuard none).text.toList, isBlank c = true := by
      intro c hc
      cases hc
    exact ⟨none, parse_of_blank hblank, iff_of_true rfl rfl, rfl⟩
  | some f =>
    have hliterals : ∀ c ∈ (Cnf.ofFormula f).clauses, ∀ l ∈ c.literals, Readable table l.var := by
      intro c hc l hl
      apply hreadable
      apply (Cnf.mem_occurring_distribute f true).mp
      exact Cnf.mem_occurring.mpr ⟨_, Cnf.mem_distribute_of_mem_clauses hc, l, hl, rfl⟩
    have hclauses : ∀ c ∈ (Cnf.ofFormula f).clauses, c.literals ≠ [] :=
      fun c hc => Cnf.ne_nil_of_mem_distribute (Cnf.mem_distribute_of_mem_clauses hc)
    obtain ⟨g, hparse, hclausesOf⟩ :=
      parse_clause_text (Cnf.clauses_ne_nil f) hclauses hliterals
    rw [eraseDups_eq_self (Cnf.pairwise_clauses f)] at hclausesOf
    exact ⟨some g, hparse, iff_of_false nofun (Cnf.clauses_ne_nil f), hclausesOf⟩

/-- A clause with one literal twice, which stays there twice, and one with negative literals. -/
theorem clause_text_read_back_on_repeated_literal :
    let a : Variable := ⟨⟨1, Nat.one_pos⟩, "A", .boolean⟩
    let b : Variable := ⟨⟨2, Nat.two_pos⟩, "B", .boolean⟩
    let guard : Option Formula := some (.conj (.disj (.atom a) (.atom a))
      (.neg (.conj (.atom b) (.atom a))))
    (∀ v ∈ Guard.atoms guard, Readable ⟨[a, b]⟩ v) ∧
    (Cnf.ofGuard guard).text = "(A OU A) ET (NON B OU NON A)" ∧
    ∃ g, parse ⟨[a, b]⟩ "(A OU A) ET (NON B OU NON A)" = ⟨.ok (some g), ⟨[a, b]⟩⟩ ∧
      Cnf.ofFormula g = ⟨[⟨[⟨a, true⟩, ⟨a, true⟩]⟩, ⟨[⟨b, false⟩, ⟨a, false⟩]⟩]⟩ := by
  intro a b guard
  have hreadable : ∀ v ∈ Guard.atoms guard, Readable ⟨[a, b]⟩ v := by
    intro v hv
    have hmem : v = a ∨ v = b := by
      have hlisted : v ∈ [a, a, b, a] := hv
      simp only [List.mem_cons, List.not_mem_nil, or_false] at hlisted
      tauto
    rcases hmem with rfl | rfl
    · exact ⟨rfl, rfl, isIdentifier_letter⟩
    · exact ⟨rfl, rfl, by decide, List.all_eq_true.mp (by decide), by decide⟩
  obtain ⟨answer, hparse, hblank, hclauses⟩ := clause_text_read_back ⟨[a, b]⟩ guard hreadable
  have htext : (Cnf.ofGuard guard).text = "(A OU A) ET (NON B OU NON A)" := by
    decide +kernel
  rw [htext] at hparse
  cases answer with
  | none => exact absurd (hblank.mp rfl) (List.cons_ne_nil _ _)
  | some g => exact ⟨hreadable, htext, g, hparse, hclauses⟩

end GuardedMachines.Condition
