import GuardedMachines.Proofs.Condition.Acceptance

/-!
What reading a condition does to the table. The names among the tokens that the
reader takes are interned as Boolean variables, whether or not a later token is
refused, and nothing else happens to the table. The variables of the formula
that is read are those that the table then has under their names.
-/

namespace GuardedMachines.Condition

namespace Reader

def taken (r : Reader) : List Token → List Token
  | [] => []
  | t :: rest =>
    match r.step t with
    | .ok r' => t :: r'.taken rest
    | .error _ => []

/-- The reader stops where the tokens that it takes lead it. -/
theorem run_taken (r : Reader) (tokens : List Token) :
    r.run (r.taken tokens) = ((r.run tokens).1, none) := by
  induction tokens generalizing r with
  | nil => rfl
  | cons t rest ih =>
    cases hstep : r.step t with
    | ok r' =>
      simp only [taken, run, hstep]
      exact ih r'
    | error e => simp only [taken, run, hstep]

end Reader

/-- The names that are read in a text, up to the first token that is refused. -/
def namesRead (table : VariableTable) (text : String) : List String :=
  match tokens text with
  | .ok found => names (((Reader.start table).taken found).map Token.symbol)
  | .error _ => []

theorem table_parseTokens (table : VariableTable) (found : List Token) (stop : Nat) :
    (parseTokens table found stop).table = ((Reader.start table).run found).1.table := by
  unfold parseTokens
  rcases (Reader.start table).run found with ⟨r, _ | e⟩ <;> rfl

/-- Reading a text interns the names that are read in it, and does nothing else. -/
theorem table_parse (table : VariableTable) (text : String) :
    (parse table text).table = table.declare (namesRead table text) := by
  unfold namesRead
  cases hfound : tokens text with
  | error e => simp only [parse, hfound, VariableTable.declare_nil]
  | ok found =>
    by_cases hnil : found = []
    · subst hnil
      simp only [parse, hfound]
      rfl
    · rw [parse_of_tokens hfound hnil, table_parseTokens]
      exact (Reader.table_after_run ((Reader.start table).run_taken found)).1

/-- Every variable of a formula is the one that its name has in the table after the reading. -/
theorem get?_of_mem_atoms {table : VariableTable} {text : String} {f : Formula} {v : Variable}
    (hf : (parse table text).result = .ok (some f)) (hv : v ∈ f.atoms) :
    (parse table text).table.get? v.name = some v := by
  obtain ⟨p, hp⟩ := parse_eq_some_iff.mp ⟨f, hf⟩
  rw [parse_of_conforms hp] at hf ⊢
  cases hf
  rw [p.atoms_formula] at hv
  obtain ⟨name, hname, rfl⟩ := List.mem_map.mp hv
  rw [VariableTable.name_naming]
  exact VariableTable.get?_declare_naming hname

end GuardedMachines.Condition
