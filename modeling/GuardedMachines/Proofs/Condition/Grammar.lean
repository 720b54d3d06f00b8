import GuardedMachines.Condition.Token

/-!
The grammar of conditions. A phrase is a derivation in

  or := and (OR and)*, and := unary (AND unary)*, unary := NOT* atom,
  atom := IDENT | '(' or ')',

with its symbols and its value under an assignment of names. The second half is
about nesting: while symbols are read from left to right, parentheses are open
and negations wait for the end of their operand. How many do at the deepest
symbol is computed from the symbols alone, and for a phrase it follows the
derivation.
-/

namespace GuardedMachines.Condition

inductive Rank where
  | atom
  | unary
  | conjunction
  | disjunction

inductive Phrase : Rank → Type
  | name (name : String) : Phrase .atom
  | group (p : Phrase .disjunction) : Phrase .atom
  | plain (p : Phrase .atom) : Phrase .unary
  | neg (p : Phrase .unary) : Phrase .unary
  | conjunct (p : Phrase .unary) : Phrase .conjunction
  | conj (p : Phrase .conjunction) (q : Phrase .unary) : Phrase .conjunction
  | disjunct (p : Phrase .conjunction) : Phrase .disjunction
  | disj (p : Phrase .disjunction) (q : Phrase .conjunction) : Phrase .disjunction

namespace Phrase

variable {k : Rank}

def symbols {k : Rank} : Phrase k → List Symbol
  | name n => [.ident n]
  | group p => .opening :: p.symbols ++ [.closing]
  | plain p => p.symbols
  | neg p => .neg :: p.symbols
  | conjunct p => p.symbols
  | conj p q => p.symbols ++ .conj :: q.symbols
  | disjunct p => p.symbols
  | disj p q => p.symbols ++ .disj :: q.symbols

def holds (a : String → Bool) {k : Rank} : Phrase k → Bool
  | name n => a n
  | group p => p.holds a
  | plain p => p.holds a
  | neg p => !p.holds a
  | conjunct p => p.holds a
  | conj p q => p.holds a && q.holds a
  | disjunct p => p.holds a
  | disj p q => p.holds a || q.holds a

/-- How many parentheses and negations enclose the deepest symbol. -/
def nesting {k : Rank} : Phrase k → Nat
  | name _ => 0
  | group p => p.nesting + 1
  | plain p => p.nesting
  | neg p => p.nesting + 1
  | conjunct p => p.nesting
  | conj p q => max p.nesting q.nesting
  | disjunct p => p.nesting
  | disj p q => max p.nesting q.nesting

theorem symbols_ne_nil (p : Phrase k) : p.symbols ≠ [] := by
  induction p <;> simp_all [symbols]

end Phrase

def Sentence (symbols : List Symbol) : Prop := ∃ p : Phrase .disjunction, p.symbols = symbols

def Symbol.name? : Symbol → Option String
  | ident name => some name
  | _ => none

def names (symbols : List Symbol) : List String := symbols.filterMap Symbol.name?

@[simp] theorem names_nil : names [] = [] := rfl

theorem names_cons (symbol : Symbol) (symbols : List Symbol) :
    names (symbol :: symbols) = symbol.name?.toList ++ names symbols := by
  cases symbol <;> rfl

@[simp] theorem names_append (symbols symbols' : List Symbol) :
    names (symbols ++ symbols') = names symbols ++ names symbols' :=
  List.filterMap_append

theorem mem_names {symbols : List Symbol} {name : String} :
    name ∈ names symbols ↔ .ident name ∈ symbols := by
  unfold names
  rw [List.mem_filterMap]
  constructor
  · intro ⟨symbol, hmem, hname⟩
    cases symbol <;> simp_all [Symbol.name?]
  · intro hmem
    exact ⟨.ident name, hmem, rfl⟩

namespace Phrase

variable {k : Rank}

theorem names_group (p : Phrase .disjunction) : names p.group.symbols = names p.symbols := by
  simp [symbols, names_cons, Symbol.name?]

theorem names_conj (p : Phrase .conjunction) (q : Phrase .unary) :
    names (p.conj q).symbols = names p.symbols ++ names q.symbols := by
  simp [symbols, names_cons, Symbol.name?]

theorem names_disj (p : Phrase .disjunction) (q : Phrase .conjunction) :
    names (p.disj q).symbols = names p.symbols ++ names q.symbols := by
  simp [symbols, names_cons, Symbol.name?]

/-- Only the names of a phrase matter to its value. -/
theorem holds_congr {a b : String → Bool} (p : Phrase k)
    (h : ∀ name ∈ names p.symbols, a name = b name) : p.holds a = p.holds b := by
  induction p with
  | name n => exact h n List.mem_cons_self
  | group p ih =>
    rw [p.names_group] at h
    exact ih h
  | plain p ih => exact ih h
  | neg p ih => exact congrArg not (ih h)
  | conjunct p ih => exact ih h
  | conj p q ihp ihq =>
    rw [p.names_conj q, List.forall_mem_append] at h
    rw [holds, holds, ihp h.1, ihq h.2]
  | disjunct p ih => exact ih h
  | disj p q ihp ihq =>
    rw [p.names_disj q, List.forall_mem_append] at h
    rw [holds, holds, ihp h.1, ihq h.2]

end Phrase

/-- The negations in front of each open parenthesis, the innermost first, and those that wait
for an operand to begin. -/
structure Level where
  outer : List Nat
  waiting : Nat

namespace Level

def start : Level := ⟨[], 0⟩

def next (l : Level) : Symbol → Level
  | .neg => ⟨l.outer, l.waiting + 1⟩
  | .opening => ⟨l.waiting :: l.outer, 0⟩
  | .closing => ⟨l.outer.tail, 0⟩
  | _ => ⟨l.outer, 0⟩

def after (l : Level) (symbols : List Symbol) : Level := symbols.foldl next l

def depth (l : Level) : Nat :=
  l.outer.foldr (fun negations depth => negations + 1 + depth) l.waiting

def peak (l : Level) : List Symbol → Nat
  | [] => l.depth
  | s :: rest => max l.depth ((l.next s).peak rest)

theorem depth_eq (outer : List Nat) (waiting : Nat) :
    (⟨outer, waiting⟩ : Level).depth = waiting + (⟨outer, 0⟩ : Level).depth := by
  unfold depth
  dsimp only
  induction outer with
  | nil => rfl
  | cons negations outer ih =>
    rw [List.foldr_cons, List.foldr_cons, ih]
    omega

theorem depth_cons (negations : Nat) (outer : List Nat) :
    (⟨negations :: outer, 0⟩ : Level).depth = (⟨outer, negations⟩ : Level).depth + 1 := by
  rw [depth_eq outer negations]
  show negations + 1 + (⟨outer, 0⟩ : Level).depth = _
  omega

theorem after_append (l : Level) (symbols symbols' : List Symbol) :
    l.after (symbols ++ symbols') = (l.after symbols).after symbols' :=
  List.foldl_append

theorem depth_le_peak (l : Level) (symbols : List Symbol) : l.depth ≤ l.peak symbols := by
  cases symbols with
  | nil => exact Nat.le_refl _
  | cons s rest => exact Nat.le_max_left ..

theorem peak_append (l : Level) (symbols symbols' : List Symbol) :
    l.peak (symbols ++ symbols') = max (l.peak symbols) ((l.after symbols).peak symbols') := by
  induction symbols generalizing l with
  | nil =>
    have := l.depth_le_peak symbols'
    show l.peak symbols' = max l.depth (l.peak symbols')
    omega
  | cons s rest ih =>
    show max l.depth ((l.next s).peak (rest ++ symbols')) =
      max (max l.depth ((l.next s).peak rest)) (((l.next s).after rest).peak symbols')
    rw [ih]
    omega

/-- The peak bounds the depth after any of the symbols. -/
theorem peak_le_iff (l : Level) (symbols : List Symbol) (bound : Nat) :
    l.peak symbols ≤ bound ↔ ∀ before, before <+: symbols → (l.after before).depth ≤ bound := by
  induction symbols generalizing l with
  | nil =>
    constructor
    · intro h before hbefore
      rw [List.prefix_nil.mp hbefore]
      exact h
    · intro h
      exact h [] List.nil_prefix
  | cons s rest ih =>
    rw [peak, Nat.max_le, ih]
    constructor
    · intro ⟨hhere, hlater⟩ before hbefore
      cases before with
      | nil => exact hhere
      | cons s' before =>
        obtain ⟨rfl, hrest⟩ := List.cons_prefix_cons.mp hbefore
        exact hlater before hrest
    · intro h
      constructor
      · exact h [] List.nil_prefix
      · intro before hbefore
        exact h (s :: before) (List.cons_prefix_cons.mpr ⟨rfl, hbefore⟩)

end Level

/-- The greatest number of open parentheses and pending negations at a symbol. -/
def deepest (symbols : List Symbol) : Nat := Level.start.peak symbols

/-- Negations wait in front of an atom or of other negations, never in front of a chain. -/
def Rank.MayFollow (k : Rank) (negations : Nat) : Prop :=
  match k with
  | .atom => True
  | .unary => True
  | .conjunction => negations = 0
  | .disjunction => negations = 0

namespace Phrase

variable {k : Rank}

/-- After a phrase the same parentheses are open and nothing waits. -/
theorem after_symbols (p : Phrase k) (l : Level) : l.after p.symbols = ⟨l.outer, 0⟩ := by
  induction p generalizing l with
  | name n => rfl
  | group p ih =>
    show ((l.next .opening).after (p.symbols ++ [.closing])) = _
    rw [Level.after_append, ih]
    rfl
  | plain p ih => exact ih l
  | neg p ih => exact ih (l.next .neg)
  | conjunct p ih => exact ih l
  | conj p q ihp ihq =>
    rw [symbols, Level.after_append, ihp]
    exact ihq _
  | disjunct p ih => exact ih l
  | disj p q ihp ihq =>
    rw [symbols, Level.after_append, ihp]
    exact ihq _

/-- The peak of a phrase is its nesting, on top of what it stands in. -/
theorem peak_symbols (p : Phrase k) (l : Level) (h : k.MayFollow l.waiting) :
    l.peak p.symbols = l.depth + p.nesting := by
  obtain ⟨outer, waiting⟩ := l
  induction p generalizing outer waiting with
  | name n =>
    have hend := Level.depth_eq outer waiting
    show max (Level.depth ⟨outer, waiting⟩) (Level.depth ⟨outer, 0⟩) = _
    rw [nesting]
    omega
  | group p ih =>
    have hopen := ih (waiting :: outer) 0 rfl
    have hdepth := Level.depth_cons waiting outer
    have hend := Level.depth_eq outer waiting
    show max (Level.depth ⟨outer, waiting⟩)
      (Level.peak ⟨waiting :: outer, 0⟩ (p.symbols ++ [.closing])) = _
    rw [Level.peak_append, after_symbols, hopen]
    show max _ (max _ (max (Level.depth ⟨waiting :: outer, 0⟩) (Level.depth ⟨outer, 0⟩))) = _
    rw [nesting]
    omega
  | plain p ih => exact ih outer waiting trivial
  | neg p ih =>
    have hinner := ih outer (waiting + 1) trivial
    have hdepth := Level.depth_eq outer waiting
    have hdepth' := Level.depth_eq outer (waiting + 1)
    show max (Level.depth ⟨outer, waiting⟩) (Level.peak ⟨outer, waiting + 1⟩ p.symbols) = _
    rw [hinner, nesting]
    omega
  | conjunct p ih => exact ih outer waiting trivial
  | conj p q ihp ihq =>
    subst h
    have hq := ihq outer 0 trivial
    rw [symbols, Level.peak_append, after_symbols, ihp outer 0 rfl]
    show max _ (max (Level.depth ⟨outer, 0⟩) (Level.peak ⟨outer, 0⟩ q.symbols)) = _
    rw [hq, nesting]
    omega
  | disjunct p ih => exact ih outer waiting h
  | disj p q ihp ihq =>
    subst h
    have hq := ihq outer 0 rfl
    rw [symbols, Level.peak_append, after_symbols, ihp outer 0 rfl]
    show max _ (max (Level.depth ⟨outer, 0⟩) (Level.peak ⟨outer, 0⟩ q.symbols)) = _
    rw [hq, nesting]
    omega

theorem deepest_symbols (p : Phrase .disjunction) : deepest p.symbols = p.nesting := by
  unfold deepest
  rw [p.peak_symbols Level.start rfl]
  exact Nat.zero_add _

end Phrase

end GuardedMachines.Condition
