import GuardedMachines.Proofs.Condition.Acceptance
import Mathlib.Data.Nat.Log

/-!
The height of a formula that was read. A level of joining neighbours turns a
forest over the operands into a forest over the same operands with half as many
trees, each at most one level taller; so a balanced tree has the operands from
left to right below at most as many levels as the logarithm of their number.
A chain in the text therefore adds a logarithm of the length of the text, and
what is nested in the text is limited, so that formulas stay shallow however
long the text is.
-/

namespace GuardedMachines

def Formula.height : Formula → Nat
  | atom _ => 0
  | neg f => f.height + 1
  | conj p q => max p.height q.height + 1
  | disj p q => max p.height q.height + 1

namespace Condition

section Joined

variable {α : Type} {join : α → α → α} {levels : Nat}

/-- A tree over the operands, from left to right, with at most so many levels of the connective. -/
inductive Joined (join : α → α → α) : Nat → List α → α → Prop
  | operand (levels : Nat) (p : α) : Joined join levels [p] p
  | pair {levels : Nat} {left right : List α} {p q : α} (hp : Joined join levels left p)
      (hq : Joined join levels right q) : Joined join (levels + 1) (left ++ right) (join p q)

theorem Joined.succ {operands : List α} {p : α} (h : Joined join levels operands p) :
    Joined join (levels + 1) operands p := by
  induction h with
  | operand levels p => exact .operand (levels + 1) p
  | pair _ _ ihp ihq => exact .pair ihp ihq

inductive Forest (join : α → α → α) (levels : Nat) : List α → List α → Prop
  | nil : Forest join levels [] []
  | cons {operands rest : List α} {p : α} {trees : List α} (hp : Joined join levels operands p)
      (hrest : Forest join levels rest trees) : Forest join levels (operands ++ rest) (p :: trees)

theorem forest_operands (join : α → α → α) (operands : List α) :
    Forest join 0 operands operands := by
  induction operands with
  | nil => exact .nil
  | cons p operands ih => exact .cons (.operand 0 p) ih

theorem Forest.joined {operands : List α} {p : α} (h : Forest join levels operands [p]) :
    Joined join levels operands p := by
  cases h with
  | cons hp hrest =>
    cases hrest
    rw [List.append_nil]
    exact hp

theorem Forest.succ {operands trees : List α} (h : Forest join levels operands trees) :
    Forest join (levels + 1) operands trees := by
  induction h with
  | nil => exact .nil
  | cons hp _ ih => exact .cons hp.succ ih

/-- One level keeps the operands. -/
theorem Forest.joinPairs {operands trees : List α} (h : Forest join levels operands trees) :
    Forest join (levels + 1) operands (joinPairs join trees) := by
  fun_induction Condition.joinPairs join trees generalizing operands with
  | case1 p q rest ih =>
    cases h with
    | cons hp htail =>
      cases htail with
      | cons hq hrest =>
        rw [← List.append_assoc]
        exact .cons (.pair hp hq) (ih hrest)
  | case2 trees => exact h.succ

/-- One level halves the number of trees. -/
theorem length_joinPairs (join : α → α → α) (trees : List α) :
    (joinPairs join trees).length = (trees.length + 1) / 2 := by
  fun_induction joinPairs join trees with
  | case1 p q rest ih =>
    simp only [List.length_cons, ih]
    omega
  | case2 trees hshort =>
    -- There is at most one tree, since no two neighbours were found.
    cases trees with
    | nil => simp
    | cons p rest =>
      cases rest with
      | nil => simp
      | cons q rest => exact absurd rfl (hshort p q rest)

theorem repeat_joinPairs_single (join : α → α → α) (rounds : Nat) (p : α) :
    Nat.repeat (joinPairs join) rounds [p] = [p] := by
  induction rounds with
  | zero => rfl
  | succ rounds ih =>
    rw [Nat.repeat, ih]
    simp only [joinPairs]

/-- As many levels as the logarithm of their number leave a single tree, and those that follow
change nothing. -/
theorem Forest.exists_tree {operands trees : List α} {more rounds : Nat}
    (h : Forest join levels operands trees) (hpositive : 0 < trees.length)
    (hlog : Nat.clog 2 trees.length ≤ more) (hrounds : more ≤ rounds) :
    ∃ p, Nat.repeat (Condition.joinPairs join) rounds trees = [p] ∧
      Joined join (levels + more) operands p := by
  induction more generalizing levels trees rounds with
  | zero =>
    have hlength := (Nat.clog_le_iff_le_pow Nat.one_lt_two).mp hlog
    have hone : trees.length = 1 := Nat.le_antisymm hlength hpositive
    obtain ⟨p, rfl⟩ := List.length_eq_one_iff.mp hone
    exact ⟨p, repeat_joinPairs_single join rounds p, h.joined⟩
  | succ more ih =>
    obtain ⟨rounds, rfl⟩ : ∃ n, rounds = n + 1 := ⟨rounds - 1, by omega⟩
    have hlength := (Nat.clog_le_iff_le_pow Nat.one_lt_two).mp hlog
    rw [Nat.pow_succ] at hlength
    have hhalf := length_joinPairs join trees
    have hshort : Nat.clog 2 (Condition.joinPairs join trees).length ≤ more := by
      apply Nat.clog_le_of_le_pow
      omega
    obtain ⟨p, hp, hjoined⟩ := ih h.joinPairs (by omega) hshort (Nat.le_of_succ_le_succ hrounds)
    refine ⟨p, ?_, ?_⟩
    · rw [repeat_succ_apply, hp]
    · rw [Nat.add_right_comm] at hjoined
      exact hjoined

/-- A balanced tree is no taller than the logarithm of the number of its operands. -/
theorem joined_balanced (join : α → α → α) (before : List α) (last : α) :
    Joined join (Nat.clog 2 (before ++ [last]).length) (before ++ [last])
      (balanced join before last) := by
  have hrounds : Nat.clog 2 (before ++ [last]).length ≤ (before ++ [last]).length :=
    Nat.clog_le_of_le_pow Nat.lt_two_pow_self.le
  obtain ⟨p, hp, hjoined⟩ :=
    (forest_operands join (before ++ [last])).exists_tree (by simp) (Nat.le_refl _) hrounds
  rw [Nat.zero_add] at hjoined
  unfold balanced
  dsimp only
  rw [hp]
  exact hjoined

end Joined

/-- A connective puts both of its operands one level down. -/
theorem height_connective {join : Formula → Formula → Formula}
    (hjoin : join = .conj ∨ join = .disj) (p q : Formula) :
    (join p q).height = max p.height q.height + 1 := by
  rcases hjoin with rfl | rfl <;> rfl

theorem Joined.height_le {join : Formula → Formula → Formula}
    (hjoin : join = .conj ∨ join = .disj) {levels tallest : Nat} {operands : List Formula}
    {f : Formula} (h : Joined join levels operands f)
    (hoperands : ∀ g ∈ operands, g.height ≤ tallest) : f.height ≤ tallest + levels := by
  induction h with
  | operand levels p =>
    have hp := hoperands p List.mem_cons_self
    omega
  | pair _ _ ihp ihq =>
    rw [List.forall_mem_append] at hoperands
    have hp := ihp hoperands.1
    have hq := ihq hoperands.2
    rw [height_connective hjoin]
    omega

theorem height_balanced_le {join : Formula → Formula → Formula}
    (hjoin : join = .conj ∨ join = .disj) {before : List Formula} {last : Formula}
    {tallest : Nat} (hoperands : ∀ g ∈ before ++ [last], g.height ≤ tallest) :
    (balanced join before last).height ≤ tallest + Nat.clog 2 (before ++ [last]).length :=
  (joined_balanced join before last).height_le hjoin hoperands

/-- The same of operands that were collected with the latest first. -/
theorem height_balanced_reverse_le {join : Formula → Formula → Formula}
    (hjoin : join = .conj ∨ join = .disj) {collected : List Formula} {last : Formula}
    {tallest n : Nat} (hcollected : ∀ g ∈ collected, g.height ≤ tallest)
    (hlast : last.height ≤ tallest) (hlength : collected.length < n) :
    (balanced join collected.reverse last).height ≤ tallest + Nat.clog 2 n := by
  have hoperands : ∀ g ∈ collected.reverse ++ [last], g.height ≤ tallest := by
    rw [List.forall_mem_append]
    exact ⟨fun g hg => hcollected g (List.mem_reverse.mp hg), by simpa using hlast⟩
  have hle := height_balanced_le hjoin hoperands
  have hlog : Nat.clog 2 (collected.reverse ++ [last]).length ≤ Nat.clog 2 n := by
    apply Nat.clog_mono_right
    simp only [List.length_append, List.length_reverse, List.length_singleton]
    omega
  omega

/-- What a reader has collected is bounded: a conjunct is no chain itself, and a disjunct is a
chain of conjuncts. -/
structure Operands.Below (operands : Operands) (last : Formula) (tallest levels : Nat) : Prop where
  last : last.height ≤ tallest
  conjuncts : ∀ f ∈ operands.conjuncts, f.height ≤ tallest
  disjuncts : ∀ f ∈ operands.disjuncts, f.height ≤ tallest + levels

namespace Operands.Below

variable {operands : Operands} {last : Formula} {tallest n : Nat}

theorem none {levels : Nat} (hlast : last.height ≤ tallest) :
    Operands.none.Below last tallest levels :=
  ⟨hlast, List.forall_mem_nil _, List.forall_mem_nil _⟩

theorem height_disjunct_le (h : operands.Below last tallest (Nat.clog 2 n))
    (hconjuncts : operands.conjuncts.length < n) :
    (operands.disjunct last).height ≤ tallest + Nat.clog 2 n :=
  height_balanced_reverse_le (.inl rfl) h.conjuncts h.last hconjuncts

theorem height_disjunction_le (h : operands.Below last tallest (Nat.clog 2 n))
    (hconjuncts : operands.conjuncts.length < n) (hdisjuncts : operands.disjuncts.length < n) :
    (operands.disjunction last).height ≤ tallest + 2 * Nat.clog 2 n := by
  have hle := height_balanced_reverse_le (.inr rfl) h.disjuncts (h.height_disjunct_le hconjuncts)
    hdisjuncts
  rw [Nat.two_mul, ← Nat.add_assoc]
  exact hle

end Operands.Below

namespace Phrase

variable {k : Rank} (ν : String → Variable)

/-- Every operand of a chain takes a symbol of its own. -/
theorem length_reading_lt (p : Phrase k) :
    (p.reading ν).1.conjuncts.length < p.symbols.length ∧
      (p.reading ν).1.disjuncts.length < p.symbols.length := by
  induction p with
  | name n => exact ⟨Nat.one_pos, Nat.one_pos⟩
  | group p ih => exact ⟨Nat.succ_pos _, Nat.succ_pos _⟩
  | plain p ih => exact ih
  | neg p ih => exact ⟨Nat.succ_pos _, Nat.succ_pos _⟩
  | conjunct p ih => exact ih
  | conj p q ihp ihq =>
    simp only [reading, Operands.andThen, symbols, List.length_cons, List.length_append]
    omega
  | disjunct p ih => exact ih
  | disj p q ihp ihq =>
    simp only [reading, Operands.orThen, symbols, List.length_cons, List.length_append]
    omega

/-- In a phrase of at most `n` symbols each level of nesting adds itself and two chains, one of
conjuncts within one of disjuncts. -/
theorem below_reading {n depth : Nat} (p : Phrase k) (hlength : p.symbols.length ≤ n)
    (hnesting : p.nesting ≤ depth) :
    (p.reading ν).1.Below (p.reading ν).2 (depth * (2 * Nat.clog 2 n + 1)) (Nat.clog 2 n) := by
  induction p generalizing depth with
  | name m => exact .none (Nat.zero_le _)
  | group p ih =>
    simp only [symbols, List.length_cons, List.length_append] at hlength
    rw [nesting] at hnesting
    obtain ⟨depth, rfl⟩ : ∃ d, depth = d + 1 := ⟨depth - 1, by omega⟩
    have hinner := ih (by omega) (Nat.le_of_succ_le_succ hnesting)
    have hshort := p.length_reading_lt ν
    have hle := hinner.height_disjunction_le (by omega) (by omega)
    apply Operands.Below.none
    rw [Nat.succ_mul]
    exact hle.trans (by omega)
  | plain p ih => exact ih hlength hnesting
  | neg p ih =>
    rw [nesting] at hnesting
    obtain ⟨depth, rfl⟩ : ∃ d, depth = d + 1 := ⟨depth - 1, by omega⟩
    have hle := (ih (Nat.le_of_succ_le hlength) (Nat.le_of_succ_le_succ hnesting)).last
    apply Operands.Below.none
    rw [Nat.succ_mul]
    show (p.reading ν).2.height + 1 ≤ _
    omega
  | conjunct p ih => exact ih hlength hnesting
  | conj p q ihp ihq =>
    simp only [symbols, List.length_cons, List.length_append] at hlength
    rw [nesting, Nat.max_le] at hnesting
    have hp := ihp (by omega) hnesting.1
    have hq := ihq (by omega) hnesting.2
    exact ⟨hq.last, List.forall_mem_cons.mpr ⟨hp.last, hp.conjuncts⟩, hp.disjuncts⟩
  | disjunct p ih => exact ih hlength hnesting
  | disj p q ihp ihq =>
    simp only [symbols, List.length_cons, List.length_append] at hlength
    rw [nesting, Nat.max_le] at hnesting
    have hp := ihp (by omega) hnesting.1
    have hq := ihq (by omega) hnesting.2
    have hshort := (p.length_reading_lt ν).1
    have hdisjunct := hp.height_disjunct_le (by omega)
    exact ⟨hq.last, hq.conjuncts, List.forall_mem_cons.mpr ⟨hdisjunct, hp.disjuncts⟩⟩

theorem height_formula_le {depth : Nat} (p : Phrase k) (hnesting : p.nesting ≤ depth) :
    (p.formula ν).height ≤
      depth * (2 * Nat.clog 2 p.symbols.length + 1) + 2 * Nat.clog 2 p.symbols.length := by
  have hshort := p.length_reading_lt ν
  exact (p.below_reading ν (Nat.le_refl _) hnesting).height_disjunction_le hshort.1 hshort.2

end Phrase

/-- An accepted text is read as the formula of a phrase that has as many symbols as the text
has tokens. -/
theorem exists_phrase_of_parse {table : VariableTable} {text : String} {f : Formula}
    (hf : (parse table text).result = .ok (some f)) :
    ∃ (p : Phrase .disjunction) (ν : String → Variable) (found : List Token),
      p.formula ν = f ∧ p.nesting ≤ maxNesting ∧ tokens text = .ok found ∧
        p.symbols.length = found.length := by
  obtain ⟨p, hp⟩ := parse_eq_some_iff.mp ⟨f, hf⟩
  obtain ⟨hwritten, hnesting, -⟩ := conforms_iff.mp hp
  obtain ⟨found, hfound, hsymbols⟩ := written_iff_tokens.mp hwritten
  rw [parse_of_conforms hp] at hf
  cases hf
  exact ⟨p, _, found, rfl, hnesting, hfound, by rw [← hsymbols, List.length_map]⟩

/-- Balanced chains keep their operands in order below a logarithm of levels, and whatever is
read is shallow. -/
theorem height_logarithmic :
    (∀ (α : Type) (join : α → α → α) (before : List α) (last : α),
      Joined join (Nat.clog 2 (before ++ [last]).length) (before ++ [last])
        (balanced join before last)) ∧
    (∀ (join : Formula → Formula → Formula) (before : List Formula) (last : Formula)
      (tallest : Nat), join = .conj ∨ join = .disj →
      (∀ g ∈ before ++ [last], g.height ≤ tallest) →
      (balanced join before last).height ≤ tallest + Nat.clog 2 (before ++ [last]).length) ∧
    ∀ (table : VariableTable) (text : String) (f : Formula),
      (parse table text).result = .ok (some f) →
      ∃ found, tokens text = .ok found ∧ f.height ≤ 64 + 130 * Nat.clog 2 found.length := by
  refine ⟨fun _ => joined_balanced, fun _ _ _ _ hjoin => height_balanced_le hjoin, ?_⟩
  intro table text f hf
  obtain ⟨p, ν, found, rfl, hnesting, hfound, hlength⟩ := exists_phrase_of_parse hf
  have hle := p.height_formula_le ν hnesting
  rw [hlength, maxNesting] at hle
  exact ⟨found, hfound, by omega⟩

/-- Five disjuncts need three levels; with a negation around them they are twelve tokens. -/
theorem height_logarithmic_of_five_disjuncts :
    ∃ (p : Formula) (found : List Token),
      p.height = 0 ∧
      Joined .disj 3 [p, p, p, p, p] (balanced .disj [p, p, p, p] p) ∧
      (balanced .disj [p, p, p, p] p).height = 3 ∧
      (balanced .disj [p, p, p, p] p).height ≤ 0 + 3 ∧
      tokens "!(p|p|p|p|p)" = .ok found ∧ found.length = 12 ∧
      (parse .empty "!(p|p|p|p|p)").result = .ok (some (balanced .disj [p, p, p, p] p).neg) ∧
      (balanced .disj [p, p, p, p] p).neg.height ≤ 64 + 130 * 4 := by
  obtain ⟨hjoined, hbalanced, hparse⟩ := height_logarithmic
  have hfive : Nat.clog 2 5 = 3 := by decide +kernel
  have htwelve : Nat.clog 2 12 = 4 := by decide +kernel
  have hfound : tokens "!(p|p|p|p|p)" = .ok
      [⟨.neg, ['!'], 0⟩, ⟨.opening, ['('], 1⟩, ⟨.ident "p", ['p'], 2⟩, ⟨.disj, ['|'], 3⟩,
        ⟨.ident "p", ['p'], 4⟩, ⟨.disj, ['|'], 5⟩, ⟨.ident "p", ['p'], 6⟩, ⟨.disj, ['|'], 7⟩,
        ⟨.ident "p", ['p'], 8⟩, ⟨.disj, ['|'], 9⟩, ⟨.ident "p", ['p'], 10⟩,
        ⟨.closing, [')'], 11⟩] := by
    decide +kernel
  let p : Formula := .atom ⟨⟨1, by decide⟩, "p", .boolean⟩
  have hresult : (parse .empty "!(p|p|p|p|p)").result =
      .ok (some (balanced .disj [p, p, p, p] p).neg) := by
    rw [parse_of_tokens hfound (List.cons_ne_nil _ _)]
    rfl
  have hlevels := hjoined Formula .disj [p, p, p, p] p
  have hheight := hbalanced .disj [p, p, p, p] p 0 (.inr rfl) (by simp [p, Formula.height])
  obtain ⟨found, hfound', hshallow⟩ := hparse _ _ _ hresult
  rw [hfound] at hfound'
  cases hfound'
  exact ⟨p, _, rfl, hfive ▸ hlevels, rfl, hfive ▸ hheight, hfound, rfl, hresult,
    htwelve ▸ hshallow⟩

end Condition

end GuardedMachines
