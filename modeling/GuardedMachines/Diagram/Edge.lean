import GuardedMachines.Diagram.Word

/-!
Edges of a decision diagram. An edge is a word. Its magnitude is the index of the
node it leads to and its sign says whether the function of that node is negated,
so negation costs nothing. The node of index one is the terminal. Indices from
2147483648 on do not fit beside the sign: the edge to such a node is that of
another index, or a negated one.
-/

namespace GuardedMachines.Diagram

structure Edge where
  code : Int32
deriving DecidableEq

namespace Edge

/-- The least word is its own negation. -/
instance : Neg Edge := ⟨fun e => ⟨-e.code⟩⟩

instance : Ord Edge := ⟨fun d e => compare d.code e.code⟩

@[simp] theorem neg_neg (e : Edge) : - -e = e := congrArg Edge.mk Int32.neg_neg

/-- The edge to an index, which is read as a word. -/
def toNode (index : Nat) : Edge := ⟨.ofNat index⟩

def one : Edge := toNode 1

def zero : Edge := -one

def index (e : Edge) : Nat := Word.magnitude e.code

def isNegated (e : Edge) : Bool := decide (e.code < 0)

def isTerminal (e : Edge) : Bool := e.index == 1

def regular (e : Edge) : Edge := toNode e.index

def negateIf (e : Edge) (b : Bool) : Edge := if b then -e else e

/-- Negation that rejects the least word. -/
def negateChecked (e : Edge) : Except Misuse Edge := (Word.negateChecked e.code).map mk

def regularChecked (e : Edge) : Except Misuse Edge :=
  if e.isNegated then e.negateChecked else .ok e

def text (e : Edge) : String := (if e.isNegated then "~@" else "@") ++ toString e.index

theorem isNegated_eq (e : Edge) : e.isNegated = decide (e.code.toInt < 0) :=
  decide_eq_decide.mpr Int32.lt_iff_toInt_lt

/-- The least word is the only one of index 2147483648. -/
theorem code_ne_minValue {e : Edge} (h : e.index < 2147483648) : e.code ≠ Int32.minValue := by
  intro hcode
  rw [index, hcode] at h
  exact absurd h (by decide)

@[simp] theorem index_neg (e : Edge) : (-e).index = e.index := Word.magnitude_neg e.code

theorem index_toNode {i : Nat} (h : i < 2147483648) : (toNode i).index = i :=
  Word.magnitude_ofNat h

theorem isNegated_toNode {i : Nat} (h : i < 2147483648) : (toNode i).isNegated = false := by
  rw [isNegated_eq]
  change decide ((Int32.ofNat i).toInt < 0) = false
  rw [Word.toInt_ofNat_of_lt h]
  exact decide_eq_false (by omega)

/-- Checked negation is negation on every word but the least. -/
theorem negateChecked_eq {e : Edge} (h : e.index < 2147483648) : e.negateChecked = .ok (-e) := by
  rw [negateChecked, Word.negateChecked, if_neg (code_ne_minValue h)]
  rfl

/-- An edge is the regular edge to its node, or the negation of that. -/
theorem eq_toNode_or_neg (e : Edge) :
    e.isNegated = false ∧ e = toNode e.index ∨ e.isNegated = true ∧ e = -toNode e.index := by
  obtain ⟨code⟩ := e
  rw [isNegated_eq]
  by_cases hcode : code.toInt < 0
  · refine Or.inr ⟨decide_eq_true hcode, congrArg Edge.mk ?_⟩
    exact (Word.neg_ofNat_magnitude hcode).symm
  · refine Or.inl ⟨decide_eq_false hcode, congrArg Edge.mk ?_⟩
    exact (Word.ofNat_magnitude (Int.not_lt.mp hcode)).symm

theorem regular_cases (e : Edge) :
    e.isNegated = false ∧ e.regular = e ∨ e.isNegated = true ∧ e.regular = -e := by
  rcases e.eq_toNode_or_neg with ⟨hsign, heq⟩ | ⟨hsign, heq⟩
  · exact Or.inl ⟨hsign, heq.symm⟩
  · refine Or.inr ⟨hsign, ?_⟩
    have hneg := congrArg (- ·) heq
    simpa [regular] using hneg.symm

theorem regularChecked_eq {e : Edge} (h : e.index < 2147483648) :
    e.regularChecked = .ok e.regular := by
  unfold regularChecked
  rcases e.regular_cases with ⟨hsign, heq⟩ | ⟨hsign, heq⟩
  · rw [hsign, heq]
    rfl
  · rw [hsign, heq, if_pos rfl, negateChecked_eq h]

end Edge

end GuardedMachines.Diagram
