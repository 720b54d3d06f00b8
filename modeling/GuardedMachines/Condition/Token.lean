import GuardedMachines.Condition.Blank
import GuardedMachines.Condition.Error

/-!
The tokens of a condition text. Words are maximal runs of ASCII letters, digits
and underscores; a word that spells a connective in any letter case is that
connective. A token keeps the characters it was written with and their span.
-/

namespace GuardedMachines.Condition

inductive Symbol where
  | ident (name : String)
  | conj
  | disj
  | neg
  | opening
  | closing
deriving DecidableEq

structure Token where
  symbol : Symbol
  lexeme : List Char
  start : Nat
deriving DecidableEq

/-- The length of the UTF-8 form. -/
def byteSize : List Char → Nat
  | [] => 0
  | c :: rest => c.utf8Size + byteSize rest

namespace Token

def text (t : Token) : String := String.ofList t.lexeme

def span (t : Token) : Span := ⟨t.start, t.start + byteSize t.lexeme⟩

end Token

def isWordChar (c : Char) : Bool := c.isAlphanum || c == '_'

def Symbol.ofWord (word : List Char) : Symbol :=
  match word.map Char.toUpper with
  | ['A', 'N', 'D'] => conj
  | ['E', 'T'] => conj
  | ['O', 'R'] => disj
  | ['O', 'U'] => disj
  | ['N', 'O', 'T'] => neg
  | ['N', 'O', 'N'] => neg
  | _ => ident (String.ofList word)

/-- The connective that a doubled or single sign stands for. -/
def Symbol.ofSign? : Char → Option Symbol
  | '&' => some conj
  | '|' => some disj
  | _ => none

/-- A symbol written by one character that never combines with its neighbours. -/
def Symbol.ofMark? : Char → Option Symbol
  | '(' => some opening
  | ')' => some closing
  | '!' => some neg
  | _ => none

/-- The symbol, the lexeme and the rest of a text whose first character is not a blank. -/
def firstToken? (c : Char) (rest : List Char) : Option (Symbol × List Char × List Char) :=
  if isWordChar c then
    let word := c :: rest.takeWhile isWordChar
    some (.ofWord word, word, rest.dropWhile isWordChar)
  else
    match Symbol.ofMark? c with
    | some mark => some (mark, [c], rest)
    | none =>
      (Symbol.ofSign? c).map fun sign =>
        if rest.head? = some c then (sign, [c, c], rest.tail) else (sign, [c], rest)

theorem lexeme_append_of_firstToken? {c : Char} {rest lexeme rest' : List Char} {symbol : Symbol}
    (h : firstToken? c rest = some (symbol, lexeme, rest')) : lexeme ++ rest' = c :: rest := by
  unfold firstToken? at h
  split at h
  · simp only [Option.some.injEq, Prod.mk.injEq] at h
    obtain ⟨-, rfl, rfl⟩ := h
    simp
  · split at h
    · simp only [Option.some.injEq, Prod.mk.injEq] at h
      obtain ⟨-, rfl, rfl⟩ := h
      simp
    · simp only [Option.map_eq_some_iff] at h
      obtain ⟨sign, -, h⟩ := h
      split at h
      · simp only [Prod.mk.injEq] at h
        obtain ⟨-, rfl, rfl⟩ := h
        cases rest <;> simp_all
      · simp only [Prod.mk.injEq] at h
        obtain ⟨-, rfl, rfl⟩ := h
        simp

theorem lexeme_ne_nil_of_firstToken? {c : Char} {rest lexeme rest' : List Char} {symbol : Symbol}
    (h : firstToken? c rest = some (symbol, lexeme, rest')) : lexeme ≠ [] := by
  unfold firstToken? at h
  split at h
  · simp only [Option.some.injEq, Prod.mk.injEq] at h
    simp [← h.2.1]
  · split at h
    · simp only [Option.some.injEq, Prod.mk.injEq] at h
      simp [← h.2.1]
    · simp only [Option.map_eq_some_iff] at h
      obtain ⟨sign, -, h⟩ := h
      split at h <;> simp only [Prod.mk.injEq] at h <;> simp [← h.2.1]

theorem length_lt_of_firstToken? {c : Char} {rest lexeme rest' : List Char} {symbol : Symbol}
    (h : firstToken? c rest = some (symbol, lexeme, rest')) :
    rest'.length < (c :: rest).length := by
  have hlength := congrArg List.length (lexeme_append_of_firstToken? h)
  have hpos := List.length_pos_iff.mpr (lexeme_ne_nil_of_firstToken? h)
  rw [List.length_append] at hlength
  omega

/-- The tokens of the characters that begin at a byte offset. -/
def tokensFrom (start : Nat) : List Char → Except ConditionError (List Token)
  | [] => .ok []
  | c :: rest =>
    if isBlank c then
      tokensFrom (start + c.utf8Size) rest
    else
      match h : firstToken? c rest with
      | some (symbol, lexeme, rest') =>
        have : rest'.length < (c :: rest).length := length_lt_of_firstToken? h
        (tokensFrom (start + byteSize lexeme) rest').map (⟨symbol, lexeme, start⟩ :: ·)
      | none => .error (.unexpectedCharacter c ⟨start, start + c.utf8Size⟩)
termination_by chars => chars.length
decreasing_by
  · exact Nat.lt_succ_self _
  · exact this

def tokens (text : String) : Except ConditionError (List Token) := tokensFrom 0 text.toList

end GuardedMachines.Condition
