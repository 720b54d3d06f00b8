import GuardedMachines.Misuse

/-!
Why a condition text is refused. Every cause carries the span of the text it is
about, counted in bytes of its UTF-8 form.
-/

namespace GuardedMachines

structure Span where
  start : Nat
  stop : Nat
deriving DecidableEq

namespace Span

/-- The span between two offsets, which must be in order. -/
def ofBounds (start stop : Nat) : Except Misuse Span :=
  if start ≤ stop then .ok ⟨start, stop⟩ else .error .reversedSpan

def length (span : Span) : Nat := span.stop - span.start

def text (span : Span) : String := toString span.start ++ ".." ++ toString span.stop

end Span

/-- What the reader could have gone on with. -/
inductive Expectation where
  | operand
  | closing
  | connective
deriving DecidableEq

def Expectation.text : Expectation → String
  | operand => "a variable, NOT or '('"
  | closing => "')'"
  | connective => "AND, OR or end of input"

inductive ConditionError where
  | unexpectedCharacter (found : Char) (span : Span)
  | unexpectedToken (found : String) (expected : Expectation) (span : Span)
  | unexpectedEnd (expected : Expectation) (span : Span)
  | unbalancedParenthesis (span : Span)
  | notBoolean (name : String) (span : Span)
  | tooDeep (limit : Nat) (span : Span)
deriving DecidableEq

namespace ConditionError

def span : ConditionError → Span
  | unexpectedCharacter _ span => span
  | unexpectedToken _ _ span => span
  | unexpectedEnd _ span => span
  | unbalancedParenthesis span => span
  | notBoolean _ span => span
  | tooDeep _ span => span

def message : ConditionError → String
  | unexpectedCharacter found span =>
    "unexpected character '" ++ found.toString ++ "' at " ++ span.text
  | unexpectedToken found expected span =>
    "unexpected token '" ++ found ++ "' at " ++ span.text ++ ", expected " ++ expected.text
  | unexpectedEnd expected span =>
    "unexpected end of input at " ++ span.text ++ ", expected " ++ expected.text
  | unbalancedParenthesis span => "unbalanced parenthesis at " ++ span.text
  | notBoolean name span =>
    "variable '" ++ name ++ "' at " ++ span.text ++
      " is not Boolean and cannot appear in a condition"
  | tooDeep limit span =>
    "condition nested deeper than " ++ toString limit ++ " levels at " ++ span.text

end ConditionError

end GuardedMachines
