import GuardedMachines.Diagram.Store
import GuardedMachines.Trace

/-!
One way to satisfy the function of an edge: the path that takes the high child
wherever that child is not zero. Variables off the path are unconstrained.
-/

namespace GuardedMachines.Diagram

/-- The value a path gives to a variable. -/
structure Decision where
  var : Nat
  value : Bool
deriving DecidableEq

namespace Decision

/-- The variable as a word, with its value as sign. -/
def literal (d : Decision) : Int32 := if d.value then .ofNat d.var else -.ofNat d.var

def literalChecked (d : Decision) : Except Misuse Int32 :=
  if d.value then .ok (.ofNat d.var) else Word.negateChecked (.ofNat d.var)

theorem toInt_literal {d : Decision} (h : d.var < 2147483648) :
    d.literal.toInt = if d.value then (d.var : Int) else -d.var := by
  have hvar := Word.toInt_ofNat_of_lt h
  unfold literal
  split
  · exact hvar
  · rw [Word.toInt_neg_of_ne (Word.ofNat_ne_minValue h), hvar]

theorem magnitude_literal {d : Decision} (h : d.var < 2147483648) :
    Word.magnitude d.literal = d.var := by
  rw [Word.magnitude, toInt_literal h]
  split <;> simp

/-- The sign of a literal shows the value of its variable. -/
theorem literal_pos_iff {d : Decision} (hvar : d.var ≠ 0) (h : d.var < 2147483648) :
    decide (0 < d.literal) = d.value := by
  have hliteral := toInt_literal h
  have hpos : 0 < d.literal ↔ d.value = true := by
    rw [Int32.lt_iff_toInt_lt, hliteral, show (0 : Int32).toInt = 0 from rfl]
    cases d.value with
    | true => exact ⟨fun _ => rfl, fun _ => by rw [if_pos rfl]; omega⟩
    | false =>
      exact ⟨fun h => absurd h (by rw [if_neg Bool.false_ne_true]; omega), fun h => nomatch h⟩
  rw [Bool.eq_iff_iff, decide_eq_true_iff, hpos]

theorem literalChecked_eq {d : Decision} (h : d.var < 2147483648) :
    d.literalChecked = .ok d.literal := by
  unfold literalChecked literal
  split
  · rfl
  · rw [Word.negateChecked, if_neg (Word.ofNat_ne_minValue h)]

end Decision

namespace Store

/-- The path from an edge of index less than the fuel; children have smaller indices. -/
def pathWithin : Nat → Store → Edge → List Decision
  | 0, _, _ => []
  | fuel + 1, s, e =>
    if e = .one then []
    else if s.high e = .zero then ⟨s.var e, false⟩ :: pathWithin fuel s (s.low e)
    else ⟨s.var e, true⟩ :: pathWithin fuel s (s.high e)

def path? (s : Store) (e : Edge) : Option (List Decision) :=
  if e = .zero then none else some (pathWithin (e.index + 1) s e)

def pathRecord (e : Edge) (literals : List Int32) : Record :=
  .debug fun _ => "one_sat(" ++ e.text ++ ") = [" ++ ", ".intercalate (literals.map toString) ++ "]"

/-- The literals of a path. One that was found leaves a record. -/
def pathTraced (s : Store) (e : Edge) : Traced (Option (List Int32)) :=
  match s.path? e with
  | none => pure none
  | some path =>
    let literals := path.map Decision.literal
    ⟨some literals, [pathRecord e literals]⟩

end Store

end GuardedMachines.Diagram
