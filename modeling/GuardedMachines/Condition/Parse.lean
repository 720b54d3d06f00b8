import GuardedMachines.Condition.Reader
import GuardedMachines.Formula.Text
import GuardedMachines.Trace

/-!
From a condition text to a formula over a variable table. A blank text is the
absent condition. The table is returned whether or not the text was accepted.
-/

namespace GuardedMachines.Condition

structure Parsed where
  result : Except ConditionError (Option Formula)
  table : VariableTable

def parseTokens (table : VariableTable) (tokens : List Token) (stop : Nat) : Parsed :=
  match (Reader.start table).run tokens with
  | (r, some e) => ⟨.error e, r.table⟩
  | (r, none) => ⟨(r.finish stop).map some, r.table⟩

def parse (table : VariableTable) (text : String) : Parsed :=
  match tokens text with
  | .error e => ⟨.error e, table⟩
  | .ok [] => ⟨.ok none, table⟩
  | .ok tokens => parseTokens table tokens text.utf8ByteSize

/-- A condition that was read leaves one record. -/
def parseTraced (table : VariableTable) (text : String) : Traced Parsed :=
  let parsed := parse table text
  match parsed.result with
  | .ok (some f) =>
    ⟨parsed, [.debug fun _ => "parsed '" ++ text ++ "' as '" ++ f.text ++ "'"]⟩
  | _ => ⟨parsed, []⟩

theorem value_parseTraced (table : VariableTable) (text : String) :
    (parseTraced table text).value = parse table text := by
  unfold parseTraced
  dsimp only
  split <;> rfl

end GuardedMachines.Condition
