import GuardedMachines.Condition.Token

/-!
Parts of a text by their byte offsets. A span cuts a part out of a text if its ends are in order and
lie between characters. The part is then what is left of the text without as many bytes in front as
the start of the span says and without those after its end.
-/

namespace GuardedMachines

namespace Span

/-- The ends are in order, inside the text and between characters of it. -/
def Within (span : Span) (text : String) : Prop :=
  span.start ≤ span.stop ∧ span.stop ≤ text.utf8ByteSize ∧
    String.Pos.Raw.IsValid text ⟨span.start⟩ ∧ String.Pos.Raw.IsValid text ⟨span.stop⟩

instance (span : Span) (text : String) : Decidable (span.Within text) :=
  inferInstanceAs (Decidable (_ ∧ _ ∧ _ ∧ _))

def slice? (span : Span) (text : String) : Option String :=
  if h : span.Within text then
    some (text.slice (text.pos ⟨span.start⟩ h.2.2.1) (text.pos ⟨span.stop⟩ h.2.2.2) h.1).copy
  else none

def Covers (span : Span) (offset : Nat) : Prop := span.start ≤ offset ∧ offset < span.stop

variable {span : Span} {text part : String}

theorem within_of_slice? (h : span.slice? text = some part) : span.Within text := by
  unfold slice? at h
  split at h
  · assumption
  · cases h

theorem within_append (before part after : String) :
    Within ⟨before.utf8ByteSize, before.utf8ByteSize + part.utf8ByteSize⟩
      (before ++ part ++ after) := by
  have hstart : String.Pos.Raw.IsValid (before ++ part ++ after) ⟨before.utf8ByteSize⟩ :=
    String.Pos.Raw.isValid_iff_exists_append.mpr ⟨before, part ++ after, String.append_assoc, rfl⟩
  have hstop : String.Pos.Raw.IsValid (before ++ part ++ after)
      ⟨before.utf8ByteSize + part.utf8ByteSize⟩ := by
    refine String.Pos.Raw.isValid_iff_exists_append.mpr ⟨before ++ part, after, rfl, ?_⟩
    rw [String.rawEndPos, String.utf8ByteSize_append]
  exact ⟨Nat.le_add_right _ _, hstop.le_utf8ByteSize, hstart, hstop⟩

/-- A part is found at the offsets that the text before it and the part itself give. -/
theorem slice?_eq_some_iff : span.slice? text = some part ↔
    ∃ before after, text = before ++ part ++ after ∧
      span = ⟨before.utf8ByteSize, before.utf8ByteSize + part.utf8ByteSize⟩ := by
  constructor
  · intro h
    rw [slice?, dif_pos (within_of_slice? h), Option.some.injEq] at h
    obtain ⟨before, after, hstart, hstop⟩ := String.copy_slice_eq_iff_splits.mp ⟨_, h⟩
    have hstart' : span.start = before.utf8ByteSize :=
      congrArg String.Pos.Raw.byteIdx hstart.offset_eq_rawEndPos
    have hstop' : span.stop = (before ++ part).utf8ByteSize :=
      congrArg String.Pos.Raw.byteIdx hstop.offset_eq_rawEndPos
    refine ⟨before, after, hstop.eq_append, ?_⟩
    rw [← String.utf8ByteSize_append, ← hstart', ← hstop']
  · rintro ⟨before, after, rfl, rfl⟩
    rw [slice?, dif_pos (within_append before part after), Option.some.injEq]
    refine (String.copy_slice_eq_iff_splits.mpr ⟨before, after, ?_, ?_⟩).2
    · exact ⟨String.append_assoc, rfl⟩
    · refine ⟨rfl, ?_⟩
      rw [String.rawEndPos, String.utf8ByteSize_append]
      rfl

/-- What follows a text does not change its parts. -/
theorem slice?_append (h : span.slice? text = some part) (more : String) :
    span.slice? (text ++ more) = some part := by
  obtain ⟨before, after, rfl, hspan⟩ := slice?_eq_some_iff.mp h
  exact slice?_eq_some_iff.mpr ⟨before, after ++ more, String.append_assoc, hspan⟩

/-- Nothing stands at the end of a text. -/
theorem slice?_end (text : String) :
    slice? ⟨text.utf8ByteSize, text.utf8ByteSize⟩ text = some "" :=
  slice?_eq_some_iff.mpr ⟨text, "", by simp, rfl⟩

end Span

namespace Condition

theorem byteSize_append (chars chars' : List Char) :
    byteSize (chars ++ chars') = byteSize chars + byteSize chars' := by
  induction chars with
  | nil => rw [List.nil_append, byteSize, Nat.zero_add]
  | cons c rest ih => rw [List.cons_append, byteSize, byteSize, ih, Nat.add_assoc]

theorem utf8ByteSize_ofList (chars : List Char) :
    (String.ofList chars).utf8ByteSize = byteSize chars := by
  induction chars with
  | nil => rfl
  | cons c rest ih =>
    rw [String.ofList_cons, String.utf8ByteSize_append, String.utf8ByteSize_singleton, ih, byteSize]

theorem byteSize_toList (text : String) : byteSize text.toList = text.utf8ByteSize := by
  rw [← utf8ByteSize_ofList, String.ofList_toList]

/-- Characters that stand together in a text are the part of it at their offsets. -/
theorem slice?_of_toList {text : String} {before part after : List Char}
    (h : text.toList = before ++ part ++ after) :
    Span.slice? ⟨byteSize before, byteSize before + byteSize part⟩ text =
      some (String.ofList part) := by
  refine Span.slice?_eq_some_iff.mpr ⟨String.ofList before, String.ofList after, ?_, ?_⟩
  · rw [← String.ofList_append, ← String.ofList_append, ← h, String.ofList_toList]
  · rw [utf8ByteSize_ofList, utf8ByteSize_ofList]

end Condition

end GuardedMachines
