import GuardedMachines.Machine.Event
import Mathlib.Data.List.Induction
import Mathlib.Tactic.Tauto

/-!
Inserting and placing are two ways to enter a member into an ascending list.
Whichever is used, the list stays ascending, gains only that member and holds
what compares equal to it. A list built from members in any order therefore
stands for exactly the set of these members, and two event sets intersect if an
event is in both.
-/

namespace GuardedMachines

instance : Std.TransOrd Variable :=
  inferInstanceAs (Std.TransCmp (compareOn fun v : Variable => v.id.number))

instance : Std.TransOrd Event :=
  inferInstanceAs (Std.TransCmp (compareLex (compareOn Event.kind)
    (compareLex (compareOn Event.name)
      (compareLex (compareOn fun e => e.subject.1) (compareOn fun e => e.subject.2)))))

theorem Variable.beq_iff (v w : Variable) : (v == w) = true ↔ v.id = w.id := by
  show (v.id == w.id) = true ↔ _
  exact beq_iff_eq

theorem Variable.compare_eq_iff (v w : Variable) : compare v w = .eq ↔ v.id = w.id := by
  obtain ⟨⟨i, hi⟩, -, -⟩ := v
  obtain ⟨⟨j, hj⟩, -, -⟩ := w
  show compare i j = .eq ↔ _
  simp

theorem Variable.compare_lt_iff (v w : Variable) :
    compare v w = .lt ↔ v.id.number < w.id.number :=
  Nat.compare_eq_lt

namespace Ascending

variable {α : Type} [Ord α] {a b : α} {l l' : List α}

def Sorted (l : List α) : Prop := l.Pairwise fun x y => compare x y = .lt

/-- The second list is the first one with a member entered at its place, where
a member that compares equal to it is kept or replaced. -/
inductive Entered (a : α) : List α → List α → Prop
  | last : Entered a [] [a]
  | before {b rest} (h : compare a b = .lt) : Entered a (b :: rest) (a :: b :: rest)
  | kept {b rest} (h : compare a b = .eq) : Entered a (b :: rest) (b :: rest)
  | replaced {b rest} (h : compare a b = .eq) : Entered a (b :: rest) (a :: rest)
  | after {b rest rest'} (h : compare a b = .gt) (hrest : Entered a rest rest') :
      Entered a (b :: rest) (b :: rest')

theorem entered_insert (a : α) (l : List α) : Entered a l (insert a l) := by
  induction l with
  | nil => exact .last
  | cons b rest ih =>
    unfold insert
    split
    · next h => exact .before h
    · next h => exact .kept h
    · next h => exact .after h ih

theorem entered_place (a : α) (l : List α) : Entered a l (place a l) := by
  induction l with
  | nil => exact .last
  | cons b rest ih =>
    unfold place
    split
    · next h => exact .before h
    · next h => exact .replaced h
    · next h => exact .after h ih

theorem Entered.mem_or_eq (h : Entered a l l') (hb : b ∈ l') : b = a ∨ b ∈ l := by
  induction h with
  | last => exact .inl (List.mem_singleton.mp hb)
  | before _ => exact List.mem_cons.mp hb
  | kept _ => exact .inr hb
  | replaced _ => exact (List.mem_cons.mp hb).imp id (List.mem_cons_of_mem _)
  | after _ _ ih =>
    rcases List.mem_cons.mp hb with rfl | hb
    · exact .inr List.mem_cons_self
    · exact (ih hb).imp id (List.mem_cons_of_mem _)

theorem Entered.ne_nil (h : Entered a l l') : l' ≠ [] := by
  cases h <;> exact List.cons_ne_nil _ _

theorem contains_iff : contains l a = true ↔ ∃ b ∈ l, compare a b = .eq := by
  simp [contains]

theorem ofList_append_singleton (l : List α) (a : α) :
    ofList (l ++ [a]) = place a (ofList l) := by
  simp [ofList]

theorem mem_of_mem_ofList (hb : b ∈ ofList l) : b ∈ l := by
  induction l using List.reverseRecOn with
  | nil => exact hb
  | append_singleton l a ih =>
    rw [ofList_append_singleton] at hb
    rcases (entered_place a _).mem_or_eq hb with rfl | hb
    · exact List.mem_append_right _ List.mem_cons_self
    · exact List.mem_append_left _ (ih hb)

theorem ofList_eq_nil_iff : ofList l = [] ↔ l = [] := by
  constructor
  · intro h
    cases l using List.reverseRecOn with
    | nil => rfl
    | append_singleton l a =>
      rw [ofList_append_singleton] at h
      exact absurd h (entered_place a _).ne_nil
  · rintro rfl
    rfl

variable [Std.TransOrd α]

theorem contains_congr (h : compare a b = .eq) : contains l a = contains l b := by
  unfold contains
  congr 1
  funext c
  rw [Std.TransCmp.congr_left h]

theorem Entered.contains_iff (h : Entered a l l') :
    contains l' b = true ↔ compare b a = .eq ∨ contains l b = true := by
  induction h with
  | last => simp [contains]
  | before _ => simp [contains]
  | @kept c rest h =>
    have hc : compare b a = .eq ↔ compare b c = .eq := by rw [Std.TransCmp.congr_right h]
    simp only [contains, List.any_cons, Bool.or_eq_true, beq_iff_eq, hc]
    tauto
  | @replaced c rest h =>
    have hc : compare b a = .eq ↔ compare b c = .eq := by rw [Std.TransCmp.congr_right h]
    simp only [contains, List.any_cons, Bool.or_eq_true, beq_iff_eq, hc]
    tauto
  | @after c rest rest' _ _ ih =>
    simp only [contains, List.any_cons, Bool.or_eq_true] at ih ⊢
    rw [ih]
    tauto

theorem Entered.sorted (h : Entered a l l') (hl : Sorted l) : Sorted l' := by
  induction h with
  | last => exact List.pairwise_singleton _ _
  | @before b rest h =>
    refine List.pairwise_cons.mpr ⟨?_, hl⟩
    intro x hx
    rcases List.mem_cons.mp hx with rfl | hx
    · exact h
    · exact Std.TransCmp.lt_trans h ((List.pairwise_cons.mp hl).1 x hx)
  | kept _ => exact hl
  | replaced h =>
    obtain ⟨hhead, hrest⟩ := List.pairwise_cons.mp hl
    exact List.pairwise_cons.mpr ⟨fun x hx => Std.TransCmp.lt_of_eq_of_lt h (hhead x hx), hrest⟩
  | after h hentered ih =>
    obtain ⟨hhead, hrest⟩ := List.pairwise_cons.mp hl
    refine List.pairwise_cons.mpr ⟨?_, ih hrest⟩
    intro x hx
    rcases hentered.mem_or_eq hx with rfl | hx
    · exact Std.OrientedCmp.gt_iff_lt.mp h
    · exact hhead x hx

theorem sorted_ofList (l : List α) : Sorted (ofList l) := by
  induction l using List.reverseRecOn with
  | nil => exact .nil
  | append_singleton l a ih =>
    rw [ofList_append_singleton]
    exact (entered_place a _).sorted ih

theorem contains_ofList : contains (ofList l) b = true ↔ contains l b = true := by
  induction l using List.reverseRecOn with
  | nil => exact Iff.rfl
  | append_singleton l a ih =>
    rw [ofList_append_singleton, (entered_place a _).contains_iff, ih]
    simp only [contains, List.any_append, List.any_cons, List.any_nil, Bool.or_false,
      Bool.or_eq_true, beq_iff_eq]
    exact or_comm

end Ascending

namespace EventSet

theorem intersects_iff (s t : EventSet) :
    s.intersects t = true ↔ ∃ e, s.contains e = true ∧ t.contains e = true := by
  unfold intersects
  rw [List.any_eq_true]
  constructor
  · rintro ⟨e, he, ht⟩
    exact ⟨e, Ascending.contains_iff.mpr ⟨e, he, Std.ReflCmp.compare_self⟩, ht⟩
  · rintro ⟨e, hs, ht⟩
    obtain ⟨x, hx, hex⟩ := Ascending.contains_iff.mp hs
    refine ⟨x, hx, ?_⟩
    unfold contains at *
    rwa [← Ascending.contains_congr hex]

theorem intersects_comm (s t : EventSet) : s.intersects t = t.intersects s := by
  rw [Bool.eq_iff_iff, intersects_iff, intersects_iff]
  exact exists_congr fun e => and_comm

end EventSet

end GuardedMachines
