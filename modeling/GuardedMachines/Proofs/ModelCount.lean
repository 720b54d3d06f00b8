import Mathlib.Data.Finset.Powerset

/-!
Counting assignments. An assignment of finitely many variables is given by the
set of those that are true. The count of the assignments that satisfy a function
splits at a variable, doubles with a variable on which the function does not
depend, and is kept by a renaming of the variables.
-/

namespace GuardedMachines

variable {α β : Type} [DecidableEq α] [DecidableEq β]

def trueOn (A : Finset α) (v : α) : Bool := decide (v ∈ A)

/-- How many assignments of the given variables satisfy a function. -/
def modelCount (V : Finset α) (P : (α → Bool) → Bool) : Nat :=
  (V.powerset.filter fun A => P (trueOn A) = true).card

theorem modelCount_congr {V : Finset α} {P Q : (α → Bool) → Bool}
    (h : ∀ A ⊆ V, P (trueOn A) = Q (trueOn A)) : modelCount V P = modelCount V Q := by
  unfold modelCount
  congr 1
  apply Finset.filter_congr
  intro A hA
  rw [h A (Finset.mem_powerset.mp hA)]

theorem modelCount_true (V : Finset α) : modelCount V (fun _ => true) = 2 ^ V.card := by
  simp [modelCount]

theorem modelCount_add_not (V : Finset α) (P : (α → Bool) → Bool) :
    modelCount V P + modelCount V (fun ρ => !P ρ) = 2 ^ V.card := by
  have hsplit := V.powerset.card_filter_add_card_filter_not fun A => P (trueOn A) = true
  rw [Finset.card_powerset] at hsplit
  simpa [modelCount] using hsplit

theorem modelCount_le (V : Finset α) (P : (α → Bool) → Bool) : modelCount V P ≤ 2 ^ V.card := by
  have := modelCount_add_not V P
  omega

theorem modelCount_not (V : Finset α) (P : (α → Bool) → Bool) :
    modelCount V (fun ρ => !P ρ) = 2 ^ V.card - modelCount V P := by
  have := modelCount_add_not V P
  omega

theorem modelCount_pos {V : Finset α} {P : (α → Bool) → Bool} {A : Finset α} (hA : A ⊆ V)
    (hP : P (trueOn A) = true) : 1 ≤ modelCount V P := by
  apply Finset.card_pos.mpr
  exact ⟨A, Finset.mem_filter.mpr ⟨Finset.mem_powerset.mpr hA, hP⟩⟩

theorem trueOn_update_false {A : Finset α} {v : α} (hv : v ∉ A) :
    Function.update (trueOn A) v false = trueOn A := by
  funext w
  by_cases hw : w = v
  · subst w
    simp [trueOn, hv]
  · simp [hw]

theorem trueOn_insert (A : Finset α) (v : α) :
    trueOn (insert v A) = Function.update (trueOn A) v true := by
  funext w
  by_cases hw : w = v
  · subst w
    simp [trueOn]
  · simp [trueOn, hw]

/-- The count splits at a variable. -/
theorem modelCount_insert {V : Finset α} {v : α} (hv : v ∉ V) (P : (α → Bool) → Bool) :
    modelCount (insert v V) P =
      modelCount V (fun ρ => P (Function.update ρ v false)) +
        modelCount V (fun ρ => P (Function.update ρ v true)) := by
  have hnotMem : ∀ A ∈ V.powerset, v ∉ A := fun A hA hmem => hv (Finset.mem_powerset.mp hA hmem)
  have hdisjoint : Disjoint (V.powerset.filter fun A => P (trueOn A) = true)
      ((V.powerset.image (insert v)).filter fun A => P (trueOn A) = true) := by
    rw [Finset.disjoint_left]
    intro A hA hA'
    obtain ⟨B, -, rfl⟩ := Finset.mem_image.mp (Finset.mem_filter.mp hA').1
    exact hnotMem _ (Finset.mem_filter.mp hA).1 (Finset.mem_insert_self v B)
  have hinjective : Set.InjOn (insert v)
      (V.powerset.filter fun A => P (trueOn (insert v A)) = true : Set (Finset α)) := by
    intro A hA B hB heq
    have hAv := hnotMem A (Finset.mem_filter.mp hA).1
    have hBv := hnotMem B (Finset.mem_filter.mp hB).1
    rw [← Finset.erase_insert hAv, heq, Finset.erase_insert hBv]
  have hfalse : modelCount V (fun ρ => P (Function.update ρ v false)) = modelCount V P := by
    apply modelCount_congr
    intro A hA
    rw [trueOn_update_false fun hmem => hv (hA hmem)]
  rw [hfalse]
  unfold modelCount
  rw [Finset.powerset_insert, Finset.filter_union, Finset.card_union_of_disjoint hdisjoint,
    Finset.filter_image, Finset.card_image_of_injOn (by simpa using hinjective)]
  simp only [trueOn_insert]

/-- A variable on which the function does not depend doubles the count. -/
theorem modelCount_insert_of_free {V : Finset α} {v : α} (hv : v ∉ V) {P : (α → Bool) → Bool}
    (hfree : ∀ ρ b, P (Function.update ρ v b) = P ρ) :
    modelCount (insert v V) P = 2 * modelCount V P := by
  have hsame : ∀ b, modelCount V (fun ρ => P (Function.update ρ v b)) = modelCount V P :=
    fun b => modelCount_congr fun A _ => hfree (trueOn A) b
  rw [modelCount_insert hv, hsame, hsame]
  omega

/-- Each variable on which the function does not depend doubles the count. -/
theorem modelCount_union_of_free {V W : Finset α} (hdisjoint : Disjoint V W)
    {P : (α → Bool) → Bool} (hfree : ∀ v ∈ W, ∀ ρ b, P (Function.update ρ v b) = P ρ) :
    modelCount (V ∪ W) P = 2 ^ W.card * modelCount V P := by
  induction W using Finset.induction_on with
  | empty => simp
  | insert v W hv ih =>
    rw [Finset.disjoint_insert_right] at hdisjoint
    have hnot : v ∉ V ∪ W := by simp [hdisjoint.1, hv]
    have hrest := ih hdisjoint.2 fun w hw => hfree w (Finset.mem_insert_of_mem hw)
    rw [Finset.union_insert, modelCount_insert_of_free hnot (hfree v (Finset.mem_insert_self v W)),
      hrest, Finset.card_insert_of_notMem hv, pow_succ', mul_assoc]

/-- Renaming the variables keeps the count. -/
theorem modelCount_image {V : Finset α} {e : α → β} (he : Set.InjOn e V)
    {P : (β → Bool) → Bool} {Q : (α → Bool) → Bool}
    (h : ∀ A ⊆ V, P (trueOn (A.image e)) = Q (trueOn A)) :
    modelCount (V.image e) P = modelCount V Q := by
  have hinjective : Set.InjOn (Finset.image e) (V.powerset : Set (Finset α)) := by
    intro A hA B hB heq
    have hA' : A ⊆ V := Finset.mem_powerset.mp hA
    have hB' : B ⊆ V := Finset.mem_powerset.mp hB
    ext v
    constructor
    · intro hv
      obtain ⟨w, hw, hwv⟩ := Finset.mem_image.mp (heq ▸ Finset.mem_image_of_mem e hv)
      rwa [← he (hB' hw) (hA' hv) hwv]
    · intro hv
      obtain ⟨w, hw, hwv⟩ := Finset.mem_image.mp (heq ▸ Finset.mem_image_of_mem e hv)
      rwa [← he (hA' hw) (hB' hv) hwv]
  have hpowerset : (V.image e).powerset = V.powerset.image (Finset.image e) :=
    Finset.powerset_image
  unfold modelCount
  rw [hpowerset, Finset.filter_image, Finset.card_image_of_injOn]
  · congr 1
    apply Finset.filter_congr
    intro A hA
    rw [h A (Finset.mem_powerset.mp hA)]
  · exact hinjective.mono fun A hA => (Finset.mem_filter.mp hA).1

end GuardedMachines
