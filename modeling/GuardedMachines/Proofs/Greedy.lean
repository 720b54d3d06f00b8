import Mathlib.Data.Finset.Insert
import Mathlib.Data.Set.Function
import Mathlib.Logic.Function.Basic

/-!
Greedy assignments of a Boolean function. The variables are taken one after the
other, and each choice restricts the function for those that follow: a variable is
true if what is left of the function depends on it and can still be satisfied with
it true, and false otherwise. A function and an order of its variables have one
greedy assignment, and a renaming of the variables keeps it.
-/

namespace GuardedMachines

section Renaming

variable {α β : Type} {V : Finset α} {e : α → β}

def Satisfiable (φ : (α → Bool) → Bool) : Prop := ∃ ρ, φ ρ = true

/-- The functions agree wherever the renaming makes the assignments agree on the variables. -/
def Renamed (V : Finset α) (e : α → β) (φ : (α → Bool) → Bool) (ψ : (β → Bool) → Bool) : Prop :=
  ∀ ρ σ, (∀ v ∈ V, ρ v = σ (e v)) → φ ρ = ψ σ

theorem exists_agreeing [Nonempty α] (he : Set.InjOn e V) (ρ : α → Bool) :
    ∃ σ : β → Bool, ∀ v ∈ V, ρ v = σ (e v) := by
  refine ⟨fun w => ρ (Function.invFunOn e V w), fun v hv => ?_⟩
  exact congrArg ρ (he.leftInvOn_invFunOn hv).symm

theorem Renamed.satisfiable_iff [Nonempty α] {φ : (α → Bool) → Bool} {ψ : (β → Bool) → Bool}
    (h : Renamed V e φ ψ) (he : Set.InjOn e V) : Satisfiable φ ↔ Satisfiable ψ := by
  constructor
  · rintro ⟨ρ, hρ⟩
    obtain ⟨σ, hσ⟩ := exists_agreeing he ρ
    exact ⟨σ, (h ρ σ hσ).symm.trans hρ⟩
  · rintro ⟨σ, hσ⟩
    exact ⟨fun v => σ (e v), (h _ σ fun _ _ => rfl).trans hσ⟩

end Renaming

variable {α β : Type} [DecidableEq α] [DecidableEq β]

def restrict (φ : (α → Bool) → Bool) (v : α) (b : Bool) (ρ : α → Bool) : Bool :=
  φ (Function.update ρ v b)

def DependsOn (φ : (α → Bool) → Bool) (v : α) : Prop :=
  ∃ ρ, restrict φ v true ρ ≠ restrict φ v false ρ

/-- The values chosen for the variables, in the order of the choices, are the greedy ones. -/
def Greedy (φ : (α → Bool) → Bool) : List (α × Bool) → Prop
  | [] => True
  | (v, b) :: rest =>
    (b = true ↔ DependsOn φ v ∧ Satisfiable (restrict φ v true)) ∧ Greedy (restrict φ v b) rest

theorem Greedy.unique {φ : (α → Bool) → Bool} {choices choices' : List (α × Bool)}
    (h : Greedy φ choices) (h' : Greedy φ choices')
    (hvars : choices.map Prod.fst = choices'.map Prod.fst) : choices = choices' := by
  induction choices generalizing φ choices' with
  | nil => exact (List.map_eq_nil_iff.mp hvars.symm).symm
  | cons choice rest ih => cases choices' with
    | nil => exact absurd hvars (List.cons_ne_nil _ _)
    | cons choice' rest' =>
      obtain ⟨v, b⟩ := choice
      obtain ⟨v', b'⟩ := choice'
      obtain ⟨hv, hrest⟩ := List.cons.inj hvars
      have hv' : v = v' := hv
      subst v'
      have hb : b = b' := Bool.eq_iff_iff.mpr (h.1.trans h'.1.symm)
      subst b'
      rw [ih h.2 h'.2 hrest]

namespace Renamed

variable {V : Finset α} {e : α → β} {φ : (α → Bool) → Bool} {ψ : (β → Bool) → Bool}

theorem restrict (h : Renamed V e φ ψ) (he : Set.InjOn e V) {v : α} (hv : v ∈ V) (b : Bool) :
    Renamed V e (restrict φ v b) (restrict ψ (e v) b) := by
  intro ρ σ hagree
  apply h
  intro w hw
  by_cases hwv : w = v
  · subst w
    simp
  · have hne : e w ≠ e v := fun heq => hwv (he hw hv heq)
    simp [hwv, hne, hagree w hw]

theorem dependsOn_iff [Nonempty α] (h : Renamed V e φ ψ) (he : Set.InjOn e V) {v : α}
    (hv : v ∈ V) : DependsOn φ v ↔ DependsOn ψ (e v) := by
  have hsides := fun b => h.restrict he hv b
  constructor
  · rintro ⟨ρ, hρ⟩
    obtain ⟨σ, hσ⟩ := exists_agreeing he ρ
    refine ⟨σ, ?_⟩
    rwa [← hsides true ρ σ hσ, ← hsides false ρ σ hσ]
  · rintro ⟨σ, hσ⟩
    refine ⟨fun v => σ (e v), ?_⟩
    rwa [hsides true _ σ fun _ _ => rfl, hsides false _ σ fun _ _ => rfl]

theorem greedy [Nonempty α] (h : Renamed V e φ ψ) (he : Set.InjOn e V) {choices : List (α × Bool)}
    (hvars : ∀ choice ∈ choices, choice.1 ∈ V) (hgreedy : Greedy φ choices) :
    Greedy ψ (choices.map fun choice => (e choice.1, choice.2)) := by
  induction choices generalizing φ ψ with
  | nil => exact trivial
  | cons choice rest ih =>
    obtain ⟨v, b⟩ := choice
    have hv : v ∈ V := hvars (v, b) List.mem_cons_self
    constructor
    · rw [hgreedy.1, h.dependsOn_iff he hv, (h.restrict he hv true).satisfiable_iff he]
    · exact ih (h.restrict he hv b) (fun choice hc => hvars choice (List.mem_cons_of_mem _ hc))
        hgreedy.2

end Renamed

end GuardedMachines
