import GuardedMachines.Limits
import GuardedMachines.Trace

/-!
Computations that ask an oracle. A query may reach a bound, and then nothing
after it is computed; the records made until then are kept.
-/

namespace GuardedMachines

structure Query (α : Type) where
  result : Except Exhaustion α
  records : List Record

namespace Query

instance : Monad Query where
  pure a := ⟨.ok a, []⟩
  bind x f :=
    match x.result with
    | .error e => ⟨.error e, x.records⟩
    | .ok a =>
      let y := f a
      ⟨y.result, x.records ++ y.records⟩

instance : MonadLift Traced Query := ⟨fun x => ⟨.ok x.value, x.records⟩⟩

variable {α β : Type}

@[simp] theorem result_pure (a : α) : (pure a : Query α).result = .ok a := rfl

/-- The records do not influence the result. -/
theorem result_bind (x : Query α) (f : α → Query β) :
    (x >>= f).result = x.result.bind fun a => (f a).result := by
  obtain ⟨result, records⟩ := x
  cases result <;> rfl

/-- A query goes on exactly where it had an answer. -/
theorem result_bind_eq_ok {x : Query α} {f : α → Query β} {b : β} :
    (x >>= f).result = .ok b ↔ ∃ a, x.result = .ok a ∧ (f a).result = .ok b := by
  rw [result_bind]
  cases x.result with
  | error cause => exact ⟨fun h => (nomatch h), fun ⟨_, h, _⟩ => (nomatch h)⟩
  | ok a => exact ⟨fun h => ⟨a, rfl, h⟩, fun ⟨_, h, hb⟩ => Except.ok.inj h ▸ hb⟩

@[simp] theorem result_lift (x : Traced α) : (liftM x : Query α).result = .ok x.value := rfl

theorem result_lift_bind (x : Traced α) (f : α → Query β) :
    ((liftM x : Query α) >>= f).result = (f x.value).result := rfl

/-- The outcome of a query as a value. -/
def traced (x : Query α) : Traced (Except Exhaustion α) := ⟨x.result, x.records⟩

end Query

end GuardedMachines
